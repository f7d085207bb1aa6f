import LaneGraph.Proofs.Conditions

/-!
# Conditions on nodes, and downward sweeps

A downward sweep replaces nodes until they settle. If the nodes that the outputs depend on
meet a condition, and every replacement brings in nodes that meet it, it is met to the end;
besides, what settles has the form in which a node stays. Replacements lead further down,
so no node leads back to itself, and this is where the order of the arena comes in: it is
known of every step already, and here it is only put together with what the step does to
the condition.
-/

namespace LaneGraph

open Build

/-- Frames stay, whatever becomes of operands. -/
structure Framed (g g' : Graph) : Prop where
  functions : g'.functions = g.functions
  size : g.nodes.size ≤ g'.nodes.size
  frame : ∀ id n, g.node? id = some n → ∃ n', g'.node? id = some n' ∧ n'.frame = n.frame

namespace Framed

variable {g g' g'' : Graph}

/-- Doing nothing keeps frames. -/
theorem refl (g : Graph) : Framed g g := ⟨rfl, Nat.le_refl _, fun _ n hn => ⟨n, hn, rfl⟩⟩

/-- Frames that are kept twice are kept. -/
theorem trans (h : Framed g g') (h' : Framed g' g'') : Framed g g'' where
  functions := h'.functions.trans h.functions
  size := Nat.le_trans h.size h'.size
  frame id n hn := by
    obtain ⟨n', hn', hframe⟩ := h.frame id n hn
    obtain ⟨n'', hn'', hframe'⟩ := h'.frame id n' hn'
    exact ⟨n'', hn'', hframe'.trans hframe⟩

/-- Where nodes are only added, frames stay. -/
theorem of_keeping (h : Keeping (fun _ => True) g g') : Framed g g' :=
  ⟨h.functions, h.size, fun id n hn => ⟨n, h.node id n trivial hn, rfl⟩⟩

/-- A node may be replaced by one of the same frame. -/
theorem setNode {id : NodeId} {n n' : Node} (hn : g.node? id = some n) (hframe : n'.frame = n.frame) :
    Framed g (g.setNode id n') := by
  refine ⟨rfl, Nat.le_of_eq (Graph.size_setNode g id n').symm, fun x m hm => ?_⟩
  by_cases hx : x = id
  · subst hx
    rw [hn] at hm
    cases hm
    exact ⟨n', Graph.node?_setNode_self n' hn, hframe⟩
  · exact ⟨m, (Graph.node?_setNode_of_ne n' hx).trans hm, rfl⟩

/-- What is seen of a node stays. -/
theorem lookAt (h : Framed g g') {id : NodeId} (hid : id < g.nodes.size) :
    g'.lookAt id = g.lookAt id := by
  obtain ⟨n, hn⟩ := Graph.exists_node hid
  obtain ⟨n', hn', hframe⟩ := h.frame id n hn
  exact Graph.lookAt_of_frame hn' hn hframe

/-- Nodes of the arena stay in it. -/
theorem usable (h : Framed g g') {live : NodeId → Prop} {id : NodeId} (hid : Usable live g id) :
    Usable live g' id := ⟨hid.live, Nat.lt_of_lt_of_le hid.lt h.size⟩

end Framed

/-- The node at a position has a form, which is seen in its frame. -/
def Graph.Shows (form : Node → Prop) (g : Graph) (id : NodeId) : Prop :=
  ∃ n, g.node? id = some n ∧ form n.frame

/-- The form of a node stays. -/
theorem Graph.Shows.framed {form : Node → Prop} {g g' : Graph} {id : NodeId}
    (h : g.Shows form id) (hframed : Framed g g') : g'.Shows form id := by
  obtain ⟨n, hn, hform⟩ := h
  obtain ⟨n', hn', hframe⟩ := hframed.frame id n hn
  exact ⟨n', hn', hframe ▸ hform⟩

/-- A node of the set may get other operands, if they are related to those that it had. -/
theorem MeetsOn.redirect {P : Condition} {live : NodeId → Prop} {rel : Look → Look → Prop}
    {g : Graph} {id : NodeId} {n n' : Node} (h : MeetsOn P live g) (hid : live id)
    (hn : g.node? id = some n) (hframe : n'.frame = n.frame) (hbears : P.Bears rel)
    (hlooks : List.Forall₂ (fun x y => rel (g.lookAt x) (g.lookAt y)) n.children n'.children)
    (hready : ∀ c ∈ n'.children, Usable live g c) : MeetsOn P live (g.setNode id n') := by
  have hframed := Framed.setNode hn hframe
  have hcases : ∀ x m, (g.setNode id n').node? x = some m →
      x = id ∧ m = n' ∨ x ≠ id ∧ g.node? x = some m := by
    intro x m hm
    by_cases hx : x = id
    · subst hx
      rw [Graph.node?_setNode_self n' hn] at hm
      cases hm
      exact .inl ⟨rfl, rfl⟩
    · rw [Graph.node?_setNode_of_ne n' hx] at hm
      exact .inr ⟨hx, hm⟩
  have hsame : ∀ xs : List NodeId, (∀ x ∈ xs, Usable live g x) →
      xs.map (g.setNode id n').lookAt = xs.map g.lookAt :=
    fun xs hxs => List.map_congr_left fun x hx => hframed.lookAt (hxs x hx).lt
  refine ⟨fun x hx => h.fresh x (Nat.le_trans hframed.size hx), fun x m hx hm => ?_,
    fun x m hx hm c hc => hframed.usable ?_⟩
  · unfold Graph.Meets
    rcases hcases x m hm with ⟨rfl, rfl⟩ | ⟨-, hm⟩
    · rw [hsame _ hready, hframe]
      refine hbears _ _ _ _ ?_ (h.meets x n hid hn)
      rwa [List.forall₂_map_left_iff, List.forall₂_map_right_iff]
    · rw [hsame _ (h.ready x m hx hm)]
      exact h.meets x m hx hm
  · rcases hcases x m hm with ⟨rfl, rfl⟩ | ⟨-, hm⟩
    · exact hready c hc
    · exact h.ready x m hx hm c hc

/-- Replacing a node in a downward sweep: what is added meets the condition, what takes the
place of the node looks as it should, and a node that stays has its form. -/
def Eases (S : Streams) (P : Condition) (rel : Look → Look → Prop) (form : Node → Prop)
    (replace : NodeId → Build NodeId) : Prop :=
  ∀ (live : NodeId → Prop) (g : Graph) (id : NodeId) (n : Node), Orderly S g → MeetsOn P live g →
    live id → g.node? id = some n → Brings P live (replace id) g fun new g' => Usable live g' new ∧
      rel (g.lookAt id) (g'.lookAt new) ∧ (new = id → form n.frame)

/-- The second node is where the first one settled. -/
structure Grounded (rel : Look → Look → Prop) (form : Node → Prop) (live : NodeId → Prop)
    (g : Graph) (id done : NodeId) : Prop where
  old : Usable live g id
  new : Usable live g done
  look : rel (g.lookAt id) (g.lookAt done)
  form : g.Shows form done

/-- What holds between the steps of a downward sweep. -/
structure Easing (P : Condition) (rel : Look → Look → Prop) (form : Node → Prop)
    (live : NodeId → Prop) (g : Graph) (d : Descent) : Prop where
  meets : MeetsOn P live g
  settled : ∀ x y, d.settled.lookup x = some y → Grounded rel form live g x y
  entered : ∀ x ∈ d.entered, Usable live g x ∧ g.Shows form x

section

variable {S : Streams} {P : Condition} {rel : Look → Look → Prop} {form : Node → Prop}
  {live : NodeId → Prop} {g g' : Graph} {rank : NodeId → Nat} {d : Descent}
  {replace : NodeId → Build NodeId} {bound : Nat}

/-- Where a node settled stays. -/
theorem Grounded.framed {id done : NodeId} (h : Grounded rel form live g id done)
    (hframed : Framed g g') : Grounded rel form live g' id done where
  old := hframed.usable h.old
  new := hframed.usable h.new
  look := by
    rw [hframed.lookAt h.old.lt, hframed.lookAt h.new.lt]
    exact h.look
  form := h.form.framed hframed

/-- What holds between steps stays where frames do. -/
theorem Easing.framed (h : Easing P rel form live g d) (hmeets : MeetsOn P live g')
    (hframed : Framed g g') : Easing P rel form live g' d where
  meets := hmeets
  settled x y hy := (h.settled x y hy).framed hframed
  entered x hx := ⟨hframed.usable (h.entered x hx).1, (h.entered x hx).2.framed hframed⟩

/-- What steps do to the order of the arena and what they achieve holds together. -/
theorem Keeps.and_ends {α : Type} {steps : Build α} {post : α → Graph → (NodeId → Nat) → Prop}
    {post' : α → Graph → Prop} (h : Keeps S g rank steps post)
    (h' : Ends steps g post' fun _ => True) :
    Ends steps g (fun a g' => (∃ rank', Ordered S g' rank' ∧ Onward g rank g' rank' ∧
      post a g' rank') ∧ post' a g') fun _ => True :=
  h.lands.ends.and h'

/-- The steps of a sweep lead further down, and they bring in nodes that meet the
condition. -/
structure Steadies (S : Streams) (P : Condition) (rel : Look → Look → Prop) (form : Node → Prop)
    (replace : NodeId → Build NodeId) : Prop where
  descends : Descends S replace
  eases : Eases S P rel form replace
  bears : P.Bears rel
  refl : ∀ l, rel l l
  trans : ∀ l l' l'', rel l l' → rel l' l'' → rel l l''

namespace Steadies

/-- Where a node settles it looks as it should, and it has its form. -/
theorem settle (hs : Steadies S P rel form replace) {id : NodeId} (h : Ordered S g rank)
    (hmeets : MeetsOn P live g) (hid : Usable live g id) :
    Brings P live (Build.settle replace bound id) g fun done g' =>
      Grounded rel form live g' id done := by
  induction bound generalizing g rank id with
  | zero => exact trivial
  | succ bound ih =>
    obtain ⟨n, hn⟩ := Graph.exists_node hid.lt
    unfold Brings
    rw [Build.settle, ends_bind]
    refine ((hs.descends h hn).and_ends
      (hs.eases live g id n ⟨rank, h⟩ hmeets hid.live hn)).mono ?_
    rintro new g₁ ⟨⟨rank₁, h₁, -, -⟩, hkeeping, hmeets₁, hnew, hlook, hform⟩
    have hframed := Framed.of_keeping hkeeping
    by_cases hsame : new = id
    · subst hsame
      rw [if_pos rfl]
      exact ⟨hkeeping, hmeets₁, hnew, hnew, hs.refl _, n, hkeeping.node new n trivial hn, hform rfl⟩
    · rw [if_neg hsame]
      refine Ends.mono (ih h₁ hmeets₁ hnew) ?_
      rintro done g₂ ⟨hkeeping', hmeets₂, hdone⟩
      have hframed' := Framed.of_keeping hkeeping'
      refine ⟨hkeeping.trans hkeeping', hmeets₂, hid.keeping (hkeeping.trans hkeeping'), hdone.new,
        hs.trans _ _ _ ?_ hdone.look, hdone.form⟩
      rw [(hframed.trans hframed').lookAt hid.lt, hframed'.lookAt hnew.lt]
      exact hlook

/-- Where a node settles is found once. -/
theorem settleOnce (hs : Steadies S P rel form replace) {id : NodeId} (h : Ordered S g rank)
    (hd : Easing P rel form live g d) (hid : Usable live g id) :
    Brings P live (Build.settleOnce replace bound d id) g fun done g' =>
      Grounded rel form live g' id done.1 ∧ Easing P rel form live g' done.2 ∧
        done.2.entered = d.entered := by
  unfold Build.settleOnce
  cases hlookup : d.settled.lookup id with
  | some done => exact .pure hd.meets ⟨hd.settled id done hlookup, hd, rfl⟩
  | none =>
    refine (hs.settle h hd.meets hid).bind fun done g₁ hkeeping hmeets hdone => ?_
    have hd₁ := hd.framed hmeets (.of_keeping hkeeping)
    refine .pure hmeets ⟨hdone, ⟨hmeets, fun x y hy => ?_, hd₁.entered⟩, rfl⟩
    rw [List.lookup_cons] at hy
    split at hy
    · rename_i heq
      cases hy
      rw [beq_iff_eq.mp heq]
      exact ⟨hdone.new, hdone.new, hs.refl _, hdone.form⟩
    · rw [List.lookup_cons] at hy
      split at hy
      · rename_i heq
        cases hy
        rw [beq_iff_eq.mp heq]
        exact hdone
      · exact hd₁.settled x y hy

/-- The operands of a node settle, and the node is redirected to them. -/
theorem settleChildren (hs : Steadies S P rel form replace) {parent : NodeId}
    (after : List NodeId) {n : Node} (before : List NodeId) (h : Ordered S g rank)
    (hd : Easing P rel form live g d) (hsinks : Sinks g rank d.settled) (hparent : live parent)
    (hn : g.node? parent = some n) (hbound : rank parent < bound)
    (hchildren : n.children = before ++ after) :
    Ends (Build.settleChildren replace bound parent d (after.zipIdx before.length)) g
      (fun done g' => Framed g g' ∧ Easing P rel form live g' done.2 ∧
        (∀ x m, x ≠ parent → g.node? x = some m → g'.node? x = some m) ∧
        done.2.entered = d.entered ∧ (∀ c ∈ done.1, g'.Shows form c) ∧
        ∃ n', g'.node? parent = some n' ∧ n'.children = before ++ done.1) fun _ => True := by
  induction after generalizing g rank d n before with
  | nil =>
    exact ⟨.refl g, hd, fun _ _ _ hm => hm, rfl, fun _ hc => (nomatch hc), n, hn, hchildren⟩
  | cons child rest ih =>
    have hmem : child ∈ n.children := by
      rw [hchildren]
      exact List.mem_append_right _ List.mem_cons_self
    have hchild := hd.meets.ready parent n hparent hn child hmem
    have hbelow := (h.node hn).below child hmem
    have hpos := n.op.room_bounds.1
    rw [List.zipIdx_cons, Build.settleChildren, ends_bind]
    refine ((Descends.settleOnce hs.descends h hsinks hchild.lt (by omega)).and_ends
      (hs.settleOnce h hd hchild)).mono ?_
    rintro ⟨done, d₁⟩ g₁ ⟨⟨rank₁, h₁, ho₁, hlower, hsinks₁⟩, hkeeping, -, hdone, hd₁, hentered⟩
    have hframed := Framed.of_keeping hkeeping
    have hn₁ := hkeeping.node parent n trivial hn
    have hrank₁ := ho₁.rank parent (Graph.lt_size hn)
    have hle := hlower.le
    dsimp only at hdone hd₁ hentered hsinks₁ hlower hle ⊢
    -- The rest is done on an arena whose node has the settled operand.
    have hrest : ∀ {g₂ : Graph} {rank₂ : NodeId → Nat} {n₂ : Node}, Ordered S g₂ rank₂ →
        Onward g₁ rank₁ g₂ rank₂ → MeetsOn P live g₂ → Framed g₁ g₂ →
        (∀ x m, x ≠ parent → g₁.node? x = some m → g₂.node? x = some m) →
        g₂.node? parent = some n₂ → n₂.children = before ++ done :: rest →
        Ends (do
          let others ← Build.settleChildren replace bound parent d₁
            (rest.zipIdx (before.length + 1))
          return (done :: others.1, others.2)) g₂ (fun done g' => Framed g g' ∧
            Easing P rel form live g' done.2 ∧
            (∀ x m, x ≠ parent → g.node? x = some m → g'.node? x = some m) ∧
            done.2.entered = d.entered ∧ (∀ c ∈ done.1, g'.Shows form c) ∧
            ∃ n', g'.node? parent = some n' ∧ n'.children = before ++ done.1) fun _ => True := by
      intro g₂ rank₂ n₂ h₂ ho₂ hmeets₂ hframed₂ hkept₂ hn₂ hchildren₂
      have hlength : (before ++ [done]).length = before.length + 1 := by
        rw [List.length_append, List.length_singleton]
      have hrank₂ := ho₂.rank parent (Graph.lt_size hn₁)
      rw [ends_bind, ← hlength]
      refine (ih (before ++ [done]) h₂ (hd₁.framed hmeets₂ hframed₂) (hsinks₁.onward ho₂) hn₂
        (by omega) (by rw [hchildren₂, List.append_assoc, List.singleton_append])).mono ?_
      rintro ⟨others, d'⟩ g' ⟨hframed', hd', hkept', hentered', hshows, n', hn', hchildren'⟩
      refine ⟨(hframed.trans hframed₂).trans hframed', hd', fun x m hx hm => ?_,
        hentered'.trans hentered, fun c hc => ?_, n', hn', ?_⟩
      · exact hkept' x m hx (hkept₂ x m hx (hkeeping.node x m trivial hm))
      · rcases List.mem_cons.mp hc with rfl | hc
        · exact hdone.form.framed (hframed₂.trans hframed')
        · exact hshows c hc
      · rw [hchildren', List.append_assoc, List.singleton_append]
    by_cases hsame : done = child
    · rw [if_neg (not_not.mpr hsame)]
      exact hrest h₁ (Onward.refl g₁ rank₁) hd₁.meets (.refl g₁) (fun _ _ _ hm => hm) hn₁
        (by rw [hchildren, hsame])
    · rw [if_pos hsame, ends_bind]
      obtain ⟨hset, hframe⟩ := Node.setChild_append hchildren done
      have hmeets₂ : MeetsOn P live (g₁.setNode parent (n.setChild before.length done)) := by
        have hready := hd₁.meets.ready parent n hparent hn₁
        refine hd₁.meets.redirect hparent hn₁ hframe hs.bears ?_ fun c hc => ?_
        · have hrefl : ∀ xs : List NodeId,
              List.Forall₂ (fun x y => rel (g₁.lookAt x) (g₁.lookAt y)) xs xs :=
            fun xs => List.forall₂_same.mpr fun x _ => hs.refl _
          rw [hset, hchildren]
          exact List.rel_append (hrefl before) (.cons hdone.look (hrefl rest))
        · rw [hchildren] at hready
          rw [hset] at hc
          simp only [List.mem_append, List.mem_cons] at hc hready
          rcases hc with hc | rfl | hc
          · exact hready c (.inl hc)
          · exact hdone.new
          · exact hready c (.inr (.inr hc))
      have hchanged : Ends (Build.setChild parent before.length done) g₁
          (fun _ g₂ => g₂ = g₁.setNode parent (n.setChild before.length done)) fun _ => True :=
        (ends_setChild hn₁).mpr rfl
      refine ((h₁.setChild before.length hn₁ hlower.lt (by omega)).and_ends hchanged).mono ?_
      rintro - g₂ ⟨⟨rank₂, h₂, ho₂, -⟩, rfl⟩
      refine hrest h₂ ho₂ hmeets₂ (.setNode hn₁ hframe) (fun x m hx hm => ?_)
        (Graph.node?_setNode_self _ hn₁) hset
      rw [Graph.node?_setNode_of_ne _ hx]
      exact hm

end Steadies

/-- What going down from nodes achieves. -/
structure Arrived (P : Condition) (rel : Look → Look → Prop) (form : Node → Prop)
    (live : NodeId → Prop) (g : Graph) (d : Descent) (roots : List NodeId) (g' : Graph)
    (d' : Descent) : Prop where
  framed : Framed g g'
  easing : Easing P rel form live g' d'
  deeper : Deeper g d g' d'
  roots : ∀ x ∈ roots, x ∈ d'.entered

/-- Nodes that were entered are in the arena. -/
theorem Easing.nodes (h : Easing P rel form live g d) : ∀ x ∈ d.entered, ∃ n, g.node? x = some n :=
  fun x hx => Graph.exists_node (h.entered x hx).1.lt

namespace Steadies

/-- Going down from several nodes, one after the other. -/
theorem foldlM {visit : Descent → NodeId → Build Descent} (roots : List NodeId) {depth : Nat}
    (hvisit : ∀ {g : Graph} {rank : NodeId → Nat} {d : Descent} {x : NodeId}, Ordered S g rank →
      Easing P rel form live g d → Sinks g rank d.settled → Usable live g x → g.Shows form x →
      rank x < depth → Ends (visit d x) g (fun d' g' => (∃ rank', Ordered S g' rank' ∧
        Onward g rank g' rank' ∧ Sinks g' rank' d'.settled) ∧
        Arrived P rel form live g d [x] g' d') fun _ => True)
    (h : Ordered S g rank) (hd : Easing P rel form live g d) (hsinks : Sinks g rank d.settled)
    (hroots : ∀ x ∈ roots, Usable live g x ∧ g.Shows form x ∧ rank x < depth) :
    Ends (roots.foldlM visit d) g (fun d' g' => Arrived P rel form live g d roots g' d')
      fun _ => True := by
  induction roots generalizing g rank d with
  | nil => exact ⟨.refl g, hd, .refl g d, fun _ hx => (nomatch hx)⟩
  | cons x rest ih =>
    obtain ⟨husable, hshows, hrank⟩ := hroots x List.mem_cons_self
    rw [List.foldlM_cons, ends_bind]
    refine (hvisit h hd hsinks husable hshows hrank).mono ?_
    rintro d₁ g₁ ⟨⟨rank₁, h₁, ho₁, hsinks₁⟩, harrived⟩
    refine (ih h₁ harrived.easing hsinks₁ fun y hy => ?_).mono fun d' g' harrived' => ?_
    · obtain ⟨husable, hshows, hrank⟩ := hroots y (List.mem_cons_of_mem _ hy)
      rw [ho₁.rank y husable.lt]
      exact ⟨harrived.framed.usable husable, hshows.framed harrived.framed, hrank⟩
    · refine ⟨harrived.framed.trans harrived'.framed, harrived'.easing,
        harrived.deeper.trans harrived'.deeper harrived.easing.nodes, fun y hy => ?_⟩
      rcases List.mem_cons.mp hy with rfl | hy
      · exact harrived'.deeper.entered y (harrived.roots y List.mem_cons_self)
      · exact harrived'.roots y hy

/-- Going down from a node that settled. -/
theorem descend (hs : Steadies S P rel form replace) {depth : Nat} (hdepth : depth ≤ bound)
    {parent : NodeId} (h : Ordered S g rank) (hd : Easing P rel form live g d)
    (hsinks : Sinks g rank d.settled) (hparent : Usable live g parent)
    (hshows : g.Shows form parent) (hrank : rank parent < depth) :
    Ends (Build.descend replace bound depth d parent) g
      (fun d' g' => Arrived P rel form live g d [parent] g' d') fun _ => True := by
  induction depth generalizing g rank d parent with
  | zero => exact absurd hrank (Nat.not_lt_zero _)
  | succ depth ih =>
    rw [Build.descend]
    by_cases hin : parent ∈ d.entered
    · rw [if_pos hin]
      exact ⟨.refl g, hd, .refl g d, fun x hx => List.mem_singleton.mp hx ▸ hin⟩
    obtain ⟨n, hn⟩ := Graph.exists_node hparent.lt
    have hd₀ : Easing P rel form live g { d with entered := parent :: d.entered } :=
      { meets := hd.meets
        settled := hd.settled
        entered := fun x hx => by
          rcases List.mem_cons.mp hx with rfl | hx
          · exact ⟨hparent, hshows⟩
          · exact hd.entered x hx }
    rw [if_neg hin, ends_bind, ends_node hn, ends_bind]
    have hpairs : ∀ p ∈ n.children.zipIdx, p.1 < g.nodes.size ∧
        rank p.1 + n.op.room ≤ rank parent := by
      intro p hp
      have hmem : p.1 ∈ n.children := List.fst_mem_of_mem_zipIdx hp
      exact ⟨(h.node hn).child _ hmem, (h.node hn).below _ hmem⟩
    refine ((Descends.settleChildren hs.descends n.children.zipIdx
      (d := { d with entered := parent :: d.entered }) h hsinks hn hpairs (by omega)).and_ends
      (hs.settleChildren n.children [] h hd₀ hsinks hparent.live hn
        (Nat.lt_of_lt_of_le hrank hdepth) rfl)).mono ?_
    rintro ⟨done, d₁⟩ g₁
      ⟨⟨rank₁, h₁, ho₁, hlower, hsinks₁⟩, hframed, hd₁, hkept, hentered, hdone, n₁, hn₁, hchildren⟩
    rw [List.nil_append] at hchildren
    dsimp only at hentered hd₁ hdone hsinks₁ hlower ⊢
    have hroots : ∀ x ∈ done.reverse, Usable live g₁ x ∧ g₁.Shows form x ∧ rank₁ x < depth := by
      intro x hx
      have hmem : x ∈ done := List.mem_reverse.mp hx
      obtain ⟨-, hlt⟩ := hlower x hmem
      exact ⟨hd₁.meets.ready parent n₁ hparent.live hn₁ x (hchildren ▸ hmem), hdone x hmem, by omega⟩
    refine (foldlM done.reverse (fun h hd hsinks hx hshows hrank =>
      (Descends.descend hs.descends (by omega) h hsinks hx.lt hrank).and_ends
        (ih (by omega) h hd hsinks hx hshows hrank)) h₁ hd₁ hsinks₁ hroots).mono ?_
    rintro d' g' ⟨hframed', hd', hdeeper, hall⟩
    have hparent₁ : parent ∈ d₁.entered := hentered ▸ List.mem_cons_self
    refine ⟨hframed.trans hframed', hd', ⟨fun x hx m hm => ?_, fun x hx => ?_, fun x hx => ?_⟩,
      fun x hx => List.mem_singleton.mp hx ▸ hdeeper.entered parent hparent₁⟩
    · exact hdeeper.kept x (hentered ▸ List.mem_cons_of_mem _ hx) m
        (hkept x m (fun heq => hin (heq ▸ hx)) hm)
    · exact hdeeper.entered x (hentered ▸ List.mem_cons_of_mem _ hx)
    · rcases hdeeper.closed x hx with hold | hnew
      · rw [hentered] at hold
        rcases List.mem_cons.mp hold with rfl | hold
        · refine .inr fun m hm c hc => ?_
          rw [hdeeper.kept x hparent₁ n₁ hn₁] at hm
          cases hm
          rw [hchildren] at hc
          exact hall c (List.mem_reverse.mpr hc)
        · exact .inl hold
      · exact .inr hnew

/-- An output settles with everything below it. -/
theorem sweepOutput (hs : Steadies S P rel form replace) {output : NodeId}
    (h : Ordered S g rank) (hd : Easing P rel form live g d) (hsinks : Sinks g rank d.settled)
    (hout : Usable live g output) (hbound : rank output + 1 < bound) :
    Ends (Build.sweepOutput replace bound d output) g (fun done g' =>
      Arrived P rel form live g d [done.1] g' done.2 ∧ rel (g.lookAt output) (g'.lookAt done.1))
      fun _ => True := by
  unfold Build.sweepOutput
  rw [ends_bind]
  refine ((Descends.settleOnce hs.descends h hsinks hout.lt hbound).and_ends
    (hs.settleOnce h hd hout)).mono ?_
  rintro ⟨done, d₁⟩ g₁ ⟨⟨rank₁, h₁, ho₁, hlower, hsinks₁⟩, hkeeping, -, hdone, hd₁, hentered⟩
  dsimp only at hdone hd₁ hentered hsinks₁ hlower ⊢
  have hframed := Framed.of_keeping hkeeping
  have hle := hlower.le
  rw [ends_bind]
  refine (checkOutput_any output done).mono ?_
  rintro - g₂ rfl
  rw [ends_bind]
  refine (hs.descend (Nat.le_refl bound) h₁ hd₁ hsinks₁ hdone.new hdone.form (by omega)).mono ?_
  rintro d₃ g₃ ⟨hframed', hd₃, hdeeper, hall⟩
  rw [ends_pure]
  refine ⟨⟨hframed.trans hframed', hd₃, ?_, hall⟩, ?_⟩
  · exact
      { kept := fun x hx m hm =>
          hdeeper.kept x (hentered ▸ hx) m (hkeeping.node x m trivial hm)
        entered := fun x hx => hdeeper.entered x (hentered ▸ hx)
        closed := fun x hx => hentered ▸ hdeeper.closed x hx }
  · rw [hframed'.lookAt hdone.new.lt, ← hframed.lookAt hout.lt]
    exact hdone.look

/-- Outputs settle in order, with everything below them. -/
theorem sweepOutputs (hs : Steadies S P rel form replace) (outputs : List NodeId)
    (h : Ordered S g rank) (hd : Easing P rel form live g d) (hsinks : Sinks g rank d.settled)
    (houtputs : ∀ x ∈ outputs, Usable live g x ∧ rank x + 1 < bound) :
    Ends (Build.sweepOutputs replace bound d outputs) g (fun done g' => ∃ d',
      Arrived P rel form live g d done g' d' ∧
        List.Forall₂ (fun old new => rel (g.lookAt old) (g'.lookAt new)) outputs done)
      fun _ => True := by
  induction outputs generalizing g rank d with
  | nil => exact ⟨d, ⟨.refl g, hd, .refl g d, fun _ hx => (nomatch hx)⟩, .nil⟩
  | cons output rest ih =>
    obtain ⟨husable, hbound⟩ := houtputs output List.mem_cons_self
    rw [Build.sweepOutputs, ends_bind]
    refine ((Descends.sweepOutput hs.descends h hsinks husable.lt hbound).and_ends
      (hs.sweepOutput h hd hsinks husable hbound)).mono ?_
    rintro ⟨done, d₁⟩ g₁ ⟨⟨rank₁, h₁, ho₁, -, hsinks₁⟩, harrived, hlook⟩
    dsimp only at harrived hsinks₁ hlook ⊢
    have hdone : done < g₁.nodes.size :=
      (harrived.easing.entered done (harrived.roots done List.mem_cons_self)).1.lt
    rw [ends_bind]
    refine (ih h₁ harrived.easing hsinks₁ fun x hx => ?_).mono ?_
    · obtain ⟨husable, hbound⟩ := houtputs x (List.mem_cons_of_mem _ hx)
      rw [ho₁.rank x husable.lt]
      exact ⟨harrived.framed.usable husable, hbound⟩
    · rintro others g' ⟨d', harrived', hlooks⟩
      rw [ends_pure]
      refine ⟨d', ⟨harrived.framed.trans harrived'.framed, harrived'.easing,
        harrived.deeper.trans harrived'.deeper harrived.easing.nodes, fun x hx => ?_⟩,
        .cons ?_ ?_⟩
      · rcases List.mem_cons.mp hx with rfl | hx
        · exact harrived'.deeper.entered x (harrived.roots x List.mem_cons_self)
        · exact harrived'.roots x hx
      · rw [harrived'.framed.lookAt hdone]
        exact hlook
      · have hlt : ∀ x ∈ rest, x < g.nodes.size :=
          fun x hx => (houtputs x (List.mem_cons_of_mem _ hx)).1.lt
        refine ((List.forall₂_and_left rest others).mpr ⟨hlt, hlooks⟩).imp fun x y hx => ?_
        rw [← harrived.framed.lookAt hx.1]
        exact hx.2

end Steadies

/-- After a downward pass the graph meets the condition, its nodes have the form, and its
outputs look as they should. -/
theorem Pass.downward_obeys {pass : Pass} (hdirection : pass.direction = .downward)
    (hs : Steadies S P rel form pass.replace) (h : Orderly S g) (hg : g.Obeys P) :
    Ends pass.run g (fun _ g' => g'.Obeys (fun functions n looks =>
        P functions n looks ∧ form n) ∧
      List.Forall₂ (fun old new => rel (g.lookAt old) (g'.lookAt new)) g.outputs g'.outputs)
      fun _ => True := by
  obtain ⟨rank, h⟩ := h
  have houtputs : ∀ x ∈ g.outputs, Usable (fun id => g.Needs id ∨ g.nodes.size ≤ id) g x ∧
      16 * g.needRank x + 1 < sweepBound g := by
    intro x hx
    have hneed := h.acyclic.needRank_le x
    unfold sweepBound
    exact ⟨⟨.inl ⟨x, hx, .refl⟩, h.output_lt hx⟩, by omega⟩
  have hempty : Easing P rel form (fun id => g.Needs id ∨ g.nodes.size ≤ id) g {} :=
    ⟨.of_obeys hg, fun _ _ hy => (nomatch hy), fun _ hx => (nomatch hx)⟩
  refine pass.run_any ?_
  rw [hdirection]
  show Ends (sweepDownward pass.replace) g _ _
  unfold sweepDownward
  rw [ends_bind, ends_get, ends_bind]
  refine (hs.sweepOutputs g.outputs h.rescale hempty (Sinks.nil _ _) houtputs).mono ?_
  rintro done g' ⟨d', harrived, hlooks⟩
  rw [ends_modify]
  refine ⟨?_, hlooks⟩
  rintro id ⟨output, houtput, hreach⟩
  have hentered : id ∈ d'.entered := by
    induction hreach with
    | refl => exact harrived.roots output houtput
    | tail _ huses ih =>
      obtain ⟨n, hn, hc⟩ := huses
      exact (harrived.deeper.closed _ ih).resolve_left (fun hnone => nomatch hnone) n hn _ hc
  obtain ⟨husable, n, hn, hform⟩ := harrived.easing.entered id hentered
  exact ⟨n, hn, harrived.easing.meets.meets id n husable.live hn, hform⟩

end

end LaneGraph
