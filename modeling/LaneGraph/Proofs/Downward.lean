import LaneGraph.Proofs.Upward

/-!
# Sweeping downward

A downward sweep replaces a node until it stays and then goes on to its
operands. Replacements only add nodes, so all that matters goes on to matter.
With each replacement the rank of the node drops, or it stays while a weight
drops; so nodes settle within the bound, and since operands rank lower, the
sweep ends. What was entered is closed under operands and has settled.
-/

namespace LaneGraph

open Build

namespace Operation

/-- An operand is replaced in the list of operands. -/
theorem children_setChild (op : Operation) (index : Nat) (child : NodeId)
    (h : index < op.children.length) :
    (op.setChild index child).children = op.children.set index child := by
  cases op with
  | unary | swizzle | output =>
    match index, h with
    | 0, _ => rfl
  | binary =>
    match index, h with
    | 0, _ => rfl
    | 1, _ => rfl
  | ternary =>
    match index, h with
    | 0, _ => rfl
    | 1, _ => rfl
    | 2, _ => rfl
  | constant | input => cases h
  | call | construct => rfl

/-- Only operands change when an operand is replaced. -/
theorem mapChildren_setChild (op : Operation) (index : Nat) (child : NodeId)
    (h : index < op.children.length) :
    (op.setChild index child).mapChildren (fun _ => 0) = op.mapChildren fun _ => 0 := by
  have hset : ∀ xs : List NodeId, (xs.set index child).map (fun _ => 0) = xs.map fun _ => 0 := by
    intro xs
    rw [List.map_const', List.map_const', List.length_set]
  cases op with
  | unary | swizzle | output =>
    match index, h with
    | 0, _ => rfl
  | binary =>
    match index, h with
    | 0, _ => rfl
    | 1, _ => rfl
  | ternary =>
    match index, h with
    | 0, _ => rfl
    | 1, _ => rfl
    | 2, _ => rfl
  | constant | input => cases h
  | call candidates args => exact congrArg (Operation.call candidates) (hset args)
  | construct args => exact congrArg Operation.construct (hset args)

end Operation

variable {R : Rules} {g g' : Graph} {w w' : World} {refused : GraphError → Prop}

/-- A node has a form, which is seen in its frame and the shapes of its
operands. -/
def Formed (form : Node → List Shape → Prop) (g : Graph) (id : NodeId) : Prop :=
  ∃ n, g.node? id = some n ∧ form n.frame (n.children.map g.shapeAt)

/-- The form of a node that matters stays. -/
theorem Formed.later {form : Node → List Shape → Prop} {id : NodeId} (h : Formed form g id) (hid : w.live id)
    (hl : Later g w g' w') : Formed form g' id := by
  obtain ⟨n, hn, hform⟩ := h
  obtain ⟨n', hn', hframe, hshapes⟩ := hl.frame id n hid hn
  refine ⟨n', hn', ?_⟩
  rw [hframe, hshapes]
  exact hform

/-- What becomes of a node that is replaced once: another node stands in for it and is
further down. Nodes that write streams are not replaced. -/
structure Moved (R : Rules) (weight : Node → Nat) (g : Graph) (w : World) (id : NodeId)
    (n : Node) (new : NodeId) (g' : Graph) (w' : World) : Prop where
  standsIn : StandsIn R g' w' id new
  node : ∃ n', g'.node? new = some n' ∧
    w'.rank new + weight n'.frame < w.rank id + weight n.frame
  channel : n.channel? = none

/-- What one replacement leads to: nodes are added, and the node has its form or is
moved. -/
def Steps (R : Rules) (weight : Node → Nat) (form : Node → List Shape → Prop) (g : Graph)
    (w : World) (id : NodeId) (n : Node) (new : NodeId) (g' : Graph) : Prop :=
  ∃ w', Sound R g' w' ∧ Extends g w g' w' ∧
    (new = id ∧ form n.frame (n.children.map g.shapeAt) ∨
      new ≠ id ∧ Moved R weight g w id n new g' w')

/-- A node that has its form stays. -/
theorem Steps.stay {weight : Node → Nat} {form : Node → List Shape → Prop} {id : NodeId} {n : Node}
    (hs : Sound R g w) (h : form n.frame (n.children.map g.shapeAt)) :
    Steps R weight form g w id n id g := ⟨w, hs, Extends.refl g w, .inl ⟨rfl, h⟩⟩

/-- The steps of a downward sweep add nodes, until a node has its form. -/
def Settles (R : Rules) (weight : Node → Nat) (form : Node → List Shape → Prop)
    (replace : NodeId → Build NodeId) (refused : GraphError → Prop := GraphError.IsRefusal) :
    Prop :=
  ∀ (g : Graph) (w : World) (id : NodeId) (n : Node), Sound R g w → w.live id →
    g.node? id = some n → Ends (replace id) g (Steps R weight form g w id n) refused

/-- The steps of a downward sweep keep an invariant. It also outlasts that operands of
nodes in form are exchanged. -/
structure SettlesUnder (inv : Graph → World → Prop) (R : Rules) (weight : Node → Nat)
    (form : Node → List Shape → Prop) (replace : NodeId → Build NodeId)
    (refused : GraphError → Prop := GraphError.IsRefusal) : Prop where
  step : ∀ (g : Graph) (w : World) (id : NodeId) (n : Node), Sound R g w → inv g w → w.live id →
    g.node? id = some n → Ends (replace id) g (fun new g' => Steps R weight form g w id n new g' ∧
      ∀ w', Extends g w g' w' → inv g' w') refused
  exchange : ∀ (g : Graph) (w : World) (id : NodeId) (n n' : Node), inv g w →
    g.node? id = some n → form n.frame (n.children.map g.shapeAt) → n'.frame = n.frame →
      inv (g.setNode id n') w

/-- Without an invariant there is nothing to keep. -/
theorem Settles.under {weight : Node → Nat} {form : Node → List Shape → Prop}
    {replace : NodeId → Build NodeId} (h : Settles R weight form replace refused) :
    SettlesUnder (fun _ _ => True) R weight form replace refused where
  step g w id n hs _ hid hn := (h g w id n hs hid hn).mono fun _ _ hsteps =>
    ⟨hsteps, fun _ _ => trivial⟩
  exchange _ _ _ _ _ _ _ _ _ := trivial

/-- The second node is where the first one settled. Nodes that write streams settle at
once. -/
structure Settled (R : Rules) (form : Node → List Shape → Prop) (g : Graph) (w : World) (id done : NodeId) :
    Prop where
  live : w.live id
  standsIn : StandsIn R g w id done
  formed : Formed form g done
  stays : ∀ channel, g.channelAt id = some channel → done = id

namespace Settled

variable {form : Node → List Shape → Prop} {id done : NodeId}

/-- A node that has its form settled there. -/
theorem self (hid : w.live id) (h : Formed form g id) : Settled R form g w id id :=
  ⟨hid, World.has R g hid, h, fun _ _ => rfl⟩

/-- Where a node settled stays. -/
theorem later (h : Settled R form g w id done) (hs : Sound R g w) (hl : Later g w g' w') :
    Settled R form g' w' id done where
  live := hl.live id h.live
  standsIn := by
    have hhas := h.standsIn.later hs hl
    rw [← hl.shapeAt hs h.live, ← hl.value id h.live, ← hl.rank id h.live] at hhas
    exact hhas
  formed := h.formed.later h.standsIn.live hl
  stays channel hc := h.stays channel (hl.channelAt hs h.live ▸ hc)

end Settled

section

variable {inv : Graph → World → Prop} {weight : Node → Nat} {form : Node → List Shape → Prop}
  {replace : NodeId → Build NodeId}

/-- A node settles within a bound above its rank and weight. -/
theorem settle_ends (hsettles : SettlesUnder inv R weight form replace refused) {id : NodeId} {n : Node} :
    ∀ (bound : Nat) {g : Graph} {w : World}, Sound R g w → inv g w → w.live id →
      g.node? id = some n → w.rank id + weight n.frame < bound →
      Ends (settle replace bound id) g (fun done g' => ∃ w', Sound R g' w' ∧ inv g' w' ∧
        Extends g w g' w' ∧ Settled R form g' w' id done) refused := by
  intro bound
  induction bound generalizing id n with
  | zero => intro g w _ _ _ _ hbound; omega
  | succ bound ih =>
    intro g w hs hinv hid hn hbound
    rw [settle, ends_bind]
    refine (hsettles.step g w id n hs hinv hid hn).mono ?_
    rintro new g' ⟨⟨w', hs', hext, hcases⟩, hkeeps⟩
    have hinv' := hkeeps w' hext
    rcases hcases with ⟨rfl, hform⟩ | ⟨hne, hstands, ⟨n', hn', hdrop⟩, hchannel⟩
    · rw [if_pos rfl, ends_pure]
      have hformed : Formed form g new := ⟨n, hn, hform⟩
      exact ⟨w', hs', hinv', hext, .self (hext.live _ hid) (hformed.later hid hext.toLater)⟩
    · rw [if_neg hne]
      refine (ih hs' hinv' hstands.live hn' (by omega)).mono ?_
      rintro done g'' ⟨w'', hs'', hinv'', hext', hsettled⟩
      refine ⟨w'', hs'', hinv'', hext.trans hext', hext'.live _ (hext.live _ hid), ?_, hsettled.formed, ?_⟩
      · have hhas := hstands.later hs' hext'.toLater
        have hsecond := hsettled.standsIn
        refine ⟨hsecond.live, ?_, fun ht => ?_, ?_⟩
        · rw [hsecond.shape, hhas.shape, hext'.shapeAt hs' (hext.live _ hid)]
        · rw [hext'.value _ (hext.live _ hid)]
          exact R.agreement.trans (hhas.value ht) (hsecond.value ht)
        · have hrank := hsecond.rank
          have hrank' := hhas.rank
          rw [hext'.rank _ (hext.live _ hid)]
          omega
      · intro channel hc
        unfold Graph.channelAt at hc
        rw [hext'.nodes _ _ (hext.nodes _ n hn), Option.bind_some, hchannel] at hc
        cases hc

/-- What holds between the steps of a downward sweep. -/
structure Descending (inv : Graph → World → Prop) (R : Rules) (form : Node → List Shape → Prop)
    (g : Graph) (w : World) (d : Descent) : Prop where
  sound : Sound R g w
  invariant : inv g w
  settled : ∀ x y, d.settled.lookup x = some y → Settled R form g w x y
  entered : ∀ x ∈ d.entered, w.live x ∧ Formed form g x

/-- What holds between steps stays when nothing gets lost. -/
theorem Descending.later {d : Descent} (h : Descending inv R form g w d) (hs : Sound R g' w')
    (hinv : inv g' w') (hl : Later g w g' w') : Descending inv R form g' w' d where
  sound := hs
  invariant := hinv
  settled x y hy := (h.settled x y hy).later h.sound hl
  entered x hx := ⟨hl.live x (h.entered x hx).1, (h.entered x hx).2.later (h.entered x hx).1 hl⟩

/-- Where a node settles is found once. -/
theorem settleOnce_ends (hsettles : SettlesUnder inv R weight form replace refused) {bound : Nat} {d : Descent}
    (h : Descending inv R form g w d) {id : NodeId} {n : Node} (hid : w.live id)
    (hn : g.node? id = some n) (hbound : w.rank id + weight n.frame < bound) :
    Ends (settleOnce replace bound d id) g (fun (done, d') g' =>
      ∃ w', Descending inv R form g' w' d' ∧ Extends g w g' w' ∧ Settled R form g' w' id done ∧
        d'.entered = d.entered) refused := by
  unfold settleOnce
  cases hlookup : d.settled.lookup id with
  | some done => exact ⟨w, h, Extends.refl g w, h.settled id done hlookup, rfl⟩
  | none =>
    dsimp only
    rw [ends_bind]
    refine (settle_ends hsettles bound h.sound h.invariant hid hn hbound).mono ?_
    rintro done g' ⟨w', hs', hinv', hext, hsettled⟩
    rw [ends_pure]
    have hlater := h.later hs' hinv' hext.toLater
    refine ⟨w', ⟨hs', hinv', ?_, hlater.entered⟩, hext, hsettled, rfl⟩
    intro x y hy
    rw [List.lookup_cons] at hy
    split at hy
    · rename_i heq
      cases hy
      rw [beq_iff_eq.mp heq]
      exact .self hsettled.standsIn.live hsettled.formed
    · rw [List.lookup_cons] at hy
      split at hy
      · rename_i heq
        cases hy
        rw [beq_iff_eq.mp heq]
        exact hsettled
      · exact hlater.settled x y hy

/-- Exchanging one operand changes nothing else of a node. -/
theorem Node.setChild_append {n : Node} {before after : List NodeId} {child : NodeId}
    (h : n.children = before ++ child :: after) (new : NodeId) :
    (n.setChild before.length new).children = before ++ new :: after ∧
      (n.setChild before.length new).frame = n.frame := by
  have hlt : before.length < n.op.children.length := by
    have hlength := congrArg List.length h
    rw [List.length_append, List.length_cons] at hlength
    unfold Node.children at hlength
    omega
  constructor
  · unfold Node.setChild Node.children
    rw [Operation.children_setChild n.op _ _ hlt]
    have hset : (before ++ child :: after).set before.length new = before ++ new :: after := by
      rw [List.set_append_right _ _ (Nat.le_refl _), Nat.sub_self, List.set_cons_zero]
    rw [← hset, ← h]
    rfl
  · unfold Node.setChild Node.frame
    rw [Operation.mapChildren_setChild n.op _ _ hlt]

/-- One operand may be exchanged for a node that stands in for it. -/
theorem Sound.setChild (h : Sound R g w) {id child new : NodeId} {n : Node}
    {before after : List NodeId} (hid : w.live id) (hn : g.node? id = some n)
    (hchildren : n.children = before ++ child :: after) (hnew : StandsIn R g w child new) :
    Sound R (g.setNode id (n.setChild before.length new)) w ∧
      Later g w (g.setNode id (n.setChild before.length new)) w := by
  obtain ⟨hset, hframe⟩ := Node.setChild_append hchildren new
  have hlive := (h.nodeSound hid hn).live
  have hsame : ∀ xs : List NodeId, (∀ x ∈ xs, x ∈ n.children) →
      List.Forall₂ (StandsIn R g w) xs xs := by
    intro xs hxs
    rw [List.forall₂_same]
    exact fun x hx => World.has R g (hlive x (hxs x hx))
  have hstands : List.Forall₂ (StandsIn R g w) n.children
      (n.setChild before.length new).children := by
    rw [hset, hchildren]
    refine List.rel_append (hsame before ?_) (.cons hnew (hsame after ?_))
    · intro x hx
      rw [hchildren]
      exact List.mem_append_left _ hx
    · intro x hx
      rw [hchildren]
      exact List.mem_append_right _ (List.mem_cons_of_mem _ hx)
  exact ⟨h.redirect hn hframe hstands, Sound.later_redirect w hn hframe fun _ =>
    map_eq_map_of_forall₂ (hstands.imp fun _ _ hc => hc.shape)⟩

/-- The operands of a node settle, and the node is redirected to them. -/
theorem settleChildren_ends (hsettles : SettlesUnder inv R weight form replace refused) (hweight : ∀ n, weight n ≤ 1)
    {bound : Nat} {parent : NodeId} (after : List NodeId) {d : Descent} {n : Node}
    (before : List NodeId) (h : Descending inv R form g w d) (hparent : w.live parent)
    (hn : g.node? parent = some n) (hformed : form n.frame (n.children.map g.shapeAt)) (hneed : ∀ op, 1 ≤ R.need op)
    (hbound : w.rank parent < bound) (hchildren : n.children = before ++ after) :
    Ends (settleChildren replace bound parent d (after.zipIdx before.length)) g
      (fun (done, d') g' => ∃ w' n', Descending inv R form g' w' d' ∧ Later g w g' w' ∧
        (∀ x m, x ≠ parent → g.node? x = some m → g'.node? x = some m) ∧
        d'.entered = d.entered ∧ g'.node? parent = some n' ∧ n'.children = before ++ done ∧
        ∀ c ∈ done, Formed form g' c) refused := by
  induction after generalizing g w d n before with
  | nil =>
    exact ⟨w, n, h, Later.refl g w, fun _ _ _ hm => hm, rfl, hn, hchildren,
      fun _ hc => (nomatch hc)⟩
  | cons child rest ih =>
    have hsound := h.sound.nodeSound hparent hn
    have hmem : child ∈ n.children := by
      rw [hchildren]
      exact List.mem_append_right _ List.mem_cons_self
    obtain ⟨m, hm⟩ := h.sound.node (hsound.live child hmem)
    have hrank : w.rank child + weight m.frame < bound := by
      have hbelow := hsound.below child hmem
      have hpos := hneed n.frame.op
      have hle := hweight m.frame
      omega
    rw [List.zipIdx_cons, settleChildren, ends_bind]
    refine (settleOnce_ends hsettles h (hsound.live child hmem) hm hrank).mono ?_
    rintro ⟨done, d₁⟩ g₁ ⟨w₁, h₁, hext, hsettled, hentered⟩
    have hparent₁ := hext.live parent hparent
    have hn₁ := hext.nodes parent n hn
    have hshapes : n.children.map g₁.shapeAt = n.children.map g.shapeAt :=
      List.map_congr_left fun c hc => hext.shapeAt h.sound (hsound.live c hc)
    have hformed₁ : form n.frame (n.children.map g₁.shapeAt) := by rw [hshapes]; exact hformed
    -- The rest is done on a graph whose node has the settled operand.
    have hgo : ∀ (g₂ : Graph) (n₂ : Node), Sound R g₂ w₁ → inv g₂ w₁ → Later g₁ w₁ g₂ w₁ →
        (∀ x m, x ≠ parent → g₁.node? x = some m → g₂.node? x = some m) →
        g₂.node? parent = some n₂ → form n₂.frame (n₂.children.map g₂.shapeAt) →
        n₂.children = before ++ done :: rest →
        Ends (do
          let (others, d) ← settleChildren replace bound parent d₁ (rest.zipIdx (before.length + 1))
          return (done :: others, d)) g₂ (fun (done, d') g' => ∃ w' n',
            Descending inv R form g' w' d' ∧ Later g w g' w' ∧
            (∀ x m, x ≠ parent → g.node? x = some m → g'.node? x = some m) ∧
            d'.entered = d.entered ∧ g'.node? parent = some n' ∧ n'.children = before ++ done ∧
            ∀ c ∈ done, Formed form g' c) refused := by
      intro g₂ n₂ hs₂ hinv₂ hlater hkept hn₂ hformed₂ hchildren₂
      have hlength : (before ++ [done]).length = before.length + 1 := by
        rw [List.length_append, List.length_singleton]
      have hbound₁ : w₁.rank parent < bound := by
        rw [hext.rank parent hparent]
        exact hbound
      rw [ends_bind, ← hlength]
      refine (ih (before ++ [done]) (h₁.later hs₂ hinv₂ hlater) hparent₁ hn₂ hformed₂ hbound₁
        (by rw [hchildren₂, List.append_assoc, List.singleton_append])).mono ?_
      rintro ⟨others, d'⟩ g' ⟨w', n', h', hlater', hkept', hentered', hn', hchildren', hformed⟩
      refine ⟨w', n', h', (hext.toLater.trans hlater).trans hlater', ?_,
        hentered'.trans hentered, hn', ?_, ?_⟩
      · exact fun x m hx hm => hkept' x m hx (hkept x m hx (hext.nodes x m hm))
      · rw [hchildren', List.append_assoc, List.singleton_append]
      · intro c hc
        rcases List.mem_cons.mp hc with rfl | hc
        · exact hsettled.formed.later hsettled.standsIn.live (hlater.trans hlater')
        · exact hformed c hc
    dsimp only
    by_cases hsame : done = child
    · rw [if_neg (not_not.mpr hsame)]
      exact hgo g₁ n h₁.sound h₁.invariant (Later.refl g₁ w₁) (fun _ _ _ hm => hm) hn₁ hformed₁
        (by rw [hchildren, hsame])
    · obtain ⟨hs₂, hlater⟩ := h₁.sound.setChild hparent₁ hn₁ hchildren hsettled.standsIn
      rw [if_pos hsame, ends_bind, ends_setChild hn₁]
      obtain ⟨hset, hframe⟩ := Node.setChild_append hchildren done
      have hn₂ := Graph.node?_setNode_self (n.setChild before.length done) hn₁
      refine hgo _ (n.setChild before.length done) hs₂
        (hsettles.exchange g₁ w₁ parent n _ h₁.invariant hn₁ hformed₁ hframe) hlater ?_ hn₂ ?_ hset
      · intro x m hx hm
        rw [Graph.node?_setNode_of_ne _ hx]
        exact hm
      · obtain ⟨m, hm, hmframe, hmshapes⟩ := hlater.frame parent n hparent₁ hn₁
        rw [hn₂] at hm
        cases hm
        rw [hmframe, hmshapes]
        exact hformed₁

/-- All operands of a node were entered. -/
def Closed (g : Graph) (d : Descent) (id : NodeId) : Prop :=
  ∀ n, g.node? id = some n → ∀ c ∈ n.children, c ∈ d.entered

/-- How far a sweep went down: nodes that were entered before keep their
operands, and those entered since are closed. -/
structure Deeper (g : Graph) (d : Descent) (g' : Graph) (d' : Descent) : Prop where
  kept : ∀ x ∈ d.entered, ∀ n, g.node? x = some n → g'.node? x = some n
  entered : ∀ x ∈ d.entered, x ∈ d'.entered
  closed : ∀ x ∈ d'.entered, x ∈ d.entered ∨ Closed g' d' x

namespace Deeper

variable {g g' g'' : Graph} {d d' d'' : Descent}

/-- Going nowhere. -/
theorem refl (g : Graph) (d : Descent) : Deeper g d g d :=
  ⟨fun _ _ _ hn => hn, fun _ hx => hx, fun _ hx => .inl hx⟩

/-- A node stays closed. -/
theorem closed_later (h : Deeper g' d' g'' d'') {x : NodeId} {n : Node} (hx : x ∈ d'.entered)
    (hn : g'.node? x = some n) (hclosed : Closed g' d' x) : Closed g'' d'' x := by
  intro m hm c hc
  rw [h.kept x hx n hn] at hm
  cases hm
  exact h.entered c (hclosed n hn c hc)

/-- Going down twice. -/
theorem trans (h : Deeper g d g' d') (h' : Deeper g' d' g'' d'')
    (hnodes : ∀ x ∈ d'.entered, ∃ n, g'.node? x = some n) : Deeper g d g'' d'' where
  kept x hx n hn := h'.kept x (h.entered x hx) n (h.kept x hx n hn)
  entered x hx := h'.entered x (h.entered x hx)
  closed x hx := by
    rcases h'.closed x hx with hold | hnew
    · rcases h.closed x hold with hfirst | hclosed
      · exact .inl hfirst
      · obtain ⟨n, hn⟩ := hnodes x hold
        exact .inr (h'.closed_later hold hn hclosed)
    · exact .inr hnew

end Deeper

/-- What going down from nodes achieves. -/
def Reached (inv : Graph → World → Prop) (R : Rules) (form : Node → List Shape → Prop) (g : Graph) (w : World) (d : Descent)
    (roots : List NodeId) (g' : Graph) (d' : Descent) : Prop :=
  ∃ w', Descending inv R form g' w' d' ∧ Later g w g' w' ∧ Deeper g d g' d' ∧
    ∀ x ∈ roots, x ∈ d'.entered

/-- Nodes that were entered are in the arena. -/
theorem Descending.nodes {d : Descent} (h : Descending inv R form g w d) :
    ∀ x ∈ d.entered, ∃ n, g.node? x = some n :=
  fun x hx => h.sound.node (h.entered x hx).1

/-- Going down from several nodes, one after the other. -/
theorem foldlM_reached {visit : Descent → NodeId → Build Descent} (roots : List NodeId)
    {depth : Nat} (hvisit : ∀ {g : Graph} {w : World} {d : Descent} {x : NodeId},
      Descending inv R form g w d → w.live x → Formed form g x → w.rank x < depth →
      Ends (visit d x) g (fun d' g' => Reached inv R form g w d [x] g' d') refused)
    {d : Descent} (h : Descending inv R form g w d)
    (hroots : ∀ x ∈ roots, w.live x ∧ Formed form g x ∧ w.rank x < depth) :
    Ends (roots.foldlM visit d) g (fun d' g' => Reached inv R form g w d roots g' d') refused := by
  induction roots generalizing g w d with
  | nil => exact ⟨w, h, Later.refl g w, Deeper.refl g d, fun _ hx => (nomatch hx)⟩
  | cons x rest ih =>
    obtain ⟨hlive, hformed, hrank⟩ := hroots x List.mem_cons_self
    rw [List.foldlM_cons, ends_bind]
    refine (hvisit h hlive hformed hrank).mono ?_
    rintro d₁ g₁ ⟨w₁, h₁, hlater, hdeeper, hx⟩
    have hrest : ∀ y ∈ rest, w₁.live y ∧ Formed form g₁ y ∧ w₁.rank y < depth := by
      intro y hy
      obtain ⟨hlive, hformed, hrank⟩ := hroots y (List.mem_cons_of_mem _ hy)
      exact ⟨hlater.live y hlive, hformed.later hlive hlater, by rw [hlater.rank y hlive]; exact hrank⟩
    refine (ih h₁ hrest).mono ?_
    rintro d' g' ⟨w', h', hlater', hdeeper', hroots'⟩
    refine ⟨w', h', hlater.trans hlater', hdeeper.trans hdeeper' h₁.nodes, ?_⟩
    intro y hy
    rcases List.mem_cons.mp hy with rfl | hy
    · exact hdeeper'.entered y (hx y List.mem_cons_self)
    · exact hroots' y hy

/-- Going down from a node that settled, within a depth above its rank. -/
theorem descend_ends (hsettles : SettlesUnder inv R weight form replace refused) (hweight : ∀ n, weight n ≤ 1)
    (hneed : ∀ op, 1 ≤ R.need op) {bound : Nat} :
    ∀ (depth : Nat), depth ≤ bound → ∀ {g : Graph} {w : World} {d : Descent} {parent : NodeId},
      Descending inv R form g w d → w.live parent → Formed form g parent → w.rank parent < depth →
      Ends (descend replace bound depth d parent) g (fun d' g' =>
        Reached inv R form g w d [parent] g' d') refused := by
  intro depth
  induction depth with
  | zero => intro _ g w d parent _ _ _ hrank; omega
  | succ depth ih =>
    intro hdepth g w d parent h hlive hformed hrank
    rw [descend]
    by_cases hin : parent ∈ d.entered
    · rw [if_pos hin]
      exact ⟨w, h, Later.refl g w, Deeper.refl g d, fun x hx => List.mem_singleton.mp hx ▸ hin⟩
    obtain ⟨n, hn⟩ := h.sound.node hlive
    have h₀ : Descending inv R form g w { d with entered := parent :: d.entered } :=
      { sound := h.sound
        invariant := h.invariant
        settled := h.settled
        entered := fun x hx => by
          rcases List.mem_cons.mp hx with rfl | hx
          · exact ⟨hlive, hformed⟩
          · exact h.entered x hx }
    rw [if_neg hin, ends_bind, ends_node hn, ends_bind]
    have hform : form n.frame (n.children.map g.shapeAt) := by
      obtain ⟨m, hm, hform⟩ := hformed
      rw [hn] at hm
      cases hm
      exact hform
    refine (settleChildren_ends hsettles hweight n.children [] h₀ hlive hn hform hneed (by omega)
      rfl).mono ?_
    rintro ⟨done, d₁⟩ g₁ ⟨w₁, n₁, h₁, hlater, hkept, hentered, hn₁, hchildren, hdone⟩
    rw [List.nil_append] at hchildren
    dsimp only at hentered
    have hsound₁ := h₁.sound.nodeSound (hlater.live parent hlive) hn₁
    have hroots : ∀ x ∈ done.reverse,
        w₁.live x ∧ Formed form g₁ x ∧ w₁.rank x < depth := by
      intro x hx
      have hmem : x ∈ done := List.mem_reverse.mp hx
      have hchild : x ∈ n₁.children := hchildren ▸ hmem
      have hbelow := hsound₁.below x hchild
      have hpos := hneed n₁.frame.op
      rw [hlater.rank parent hlive] at hbelow
      exact ⟨hsound₁.live x hchild, hdone x hmem, by omega⟩
    refine (foldlM_reached done.reverse (ih (by omega)) h₁ hroots).mono ?_
    rintro d' g' ⟨w', h', hlater', hdeeper, hall⟩
    have hparent : parent ∈ d₁.entered := by
      rw [hentered]
      exact List.mem_cons_self
    refine ⟨w', h', hlater.trans hlater', ⟨?_, ?_, ?_⟩, ?_⟩
    · intro x hx m hm
      refine hdeeper.kept x ?_ m (hkept x m (fun heq => hin (heq ▸ hx)) hm)
      rw [hentered]
      exact List.mem_cons_of_mem _ hx
    · intro x hx
      refine hdeeper.entered x ?_
      rw [hentered]
      exact List.mem_cons_of_mem _ hx
    · intro x hx
      rcases hdeeper.closed x hx with hold | hnew
      · rw [hentered] at hold
        rcases List.mem_cons.mp hold with rfl | hold
        · refine .inr fun m hm c hc => ?_
          rw [hdeeper.kept x hparent n₁ hn₁] at hm
          cases hm
          rw [hchildren] at hc
          exact hall c (List.mem_reverse.mpr hc)
        · exact .inl hold
      · exact .inr hnew
    · intro x hx
      rw [List.mem_singleton.mp hx]
      exact hdeeper.entered parent hparent

/-- Outputs settle in order, with everything below them. They write streams, so they
stay. -/
theorem sweepOutputs_ends (hsettles : SettlesUnder inv R weight form replace refused) (hweight : ∀ n, weight n ≤ 1)
    (hneed : ∀ op, 1 ≤ R.need op) {bound : Nat} (outputs : List NodeId) {d : Descent}
    (h : Descending inv R form g w d)
    (houtputs : ∀ x ∈ outputs, w.live x ∧ w.rank x + 1 < bound ∧
      ∃ channel, g.channelAt x = some channel) :
    Ends (sweepOutputs replace bound d outputs) g (fun done g' => done = outputs ∧
      ∃ w' d', Descending inv R form g' w' d' ∧ Later g w g' w' ∧ Deeper g d g' d' ∧
        ∀ x ∈ outputs, x ∈ d'.entered) refused := by
  induction outputs generalizing g w d with
  | nil => exact ⟨rfl, w, d, h, Later.refl g w, Deeper.refl g d, fun _ hx => (nomatch hx)⟩
  | cons output rest ih =>
    obtain ⟨hlive, hbound, channel, hchannel⟩ := houtputs output List.mem_cons_self
    obtain ⟨n, hn⟩ := h.sound.node hlive
    have hle := hweight n.frame
    rw [sweepOutputs, ends_bind]
    unfold sweepOutput
    rw [ends_bind]
    refine (settleOnce_ends hsettles h hlive hn (by omega)).mono ?_
    rintro ⟨done, d₁⟩ g₁ ⟨w₁, h₁, hext, hsettled, hentered⟩
    dsimp only
    have hchannel₁ : g₁.channelAt output = some channel := by
      rw [hext.channelAt h.sound hlive]
      exact hchannel
    obtain rfl := hsettled.stays channel hchannel₁
    have hrank : w₁.rank done < bound := by
      rw [hext.rank done hlive]
      omega
    rw [ends_bind, ends_checkOutput ⟨channel, hchannel₁⟩, ends_bind]
    refine (descend_ends hsettles hweight hneed bound (Nat.le_refl _) h₁ hsettled.live
      hsettled.formed hrank).mono ?_
    rintro d₂ g₂ ⟨w₂, h₂, hlater, hdeeper, hdone⟩
    rw [ends_pure, ends_bind]
    have hlater₂ := hext.toLater.trans hlater
    have hrest : ∀ x ∈ rest, w₂.live x ∧ w₂.rank x + 1 < bound ∧
        ∃ channel, g₂.channelAt x = some channel := by
      intro x hx
      obtain ⟨hxlive, hxbound, hxchannel⟩ := houtputs x (List.mem_cons_of_mem _ hx)
      rw [hlater₂.channelAt h.sound hxlive, hlater₂.rank x hxlive]
      exact ⟨hlater₂.live x hxlive, hxbound, hxchannel⟩
    refine (ih h₂ hrest).mono ?_
    rintro others g' ⟨rfl, w', d', h', hlater', hdeeper', hall⟩
    rw [ends_pure]
    have hfirst : Deeper g d g₂ d₂ :=
      { kept := fun x hx m hm => hdeeper.kept x (by rw [hentered]; exact hx) m (hext.nodes x m hm)
        entered := fun x hx => hdeeper.entered x (by rw [hentered]; exact hx)
        closed := fun x hx => by
          rw [← hentered]
          exact hdeeper.closed x hx }
    refine ⟨rfl, w', d', h', hlater₂.trans hlater', hfirst.trans hdeeper' h₂.nodes, ?_⟩
    intro x hx
    rcases List.mem_cons.mp hx with rfl | hx
    · exact hdeeper'.entered x (hdone x List.mem_cons_self)
    · exact hall x hx

/-- A downward sweep brings all nodes into the form, and the outputs, which stay, make
the same deliveries. -/
theorem sweepDownward_ends (hsettles : SettlesUnder inv R weight form replace refused)
    (hweight : ∀ n, weight n ≤ 1) (hneed : ∀ op, 1 ≤ R.need op) {made : List Delivery}
    (hs : Sound R g w) (hinv : inv g w) (hwrites : Writes R g w g.outputs made)
    (hrank : ∀ id, w.live id → w.rank id ≤ 16 * g.nodes.size) :
    Ends (sweepDownward replace) g (fun _ g' => g'.outputs = g.outputs ∧ ∃ w', Sound R g' w' ∧
      (∀ id n, w'.live id → g'.node? id = some n → form n.frame (n.children.map g'.shapeAt)) ∧
      Writes R g' w' g'.outputs made) refused := by
  have hempty : Descending inv R form g w {} :=
    ⟨hs, hinv, fun _ _ hy => (nomatch hy), fun _ hx => (nomatch hx)⟩
  have houtputs : ∀ x ∈ g.outputs, w.live x ∧ w.rank x + 1 < sweepBound g ∧
      ∃ channel, g.channelAt x = some channel := by
    intro x hx
    have hle := hrank x (hwrites.live hx)
    refine ⟨hwrites.live hx, ?_, hwrites.channel hx⟩
    unfold sweepBound
    omega
  unfold sweepDownward
  rw [ends_bind, ends_get, ends_bind]
  refine (sweepOutputs_ends hsettles hweight hneed g.outputs hempty houtputs).mono ?_
  rintro done g' ⟨rfl, w', d', h', hlater, hdeeper, hall⟩
  rw [ends_modify]
  have hclosed : ∀ id n, id ∈ d'.entered → g'.node? id = some n → ∀ c ∈ n.children, c ∈ d'.entered := by
    intro id n hid hn
    rcases hdeeper.closed id hid with hnone | hclosed
    · cases hnone
    · exact hclosed n hn
  have hrestrict := h'.sound.restrict R (· ∈ d'.entered)
    (fun id hid => (h'.entered id hid).1) hclosed id (fun _ _ _ _ hfits => hfits)
    (fun _ _ _ _ => rfl) (fun _ => Nat.le_refl _) rfl
  refine ⟨rfl, { w' with live := (· ∈ d'.entered) }, hrestrict.withOutputs _, ?_, ?_⟩
  · intro id n hid hn
    obtain ⟨m, hm, hform⟩ := (h'.entered id hid).2
    have heq : g'.node? id = some n := hn
    rw [hm] at heq
    cases heq
    exact hform
  · refine hwrites.replace ?_ id rfl
    rw [List.forall₂_same]
    intro id hid
    have hlive := hwrites.live hid
    refine ⟨hall id hid, fun channel hchannel => ?_, fun _ => ?_⟩
    · rw [← hchannel]
      exact hlater.channelAt hs hlive
    · rw [hlater.value id hlive]
      exact R.agreement.refl _

end

end LaneGraph
