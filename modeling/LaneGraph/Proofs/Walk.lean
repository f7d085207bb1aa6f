import LaneGraph.Graph.Walk
import Mathlib.Data.List.Nodup
import Mathlib.Logic.Relation

/-!
# What a walk lists

A walk over nodes whose successors have lower ranks lists every node that it
reaches exactly once, after all of its successors. The rank is never computed:
it only has to exist, and a depth above the largest rank is enough.
-/

namespace LaneGraph

variable {ε : Type} {successors : NodeId → Except ε (List NodeId)}

/-- A line of nodes in which every node stands once, after its successors. -/
inductive Listed (successors : NodeId → Except ε (List NodeId)) : List NodeId → Prop
  | nil : Listed successors []
  | snoc {order next : List NodeId} {id : NodeId} (earlier : Listed successors order)
      (fresh : id ∉ order) (known : successors id = .ok next)
      (below : ∀ c ∈ next, c ∈ order) : Listed successors (order ++ [id])

namespace Listed

/-- No node stands twice. -/
theorem nodup {order : List NodeId} (h : Listed successors order) : order.Nodup := by
  induction h with
  | nil => exact List.nodup_nil
  | snoc _ fresh _ _ ih =>
    rw [List.nodup_append]
    refine ⟨ih, List.nodup_singleton _, ?_⟩
    intro a ha b hb heq
    rw [List.mem_singleton] at hb
    exact fresh (hb ▸ heq ▸ ha)

/-- The line is closed under successors. -/
theorem closed {order : List NodeId} (h : Listed successors order) {id : NodeId}
    (hid : id ∈ order) : ∃ next, successors id = .ok next ∧ ∀ c ∈ next, c ∈ order := by
  induction h with
  | nil => cases hid
  | snoc _ _ known below ih =>
    rcases List.mem_append.mp hid with hold | hnew
    · obtain ⟨next, hnext, hc⟩ := ih hold
      exact ⟨next, hnext, fun c hm => List.mem_append_left _ (hc c hm)⟩
    · rw [List.mem_singleton] at hnew
      rw [hnew]
      exact ⟨_, known, fun c hm => List.mem_append_left _ (below c hm)⟩

/-- Everything that stands before a node includes its successors. -/
theorem before {order earlier later : List NodeId} (h : Listed successors order)
    {id : NodeId} {next : List NodeId} (horder : order = earlier ++ id :: later)
    (hnext : successors id = .ok next) : ∀ c ∈ next, c ∈ earlier := by
  induction h generalizing later with
  | nil => simp at horder
  | snoc _ _ known below ih =>
    rcases List.eq_nil_or_concat later with rfl | ⟨rest, last, rfl⟩
    · obtain ⟨rfl, hlast⟩ := List.append_inj' horder rfl
      rw [List.singleton_inj] at hlast
      rw [hlast, hnext] at known
      cases known
      exact below
    · have hsplit := List.append_inj' (horder.trans (by simp : _ = (earlier ++ id :: rest) ++ [last]))
        rfl
      exact ih hsplit.1

end Listed

/-- The second node is a successor of the first. -/
def LeadsTo (successors : NodeId → Except ε (List NodeId)) (a b : NodeId) : Prop :=
  ∃ next, successors a = .ok next ∧ b ∈ next

/-- The second node is found from the first by any number of steps. -/
abbrev Reaches (successors : NodeId → Except ε (List NodeId)) : NodeId → NodeId → Prop :=
  Relation.ReflTransGen (LeadsTo successors)

/-- A line contains everything that its nodes reach. -/
theorem Listed.mem_of_reaches {order : List NodeId} (h : Listed successors order)
    {a b : NodeId} (ha : a ∈ order) (hab : Reaches successors a b) : b ∈ order := by
  induction hab with
  | refl => exact ha
  | tail _ hstep ih =>
    obtain ⟨next, hnext, hb⟩ := hstep
    obtain ⟨next', hnext', hc⟩ := h.closed ih
    rw [hnext] at hnext'
    cases hnext'
    exact hc _ hb

/-- Successors of the nodes of a closed set are in the set and have lower
ranks. -/
def Graded (successors : NodeId → Except ε (List NodeId)) (live : NodeId → Prop)
    (rank : NodeId → Nat) : Prop :=
  ∀ id next, live id → successors id = .ok next → ∀ c ∈ next, live c ∧ rank c < rank id

namespace Graded

variable {live : NodeId → Prop} {rank : NodeId → Nat}

/-- What a node of the set reaches is in the set and ranks no higher. -/
theorem reaches (h : Graded successors live rank) {a b : NodeId} (ha : live a)
    (hab : Reaches successors a b) : live b ∧ rank b ≤ rank a := by
  induction hab with
  | refl => exact ⟨ha, Nat.le_refl _⟩
  | tail _ hstep ih =>
    obtain ⟨next, hnext, hb⟩ := hstep
    have hc := h _ next ih.1 hnext _ hb
    exact ⟨hc.1, by omega⟩

end Graded

namespace Walk

/-- The nodes that were left so far. -/
def listed (w : Walk) : List NodeId := w.order.toList

/-- What holds between visits: the nodes left so far form a line, all of them
were seen, and every other node that was seen ranks at least `least`. -/
structure Tidy (successors : NodeId → Except ε (List NodeId)) (rank : NodeId → Nat)
    (least : Nat) (w : Walk) : Prop where
  line : Listed successors w.listed
  seen : ∀ x ∈ w.listed, x ∈ w.seen
  open_ : ∀ x ∈ w.seen, x ∈ w.listed ∨ least ≤ rank x

/-- What visiting `roots` adds to a walk: they are listed, nothing gets lost, and
all that is new was reached from them. -/
structure Adds (successors : NodeId → Except ε (List NodeId)) (roots : List NodeId)
    (w w' : Walk) : Prop where
  kept : ∀ x ∈ w.listed, x ∈ w'.listed
  found : ∀ x ∈ roots, x ∈ w'.listed
  reached : ∀ x ∈ w'.listed, x ∈ w.listed ∨ ∃ r ∈ roots, Reaches successors r x
  marked : ∀ x ∈ w.seen, x ∈ w'.seen
  seen : ∀ x ∈ w'.seen, x ∈ w.seen ∨ x ∈ w'.listed

/-- Visits that follow one another add up. -/
theorem Adds.trans {first second : List NodeId} {w w' w'' : Walk}
    (h : Adds successors first w w') (h' : Adds successors second w' w'') :
    Adds successors (first ++ second) w w'' where
  kept x hx := h'.kept x (h.kept x hx)
  found x hx := by
    rcases List.mem_append.mp hx with hf | hs
    · exact h'.kept x (h.found x hf)
    · exact h'.found x hs
  reached x hx := by
    rcases h'.reached x hx with hold | ⟨r, hr, hreach⟩
    · rcases h.reached x hold with hfirst | ⟨r, hr, hreach⟩
      · exact .inl hfirst
      · exact .inr ⟨r, List.mem_append_left _ hr, hreach⟩
    · exact .inr ⟨r, List.mem_append_right _ hr, hreach⟩
  marked x hx := h'.marked x (h.marked x hx)
  seen x hx := by
    rcases h'.seen x hx with hold | hnew
    · rcases h.seen x hold with hfirst | hlisted
      · exact .inl hfirst
      · exact .inr (h'.kept x hlisted)
    · exact .inr hnew

/-- A line of visits keeps a walk tidy if every single visit does. -/
theorem foldlM_adds {rank : NodeId → Nat} {least : Nat}
    {visitOne : Walk → NodeId → Except ε Walk} (roots : List NodeId)
    (hone : ∀ w w' r, r ∈ roots → Tidy successors rank least w → visitOne w r = .ok w' →
      Tidy successors rank least w' ∧ Adds successors [r] w w')
    {w w' : Walk} (hw : Tidy successors rank least w)
    (hrun : roots.foldlM visitOne w = .ok w') :
    Tidy successors rank least w' ∧ Adds successors roots w w' := by
  induction roots generalizing w with
  | nil =>
    cases hrun
    exact ⟨hw, ⟨fun _ h => h, by simp, fun _ h => .inl h, fun _ h => h, fun _ h => .inl h⟩⟩
  | cons r rest ih =>
    rw [List.foldlM_cons] at hrun
    cases hv : visitOne w r with
    | error e => rw [hv] at hrun; cases hrun
    | ok w₁ =>
      rw [hv] at hrun
      obtain ⟨htidy, hadds⟩ := hone w w₁ r List.mem_cons_self hw hv
      obtain ⟨htidy', hadds'⟩ := ih
        (fun w w' x hx => hone w w' x (List.mem_cons_of_mem _ hx)) htidy hrun
      exact ⟨htidy', hadds.trans hadds'⟩

/-- A line of visits fails only if one of them does. -/
theorem foldlM_total {visitOne : Walk → NodeId → Except ε Walk} (roots : List NodeId)
    (hone : ∀ w r, r ∈ roots → ∃ w', visitOne w r = .ok w') (w : Walk) :
    ∃ w', roots.foldlM visitOne w = .ok w' := by
  induction roots generalizing w with
  | nil => exact ⟨w, rfl⟩
  | cons r rest ih =>
    obtain ⟨w₁, hv⟩ := hone w r List.mem_cons_self
    obtain ⟨w', hfold⟩ := ih (fun v x hx => hone v x (List.mem_cons_of_mem _ hx)) w₁
    refine ⟨w', ?_⟩
    rw [List.foldlM_cons, hv]
    exact hfold

/-- Nothing is added for a root that is listed. -/
theorem Adds.refl {w : Walk} {id : NodeId} (hlisted : id ∈ w.listed) :
    Adds successors [id] w w where
  kept _ h := h
  found x hx := by
    rw [List.mem_singleton] at hx
    exact hx ▸ hlisted
  reached _ h := .inl h
  marked _ h := h
  seen _ h := .inl h

section

variable {rank : NodeId → Nat} {least : Nat} {w v : Walk} {id : NodeId} {next : List NodeId}

/-- Leaving a node lists it last. -/
theorem listed_leave (v : Walk) (id : NodeId) :
    ({ v with order := v.order.push id } : Walk).listed = v.listed ++ [id] := Array.toList_push

/-- A walk that enters a node is tidy, with the node open. -/
theorem Tidy.enter (hw : Tidy successors rank least w) (hleast : rank id < least) :
    Tidy successors rank (rank id) { w with seen := id :: w.seen } where
  line := hw.line
  seen x hx := List.mem_cons_of_mem _ (hw.seen x hx)
  open_ x hx := by
    rcases List.mem_cons.mp hx with rfl | hx
    · exact .inr (Nat.le_refl _)
    · rcases hw.open_ x hx with h | h
      · exact .inl h
      · exact .inr (by omega)

/-- A walk that leaves a node after its successors is tidy, and the node is open no more. -/
theorem Tidy.leave (hw : Tidy successors rank least w) (hv : Tidy successors rank (rank id) v)
    (hadds : Adds successors next { w with seen := id :: w.seen } v)
    (hnext : successors id = .ok next) (hfresh : id ∉ v.listed) :
    Tidy successors rank least { v with order := v.order.push id } where
  line := by
    rw [listed_leave]
    exact .snoc hv.line hfresh hnext hadds.found
  seen x hx := by
    rw [listed_leave] at hx
    rcases List.mem_append.mp hx with h | h
    · exact hv.seen x h
    · rw [List.mem_singleton.mp h]
      exact hadds.marked id List.mem_cons_self
  open_ x hx := by
    rw [listed_leave, List.mem_append, List.mem_singleton]
    rcases hadds.seen x hx with h | h
    · rcases List.mem_cons.mp h with rfl | h
      · exact .inl (.inr rfl)
      · exact (hw.open_ x h).imp_left fun h => .inl (hadds.kept x h)
    · exact .inl (.inl h)

/-- A walk that enters a node, visits its successors and leaves it adds the node. -/
theorem Adds.around (hadds : Adds successors next { w with seen := id :: w.seen } v)
    (hnext : successors id = .ok next) :
    Adds successors [id] w { v with order := v.order.push id } where
  kept x hx := by
    rw [listed_leave]
    exact List.mem_append_left _ (hadds.kept x hx)
  found x hx := by
    rw [listed_leave]
    exact List.mem_append_right _ hx
  reached x hx := by
    rw [listed_leave] at hx
    rcases List.mem_append.mp hx with h | h
    · rcases hadds.reached x h with h | ⟨c, hc, hreach⟩
      · exact .inl h
      · exact .inr ⟨id, List.mem_singleton_self id, .head ⟨next, hnext, hc⟩ hreach⟩
    · rw [List.mem_singleton.mp h]
      exact .inr ⟨id, List.mem_singleton_self id, .refl⟩
  marked x hx := hadds.marked x (List.mem_cons_of_mem _ hx)
  seen x hx := by
    rw [listed_leave, List.mem_append, List.mem_singleton]
    rcases hadds.seen x hx with h | h
    · rcases List.mem_cons.mp h with rfl | h
      · exact .inr (.inr rfl)
      · exact .inl h
    · exact .inr (.inl h)

end

/-- A visit with more depth than the node has rank lists the node after
everything it reaches. -/
theorem visit_adds {live : NodeId → Prop} {rank : NodeId → Nat}
    (hgraded : Graded successors live rank) :
    ∀ (depth least : Nat) (w w' : Walk) (id : NodeId), live id → rank id < depth →
      rank id < least → Tidy successors rank least w → visit successors depth w id = .ok w' →
      Tidy successors rank least w' ∧ Adds successors [id] w w' := by
  intro depth
  induction depth with
  | zero => intro least w w' id _ hdepth; omega
  | succ depth ih =>
    intro least w w' id hlive hdepth hleast hw hrun
    rw [visit] at hrun
    split at hrun
    · -- A node that was seen before ranks below all open ones, so it is listed.
      rename_i hseen
      cases hrun
      refine ⟨hw, .refl ?_⟩
      rcases hw.open_ id hseen with h | h
      · exact h
      · omega
    · rename_i hunseen
      cases hnext : successors id with
      | error e => rw [hnext] at hrun; cases hrun
      | ok next =>
        rw [hnext] at hrun
        simp only at hrun
        cases hfold : next.foldlM (visit successors depth) { w with seen := id :: w.seen } with
        | error e => rw [hfold] at hrun; cases hrun
        | ok v =>
          rw [hfold] at hrun
          cases hrun
          obtain ⟨htidy, hadds⟩ := foldlM_adds next (fun u u' c hc hu hvisit =>
            have hchild := hgraded id next hlive hnext c hc
            ih (rank id) u u' c hchild.1 (by omega) hchild.2 hu hvisit) (hw.enter hleast) hfold
          -- The node is not listed through its successors, which rank below it.
          have hfresh : id ∉ v.listed := by
            intro hmem
            rcases hadds.reached id hmem with hold | ⟨c, hc, hreach⟩
            · exact hunseen (hw.seen id hold)
            · have hchild := hgraded id next hlive hnext c hc
              have hback := (hgraded.reaches hchild.1 hreach).2
              omega
          exact ⟨hw.leave htidy hadds hnext hfresh, hadds.around hnext⟩

/-- A visit fails only where successors fail. -/
theorem visit_total {live : NodeId → Prop}
    (hnext : ∀ id, live id → ∃ next, successors id = .ok next ∧ ∀ c ∈ next, live c) :
    ∀ (depth : Nat) (w : Walk) (id : NodeId), live id →
      ∃ w', visit successors depth w id = .ok w' := by
  intro depth
  induction depth with
  | zero => exact fun w id _ => ⟨w, rfl⟩
  | succ depth ih =>
    intro w id hlive
    rw [visit]
    split
    · exact ⟨w, rfl⟩
    · obtain ⟨next, hok, hlives⟩ := hnext id hlive
      obtain ⟨w', hfold⟩ := foldlM_total next (fun v c hc => ih v c (hlives c hc))
        { w with seen := id :: w.seen }
      rw [hok]
      simp only [hfold]
      exact ⟨_, rfl⟩

/-- A line of visits fails with the failure of a successor if each visit does. -/
theorem error_of_foldlM {visitOne : Walk → NodeId → Except ε Walk} {e : ε}
    (hone : ∀ w r, visitOne w r = .error e → ∃ id, successors id = .error e)
    {roots : List NodeId} {w : Walk} (h : roots.foldlM visitOne w = .error e) :
    ∃ id, successors id = .error e := by
  induction roots generalizing w with
  | nil => cases h
  | cons r rest ih =>
    rw [List.foldlM_cons] at h
    cases hv : visitOne w r with
    | error e' =>
      rw [hv] at h
      cases h
      exact hone w r hv
    | ok w₁ =>
      rw [hv] at h
      exact ih h

/-- A visit fails with the failure of a successor. -/
theorem error_of_visit {e : ε} : ∀ (depth : Nat) (w : Walk) (id : NodeId),
    visit successors depth w id = .error e → ∃ x, successors x = .error e := by
  intro depth
  induction depth with
  | zero => exact fun _ _ h => (nomatch h)
  | succ depth ih =>
    intro w id h
    rw [visit] at h
    split at h
    · cases h
    · cases hnext : successors id with
      | error e' =>
        rw [hnext] at h
        cases h
        exact ⟨id, hnext⟩
      | ok next =>
        rw [hnext] at h
        dsimp only at h
        cases hfold : next.foldlM (visit successors depth) { w with seen := id :: w.seen } with
        | error e' =>
          rw [hfold] at h
          cases h
          exact error_of_foldlM ih hfold
        | ok w₁ =>
          rw [hfold] at h
          cases h

end Walk

namespace Graph

/-- The nodes that the outputs reach. -/
def FromOutputs (g : Graph) (successors : NodeId → Except ε (List NodeId)) (id : NodeId) : Prop :=
  ∃ output ∈ g.outputs, Reaches successors output id

/-- A walk from the outputs lists what they reach and nothing else, each node
after its successors. -/
theorem walk_listed {g : Graph} {live : NodeId → Prop} {rank : NodeId → Nat}
    (hgraded : Graded successors live rank) (hrank : ∀ id, live id → rank id ≤ g.nodes.size)
    (houtputs : ∀ output ∈ g.outputs, live output) {order : Array NodeId}
    (hwalk : g.walk successors = .ok order) :
    Listed successors order.toList ∧
      ∀ id, id ∈ order.toList ↔ g.FromOutputs successors id := by
  rw [walk] at hwalk
  cases hfold : g.outputs.foldlM (Walk.visit successors g.walkDepth) {} with
  | error e => rw [hfold] at hwalk; cases hwalk
  | ok w =>
    rw [hfold] at hwalk
    cases hwalk
    -- Nothing is open at the start, so any bound above all ranks will do.
    have hstart : Walk.Tidy successors rank g.walkDepth {} :=
      ⟨.nil, fun _ hx => (nomatch hx), fun _ hx => (nomatch hx)⟩
    obtain ⟨htidy, hadds⟩ := Walk.foldlM_adds g.outputs (fun v v' output ho hv hvisit =>
      have hlive := houtputs output ho
      have hlow : rank output < g.walkDepth := by
        have := hrank output hlive
        rw [walkDepth]
        omega
      Walk.visit_adds hgraded g.walkDepth g.walkDepth v v' output hlive hlow hlow hv hvisit)
      hstart hfold
    refine ⟨htidy.line, fun id => ⟨?_, ?_⟩⟩
    · intro hid
      rcases hadds.reached id hid with h | h
      · cases h
      · exact h
    · rintro ⟨output, ho, hreach⟩
      exact htidy.line.mem_of_reaches (hadds.found output ho) hreach

/-- A walk fails only where successors fail. -/
theorem error_of_walk {g : Graph} {e : ε} (h : g.walk successors = .error e) :
    ∃ id, successors id = .error e := by
  rw [walk] at h
  cases hfold : g.outputs.foldlM (Walk.visit successors g.walkDepth) {} with
  | error e' =>
    rw [hfold] at h
    cases h
    exact Walk.error_of_foldlM (fun w r => Walk.error_of_visit g.walkDepth w r) hfold
  | ok w =>
    rw [hfold] at h
    cases h

/-- A walk over nodes with successors succeeds. -/
theorem walk_total {g : Graph} {live : NodeId → Prop}
    (hnext : ∀ id, live id → ∃ next, successors id = .ok next ∧ ∀ c ∈ next, live c)
    (houtputs : ∀ output ∈ g.outputs, live output) :
    ∃ order, g.walk successors = .ok order := by
  obtain ⟨w, hfold⟩ := Walk.foldlM_total g.outputs
    (fun v output ho => Walk.visit_total hnext g.walkDepth v output (houtputs output ho)) {}
  exact ⟨w.order, by rw [walk, hfold]⟩

/-- The operands of a node of the arena are known. -/
theorem children_of_node? {g : Graph} {id : NodeId} {n : Node} (hn : g.node? id = some n) :
    (g.node id).map Node.children = .ok n.children := by
  unfold node
  rw [hn]
  rfl

/-- A node whose operands are known is in the arena. -/
theorem node?_of_children {g : Graph} {id : NodeId} {next : List NodeId}
    (h : (g.node id).map Node.children = .ok next) :
    ∃ n, g.node? id = some n ∧ n.children = next := by
  unfold node at h
  cases hn : g.node? id with
  | none =>
    rw [hn] at h
    cases h
  | some n =>
    rw [hn] at h
    cases h
    exact ⟨n, rfl, rfl⟩

end Graph

end LaneGraph
