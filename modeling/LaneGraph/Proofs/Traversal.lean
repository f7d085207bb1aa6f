import LaneGraph.Proofs.Lifetimes
import LaneGraph.Proofs.Upward

/-!
# Walking with a stack

A walk may keep what is left to do on a stack: nodes that are still to be entered, and
nodes that are to be listed when all that lies above them is done. A node can wait there
more than once, for it is left out only if it was entered before. Where it comes up first
it is entered, and after that it is passed over; a node that was entered but is not yet
listed is one of those whose successors are being visited.

That last fact is what recursion expresses: visiting a node turns a stack with the node on
top into the rest of the stack. So a stack is worked off in finitely many turns and leaves
the line of the recursive walk, whatever the graph. In a graph without cycles this is a
line of all that the outputs depend on, each node once and after its operands. Instructions
are put in order the same way, but with a stack for each output.
-/

namespace LaneGraph

/-- What is left to do with a node. -/
inductive Pending where
  /-- Enter it, unless it was entered before. -/
  | enter (id : NodeId)
  /-- List it. -/
  | leave (id : NodeId)
deriving DecidableEq, Repr

/-- A walk with what is left to do, the next thing first. -/
structure StackWalk where
  /-- What was seen and finished so far. -/
  walk : Walk := {}
  /-- What is left to do. -/
  stack : List Pending
deriving Repr

namespace StackWalk

variable {ε : Type} {successors : NodeId → Except ε (List NodeId)}

/-- All roots are to be entered, the first one first. -/
def ofRoots (roots : List NodeId) : StackWalk where
  stack := roots.map .enter

/-- Take the next thing from the stack and do it. Entering a node puts those of its
successors that were not entered yet on the stack, and below them that it is to be
listed. -/
def turn (successors : NodeId → Except ε (List NodeId)) (s : StackWalk) : Except ε StackWalk :=
  match s.stack with
  | [] => .ok s
  | .leave id :: rest => .ok ⟨{ s.walk with order := s.walk.order.push id }, rest⟩
  | .enter id :: rest =>
    if id ∈ s.walk.seen then .ok ⟨s.walk, rest⟩
    else
      match successors id with
      | .error e => .error e
      | .ok next =>
        let seen := id :: s.walk.seen
        .ok ⟨{ s.walk with seen }, (next.filter (· ∉ seen)).map .enter ++ .leave id :: rest⟩

/-- A number of turns. -/
def after (successors : NodeId → Except ε (List NodeId)) : Nat → StackWalk → Except ε StackWalk
  | 0, s => .ok s
  | turns + 1, s =>
    match s.turn successors with
    | .error e => .error e
    | .ok s => after successors turns s

/-- Some number of turns leads from one state to another. -/
def Leads (successors : NodeId → Except ε (List NodeId)) (s s' : StackWalk) : Prop :=
  ∃ turns, after successors turns s = .ok s'

namespace Leads

variable {s s' s'' : StackWalk}

/-- No turn is made. -/
theorem refl (s : StackWalk) : Leads successors s s := ⟨0, rfl⟩

/-- One turn is made before others. -/
theorem head (hturn : s.turn successors = .ok s') (h : Leads successors s' s'') :
    Leads successors s s'' := by
  obtain ⟨turns, hturns⟩ := h
  refine ⟨turns + 1, ?_⟩
  rw [after, hturn]
  exact hturns

/-- Turns follow one another. -/
theorem trans (h : Leads successors s s') (h' : Leads successors s' s'') :
    Leads successors s s'' := by
  obtain ⟨turns, hturns⟩ := h
  induction turns generalizing s with
  | zero =>
    cases hturns
    exact h'
  | succ turns ih =>
    rw [after] at hturns
    cases hturn : s.turn successors with
    | error e => rw [hturn] at hturns; cases hturns
    | ok t =>
      rw [hturn] at hturns
      exact .head hturn (ih hturns)

end Leads

/-- A node that was entered before is passed over. -/
theorem leads_of_seen {w : Walk} {id : NodeId} (h : id ∈ w.seen) (rest : List Pending) :
    Leads successors ⟨w, .enter id :: rest⟩ ⟨w, rest⟩ :=
  .head (if_pos h) (.refl _)

/-- A node whose successors are done is listed. -/
theorem leads_leave (w : Walk) (id : NodeId) (rest : List Pending) :
    Leads successors ⟨w, .leave id :: rest⟩ ⟨{ w with order := w.order.push id }, rest⟩ :=
  .head rfl (.refl _)

end StackWalk

/-! ## The nodes that are not seen yet -/

namespace Walk

variable {ε : Type} {successors : NodeId → Except ε (List NodeId)} {w w' : Walk}

/-- A line of visits forgets no node that was seen if no visit does. -/
theorem seen_of_foldlM {visitOne : Walk → NodeId → Except ε Walk}
    (hone : ∀ w w' id, visitOne w id = .ok w' → w.seen ⊆ w'.seen) {ids : List NodeId}
    (h : ids.foldlM visitOne w = .ok w') : w.seen ⊆ w'.seen := by
  induction ids generalizing w with
  | nil =>
    cases h
    exact List.Subset.refl _
  | cons id rest ih =>
    rw [List.foldlM_cons] at h
    obtain ⟨v, hv, hrest⟩ := bind_eq_ok.mp h
    exact List.Subset.trans (hone w v id hv) (ih hrest)

/-- A visit forgets no node that was seen. -/
theorem seen_of_visit (depth : Nat) :
    ∀ (w w' : Walk) (id : NodeId), visit successors depth w id = .ok w' → w.seen ⊆ w'.seen := by
  induction depth with
  | zero =>
    intro w w' id h
    cases h
    exact List.Subset.refl _
  | succ depth ih =>
    intro w w' id h
    rw [visit] at h
    split at h
    · cases h
      exact List.Subset.refl _
    · cases hnext : successors id with
      | error e => rw [hnext] at h; cases h
      | ok next =>
        rw [hnext] at h
        dsimp only at h
        cases hfold : next.foldlM (visit successors depth) { w with seen := id :: w.seen } with
        | error e => rw [hfold] at h; cases h
        | ok v =>
          rw [hfold] at h
          cases h
          have hseen := seen_of_foldlM ih hfold
          exact fun x hx => hseen (List.mem_cons_of_mem id hx)

/-- A node that was seen is visited without effect. -/
theorem visit_of_seen {depth : Nat} {id : NodeId} (h : id ∈ w.seen) :
    visit successors depth w id = .ok w := by
  cases depth with
  | zero => rfl
  | succ depth => exact if_pos h

/-- Visits of nodes that were seen from the start may be left out. -/
theorem foldlM_visit_filter {depth : Nat} {seen : List NodeId} {ids : List NodeId}
    (hseen : seen ⊆ w.seen) (h : ids.foldlM (visit successors depth) w = .ok w') :
    (ids.filter (· ∉ seen)).foldlM (visit successors depth) w = .ok w' := by
  induction ids generalizing w with
  | nil => exact h
  | cons id rest ih =>
    rw [List.foldlM_cons] at h
    obtain ⟨v, hv, hrest⟩ := bind_eq_ok.mp h
    by_cases hid : id ∈ seen
    · rw [visit_of_seen (hseen hid)] at hv
      cases hv
      rw [List.filter_cons_of_neg (by simpa using hid)]
      exact ih hseen hrest
    · rw [List.filter_cons_of_pos (by simpa using hid), List.foldlM_cons]
      have hkept := List.Subset.trans hseen (seen_of_visit depth w v id hv)
      exact bind_eq_ok.mpr ⟨v, hv, ih hkept hrest⟩

/-- The nodes of an arena that were not seen yet. -/
def unseen (size : Nat) (w : Walk) : Finset NodeId := Finset.range size \ w.seen.toFinset

variable {size : Nat}

/-- The more was seen, the fewer nodes are left. -/
theorem card_unseen_le (h : w.seen ⊆ w'.seen) : (w'.unseen size).card ≤ (w.unseen size).card := by
  refine Finset.card_le_card fun id hid => ?_
  unfold unseen at hid ⊢
  rw [Finset.mem_sdiff, List.mem_toFinset] at hid ⊢
  exact ⟨hid.1, fun hseen => hid.2 (h hseen)⟩

/-- Entering a node of the arena leaves fewer nodes. -/
theorem card_unseen_lt {id : NodeId} (hid : id < size) (hfresh : id ∉ w.seen) :
    (unseen size { w with seen := id :: w.seen }).card < (w.unseen size).card := by
  have hmem : id ∈ w.unseen size :=
    Finset.mem_sdiff.mpr ⟨Finset.mem_range.mpr hid, by rwa [List.mem_toFinset]⟩
  have herase : unseen size { w with seen := id :: w.seen } = (w.unseen size).erase id := by
    unfold unseen
    rw [List.toFinset_cons, Finset.sdiff_insert]
  rw [herase]
  exact Finset.card_erase_lt_of_mem hmem

end Walk

/-! ## A visit works off the top of a stack -/

namespace StackWalk

open Walk

variable {ε : Type} {successors : NodeId → Except ε (List NodeId)} {size depth : Nat}

/-- Where visits work off the node on top of a stack, a line of visits works off a line of
nodes. -/
theorem leads_of_foldlM
    (hone : ∀ (w w' : Walk) (id : NodeId) (rest : List Pending), (w.unseen size).card < depth →
      visit successors depth w id = .ok w' → Leads successors ⟨w, .enter id :: rest⟩ ⟨w', rest⟩)
    {ids : List NodeId} {w w' : Walk} (rest : List Pending) (hdepth : (w.unseen size).card < depth)
    (h : ids.foldlM (visit successors depth) w = .ok w') :
    Leads successors ⟨w, ids.map .enter ++ rest⟩ ⟨w', rest⟩ := by
  induction ids generalizing w with
  | nil =>
    cases h
    exact .refl _
  | cons id later ih =>
    rw [List.foldlM_cons] at h
    obtain ⟨v, hv, hlater⟩ := bind_eq_ok.mp h
    have hfewer : (v.unseen size).card ≤ (w.unseen size).card :=
      card_unseen_le (seen_of_visit depth w v id hv)
    exact (hone w v id _ hdepth hv).trans (ih (Nat.lt_of_le_of_lt hfewer hdepth) hlater)

/-- A visit with more depth than there are nodes left works off the node on top of a
stack, if all nodes with successors are in the arena. -/
theorem leads_of_visit (hsize : ∀ id next, successors id = .ok next → id < size) (depth : Nat) :
    ∀ (w w' : Walk) (id : NodeId) (rest : List Pending), (w.unseen size).card < depth →
      visit successors depth w id = .ok w' →
      Leads successors ⟨w, .enter id :: rest⟩ ⟨w', rest⟩ := by
  induction depth with
  | zero => exact fun _ _ _ _ hdepth => absurd hdepth (Nat.not_lt_zero _)
  | succ depth ih =>
    intro w w' id rest hdepth h
    rw [visit] at h
    split at h
    · rename_i hseen
      cases h
      exact leads_of_seen hseen rest
    · rename_i hfresh
      cases hnext : successors id with
      | error e => rw [hnext] at h; cases h
      | ok next =>
        rw [hnext] at h
        dsimp only at h
        cases hfold : next.foldlM (visit successors depth) { w with seen := id :: w.seen } with
        | error e => rw [hfold] at h; cases h
        | ok v =>
          rw [hfold] at h
          cases h
          have henter : turn successors ⟨w, .enter id :: rest⟩ =
              .ok ⟨{ w with seen := id :: w.seen },
                (next.filter (· ∉ id :: w.seen)).map .enter ++ .leave id :: rest⟩ := by
            rw [turn]
            dsimp only
            rw [if_neg hfresh, hnext]
          have hfewer := card_unseen_lt (hsize id next hnext) hfresh
          -- Successors that wait on the stack are visited in order, the others were seen.
          have hnodes := leads_of_foldlM ih (.leave id :: rest) (by omega)
            (foldlM_visit_filter (List.Subset.refl _) hfold)
          exact .head henter (hnodes.trans (leads_leave v id rest))

/-- Roots are worked off one after the other, each on a stack of its own. -/
inductive Drains (successors : NodeId → Except ε (List NodeId)) : List NodeId → Walk → Walk → Prop
  | nil (w : Walk) : Drains successors [] w w
  | cons {id : NodeId} {roots : List NodeId} {w v w' : Walk}
      (hroot : Leads successors ⟨w, [.enter id]⟩ ⟨v, []⟩) (hroots : Drains successors roots v w') :
    Drains successors (id :: roots) w w'

/-- Where visits work off the node on top of a stack, a line of visits works off a line of
roots. -/
theorem drains_of_foldlM
    (hone : ∀ (w w' : Walk) (id : NodeId) (rest : List Pending), (w.unseen size).card < depth →
      visit successors depth w id = .ok w' → Leads successors ⟨w, .enter id :: rest⟩ ⟨w', rest⟩)
    {roots : List NodeId} {w w' : Walk} (hdepth : (w.unseen size).card < depth)
    (h : roots.foldlM (visit successors depth) w = .ok w') : Drains successors roots w w' := by
  induction roots generalizing w with
  | nil =>
    cases h
    exact .nil _
  | cons id roots ih =>
    rw [List.foldlM_cons] at h
    obtain ⟨v, hv, hroots⟩ := bind_eq_ok.mp h
    have hfewer : (v.unseen size).card ≤ (w.unseen size).card :=
      card_unseen_le (seen_of_visit depth w v id hv)
    exact .cons (hone w v id [] hdepth hv) (ih (Nat.lt_of_le_of_lt hfewer hdepth) hroots)

/-- A stack that is worked off stays so. -/
theorem after_nil (w : Walk) (turns : Nat) : after successors turns ⟨w, []⟩ = .ok ⟨w, []⟩ := by
  induction turns with
  | zero => rfl
  | succ turns ih => exact ih

/-- Stacks that are worked off leave the same, however many turns are counted. -/
theorem Leads.unique {s : StackWalk} {v v' : Walk} (h : Leads successors s ⟨v, []⟩)
    (h' : Leads successors s ⟨v', []⟩) : v = v' := by
  obtain ⟨turns, hturns⟩ := h
  obtain ⟨turns', hturns'⟩ := h'
  induction turns generalizing s turns' with
  | zero =>
    cases hturns
    rw [after_nil] at hturns'
    cases hturns'
    rfl
  | succ turns ih =>
    cases turns' with
    | zero =>
      cases hturns'
      rw [after_nil] at hturns
      cases hturns
      rfl
    | succ turns' =>
      rw [after] at hturns hturns'
      cases hturn : s.turn successors with
      | error e => rw [hturn] at hturns; cases hturns
      | ok t =>
        rw [hturn] at hturns hturns'
        exact ih hturns turns' hturns'

/-- Working off roots leaves one walk only. -/
theorem Drains.unique {roots : List NodeId} {w v v' : Walk} (h : Drains successors roots w v)
    (h' : Drains successors roots w v') : v = v' := by
  induction h with
  | nil =>
    cases h'
    rfl
  | cons hroot _ ih =>
    cases h' with
    | cons hroot' hroots' =>
      obtain rfl := hroot.unique hroot'
      exact ih hroots'

end StackWalk

namespace Graph

variable {g : Graph}

/-- The depth of a walk is more than there are nodes. -/
theorem card_unseen_lt_walkDepth (g : Graph) :
    (Walk.unseen g.nodes.size {}).card < g.walkDepth := by
  have hall := Finset.card_le_card (Finset.sdiff_subset (s := Finset.range g.nodes.size)
    (t := ([] : List NodeId).toFinset))
  rw [Finset.card_range] at hall
  exact Nat.lt_succ_of_le hall

/-- A stack of the outputs is worked off and leaves the line of the walk. -/
theorem leads_of_walk {ε : Type} {successors : NodeId → Except ε (List NodeId)}
    (hsize : ∀ id next, successors id = .ok next → id < g.nodes.size) {order : Array NodeId}
    (h : g.walk successors = .ok order) :
    ∃ seen, StackWalk.Leads successors (.ofRoots g.outputs) ⟨⟨seen, order⟩, []⟩ := by
  rw [walk] at h
  cases hfold : g.outputs.foldlM (Walk.visit successors g.walkDepth) {} with
  | error e => rw [hfold] at h; cases h
  | ok w =>
    rw [hfold] at h
    cases h
    have hleads := StackWalk.leads_of_foldlM (StackWalk.leads_of_visit hsize g.walkDepth) []
      g.card_unseen_lt_walkDepth hfold
    rw [List.append_nil] at hleads
    exact ⟨w.seen, hleads⟩

/-- The outputs are worked off one after the other and leave the line of the walk. -/
theorem drains_of_walk {ε : Type} {successors : NodeId → Except ε (List NodeId)}
    (hsize : ∀ id next, successors id = .ok next → id < g.nodes.size) {order : Array NodeId}
    (h : g.walk successors = .ok order) :
    ∃ seen, StackWalk.Drains successors g.outputs {} ⟨seen, order⟩ := by
  rw [walk] at h
  cases hfold : g.outputs.foldlM (Walk.visit successors g.walkDepth) {} with
  | error e => rw [hfold] at h; cases h
  | ok w =>
    rw [hfold] at h
    cases h
    exact ⟨w.seen, StackWalk.drains_of_foldlM (StackWalk.leads_of_visit hsize g.walkDepth)
      g.card_unseen_lt_walkDepth hfold⟩

/-- Successors by operands are what nodes use. -/
theorem leadsTo_children {a b : NodeId} :
    LeadsTo (fun id => (g.node id).map Node.children) a b ↔ g.Uses a b := by
  constructor
  · rintro ⟨next, hnext, hb⟩
    obtain ⟨n, hn, rfl⟩ := node?_of_children hnext
    exact ⟨n, hn, hb⟩
  · rintro ⟨n, hn, hb⟩
    exact ⟨n.children, children_of_node? hn, hb⟩

/-- A line of nodes holds what the outputs depend on, operands first. -/
structure InPostOrder (g : Graph) (order : List NodeId) : Prop where
  /-- No node stands twice. -/
  once : order.Nodup
  /-- The nodes are those that the outputs depend on. -/
  needed : ∀ id, id ∈ order ↔ g.Needs id
  /-- A node stands after all of its operands. -/
  operandsFirst : ∀ (earlier later : List NodeId) (id child : NodeId),
    order = earlier ++ id :: later → g.Uses id child → child ∈ earlier

/-- A line that contains what the outputs reach, with operands first, is in post-order. -/
theorem inPostOrder_of_listed {order : List NodeId}
    (hlisted : Listed (fun id => (g.node id).map Node.children) order)
    (hmem : ∀ id, id ∈ order ↔ g.FromOutputs (fun id => (g.node id).map Node.children) id) :
    g.InPostOrder order where
  once := hlisted.nodup
  needed id := by
    have hleads : LeadsTo (fun id => (g.node id).map Node.children) = g.Uses := by
      ext a b
      exact leadsTo_children
    rw [hmem, FromOutputs, Reaches, hleads]
    rfl
  operandsFirst earlier later id child horder huses := by
    obtain ⟨next, hnext, hchild⟩ := leadsTo_children.mpr huses
    exact hlisted.before horder hnext child hchild

end Graph

/-- In every graph without cycles whose references lead to its nodes, the nodes that the
outputs depend on are found and put in order, each of them once and after its operands,
however nodes are shared and outputs repeated, and they are counted. A stack of the outputs
is worked off in finitely many turns and leaves the same line. -/
theorem postOrder_exact (g : Graph) (hacyclic : g.Acyclic) (hclosed : g.Closed)
    (houtputs : ∀ id ∈ g.outputs, id < g.nodes.size) :
    ∃ order, g.postOrder = .ok order ∧ g.InPostOrder order.toList ∧
      g.reachableCount = .ok order.size ∧
      ∃ turns seen, StackWalk.after (fun id => (g.node id).map Node.children) turns
        (.ofRoots g.outputs) = .ok ⟨⟨seen, order⟩, []⟩ := by
  have hnext : ∀ id, id < g.nodes.size → ∃ next, (g.node id).map Node.children = .ok next ∧
      ∀ c ∈ next, c < g.nodes.size := by
    intro id hid
    have hn := Array.getElem?_eq_getElem hid
    exact ⟨_, Graph.children_of_node? hn, hclosed id _ hn⟩
  obtain ⟨order, horder⟩ : ∃ order, g.postOrder = .ok order := Graph.walk_total hnext houtputs
  obtain ⟨hlisted, hmem⟩ := Graph.walk_listed (hacyclic.graded hclosed)
    (fun id _ => hacyclic.needRank_le id) houtputs horder
  have hsize : ∀ id next, (g.node id).map Node.children = .ok next → id < g.nodes.size := by
    intro id next hok
    obtain ⟨n, hn, -⟩ := Graph.node?_of_children hok
    exact (Array.getElem?_eq_some_iff.mp hn).1
  obtain ⟨seen, turns, hturns⟩ := Graph.leads_of_walk hsize horder
  refine ⟨order, horder, Graph.inPostOrder_of_listed hlisted hmem, ?_, turns, seen, hturns⟩
  rw [Graph.reachableCount, horder]
  rfl

namespace Repeated

/-- The square of a stream, and the sum of both. The stream is used three times, and the
sum is asked for twice. -/
def graph : Graph where
  nodes := #[
    { op := .input ⟨"a", .of .int 1⟩, shape := .int },
    { op := .binary .multiply 0 0, shape := .int },
    { op := .output ⟨"square", .of .int 1⟩ 1, shape := .int },
    { op := .binary .add 1 0, shape := .int },
    { op := .output ⟨"sum", .of .int 1⟩ 3, shape := .int }]
  outputs := [4, 2, 4]
  inputs := [⟨"a", .of .int 1⟩]

/-- Operands stand before their users. -/
theorem acyclic : graph.Acyclic := Graph.acyclic_of_before (by decide)

/-- All operands are nodes. -/
theorem closed : graph.Closed := fun _ n hn =>
  (by decide : ∀ n ∈ graph.nodes, ∀ c ∈ n.children, c < graph.nodes.size) n
    (Array.mem_of_getElem? hn)

end Repeated

/-- The sample graph is put in order. -/
theorem postOrder_exact_repeated :
    (Repeated.graph.Acyclic ∧ Repeated.graph.Closed ∧
      ∀ id ∈ Repeated.graph.outputs, id < Repeated.graph.nodes.size) ∧
    ∃ order, Repeated.graph.postOrder = .ok order ∧ Repeated.graph.InPostOrder order.toList ∧
      Repeated.graph.reachableCount = .ok order.size ∧
      ∃ turns seen, StackWalk.after (fun id => (Repeated.graph.node id).map Node.children) turns
        (.ofRoots Repeated.graph.outputs) = .ok ⟨⟨seen, order⟩, []⟩ :=
  ⟨⟨Repeated.acyclic, Repeated.closed, by decide⟩,
    postOrder_exact Repeated.graph Repeated.acyclic Repeated.closed (by decide)⟩

/-- What the first output depends on comes first. -/
example : Repeated.graph.postOrder = .ok #[0, 1, 3, 4, 2] := by decide

/-- The stream waits on the stack three times at once. It is entered where it comes up
first and then passed over twice, as the repeated output is once. -/
example : StackWalk.after (fun id => (Repeated.graph.node id).map Node.children) 13
    (.ofRoots Repeated.graph.outputs) = .ok ⟨⟨[2, 0, 1, 3, 4], #[0, 1, 3, 4, 2]⟩, []⟩ := by
  rfl

/-! ## Instructions are put in order with a stack -/

/-- A schedule takes its instructions from the line that a stack leaves. Each output is put
on the empty stack and worked off before the next one, along the operands that need
instructions of their own. -/
theorem Schedule.drains_of_ofGraph {g : Graph} {s : Schedule} (h : Schedule.ofGraph g = .ok s) :
    ∃ order seen, StackWalk.Drains g.scheduledOperands g.outputs {} ⟨seen, order⟩ ∧
      s = order.foldl (Schedule.append g) {} := by
  have hsize : ∀ id next, g.scheduledOperands id = .ok next → id < g.nodes.size := by
    intro id next hnext
    unfold Graph.scheduledOperands at hnext
    cases hn : g.node? id with
    | none => rw [hn] at hnext; cases hnext
    | some n => exact Graph.lt_size hn
  unfold Schedule.ofGraph at h
  split at h
  · cases h
  · cases horder : g.walk g.scheduledOperands with
    | error e => rw [horder] at h; cases h
    | ok order =>
      rw [horder] at h
      cases h
      obtain ⟨seen, hdrains⟩ := Graph.drains_of_walk hsize horder
      exact ⟨order, seen, hdrains, rfl⟩

end LaneGraph
