import LaneGraph.Proofs.Programs
import Mathlib.Order.Bounds.Defs

/-!
# Schedules are exact

A graph without cycles whose references lead to its nodes is always put into a line. The
line holds what the outputs depend on, literals that instructions hold left out, each
node once and after what it reads. A lifetime is stretched only by steps that read the
value, so it ends at the last of them.
-/

namespace LaneGraph

open Emission

namespace Graph

/-- The instruction of a node reads a node from a register: it is an operand at a
position where the instruction does not hold the literal itself. -/
def Reads (g : Graph) (a b : NodeId) : Prop :=
  ∃ (n : Node) (index : Nat), g.node? a = some n ∧ n.children[index]? = some b ∧
    g.holdsOperand n.op index b = false

/-- What is read is among the operands that are read from registers. -/
theorem reads_iff {g : Graph} {a b : NodeId} :
    g.Reads a b ↔ ∃ n, g.node? a = some n ∧ b ∈ g.readOperands n := by
  constructor
  · rintro ⟨n, index, hn, hchild, hheld⟩
    exact ⟨n, hn, mem_readOperands index hchild hheld⟩
  · rintro ⟨n, hn, hb⟩
    obtain ⟨index, hchild, hheld⟩ := exists_index_of_readOperands hb
    exact ⟨n, index, hn, hchild, hheld⟩

/-- All operands of nodes are in the arena. -/
def Closed (g : Graph) : Prop :=
  ∀ id n, g.node? id = some n → ∀ c ∈ n.children, c < g.nodes.size

/-- In a closed arena a node needs instructions for what it reads. -/
theorem Closed.scheduledOperands {g : Graph} (h : g.Closed) {id : NodeId} {n : Node}
    (hn : g.node? id = some n) : g.scheduledOperands id = .ok (g.readOperands n) := by
  have hfind : (n.children.reverse.find? fun child => (g.node? child).isNone) = none := by
    rw [List.find?_eq_none]
    intro c hc
    rw [Graph.node?, Array.getElem?_eq_getElem (h id n hn c (List.mem_reverse.mp hc))]
    exact Bool.false_ne_true
  unfold Graph.scheduledOperands
  rw [hn]
  dsimp only
  rw [hfind]

/-- In a closed arena successors are what is read. -/
theorem Closed.leadsTo_iff {g : Graph} (h : g.Closed) {a b : NodeId} :
    LeadsTo g.scheduledOperands a b ↔ g.Reads a b := by
  rw [reads_iff]
  constructor
  · rintro ⟨next, hnext, hb⟩
    obtain ⟨n, hn, rfl, -⟩ := Schedule.scheduledOperands_eq_ok hnext
    exact ⟨n, hn, hb⟩
  · rintro ⟨n, hn, hb⟩
    exact ⟨_, h.scheduledOperands hn, hb⟩

end Graph

namespace Schedule

/-- The step at a position reads a node from a register. -/
def ReadAt (g : Graph) (s : Schedule) (id : NodeId) (t : Nat) : Prop :=
  ∃ step, s.steps[t]? = some step ∧ g.Reads step.node id

/-- A schedule is exact: it lists what the outputs depend on, and lifetimes are neither
too short nor too long. -/
structure Exact (g : Graph) (s : Schedule) : Prop where
  /-- No node stands twice. -/
  nodup : (s.steps.map (·.node)).Nodup
  /-- The nodes of the steps are those that the outputs reach by reading. -/
  reached : ∀ id, id ∈ s.steps.map (·.node) ↔
    ∃ output ∈ g.outputs, Relation.ReflTransGen g.Reads output id
  /-- What a step reads is made by an earlier step. -/
  before : ∀ (t : Nat) (step : Step) (c : NodeId), s.steps[t]? = some step →
    g.Reads step.node c → ∃ u < t, ∃ earlier, s.steps[u]? = some earlier ∧ earlier.node = c
  /-- Steps that write no stream, and only these, own a value. -/
  owned : ∀ step ∈ s.steps, ∃ n, g.node? step.node = some n ∧
    (step.value = none ↔ n.isOutput = true)
  /-- No value is owned twice. -/
  distinct : ∀ (t u v : Nat) (a b : Step), s.steps[t]? = some a → s.steps[u]? = some b →
    a.value = some v → b.value = some v → t = u
  /-- A lifetime starts at the step that owns the value, and it ends at the last step that
  reads it. Only what is listed as an output without writing a stream may stay unread. -/
  lifetime : ∀ (t v : Nat) (step : Step), s.steps[t]? = some step → step.value = some v →
    ∃ i, s.intervals[v]? = some i ∧ i.node = step.node ∧ i.start = t ∧
      (IsGreatest {u | ReadAt g s step.node u} i.stop ∨
        step.node ∈ g.outputs ∧ (∀ u, ¬ReadAt g s step.node u) ∧ i.stop = t)

/-- Lifetimes end where they start, or at a step that reads the value. -/
def Attained (g : Graph) (s : Schedule) : Prop :=
  ∀ (v : Nat) (i : Interval), s.intervals[v]? = some i →
    i.stop = i.start ∨ ReadAt g s i.node i.stop

/-- A lifetime is as it was, or it was stretched for one of several nodes. -/
theorem extend_stop (s : Schedule) (position : Nat) (id : NodeId) {v : Nat} {i' : Interval}
    (hi' : (s.extend position id).intervals[v]? = some i') :
    s.intervals[v]? = some i' ∨ i'.stop = position ∧ i'.node = id := by
  unfold extend at hi'
  cases hv : s.valueOf? id with
  | none =>
    rw [hv] at hi'
    exact .inl hi'
  | some u =>
    rw [hv] at hi'
    dsimp only at hi'
    rw [Array.getElem?_modify] at hi'
    split at hi'
    · rename_i heq
      obtain ⟨i, hi, hnode⟩ := interval_of_valueOf? hv
      rw [← heq, hi, Option.map_some] at hi'
      cases hi'
      rcases Nat.le_total position i.stop with hle | hle
      · refine .inl ?_
        rw [← heq, hi, Nat.max_eq_left hle]
      · exact .inr ⟨Nat.max_eq_right hle, hnode⟩
    · exact .inl hi'

/-- A lifetime is as it was, or it was stretched for one of several nodes. -/
theorem foldl_extend_stop (position : Nat) (ids : List NodeId) (s : Schedule) {v : Nat}
    {i' : Interval}
    (hi' : (ids.foldl (fun s c => s.extend position c) s).intervals[v]? = some i') :
    s.intervals[v]? = some i' ∨ i'.stop = position ∧ i'.node ∈ ids := by
  induction ids generalizing s with
  | nil => exact .inl hi'
  | cons id rest ih =>
    rw [List.foldl_cons] at hi'
    rcases ih (s.extend position id) hi' with hold | ⟨hstop, hmem⟩
    · rcases s.extend_stop position id hold with hold | ⟨hstop, hnode⟩
      · exact .inl hold
      · exact .inr ⟨hstop, hnode ▸ List.mem_cons_self⟩
    · exact .inr ⟨hstop, List.mem_cons_of_mem _ hmem⟩

/-- Lifetimes go on to end at a step that reads the value when a step is put at the end of
the line, if it stretches only the lifetimes of what its node reads. -/
theorem Attained.snoc {g : Graph} {s s' : Schedule} (h : Attained g s) (last : Step) {n : Node}
    (hn : g.node? last.node = some n) (hsteps : s'.steps = s.steps ++ [last])
    (hintervals : ∀ (v : Nat) (i : Interval), s'.intervals[v]? = some i → i.stop = i.start ∨
      s.intervals[v]? = some i ∨ i.stop = s.steps.length ∧ i.node ∈ g.readOperands n) :
    Attained g s' := by
  intro v i hi
  rcases hintervals v i hi with hnew | hold | ⟨hstop, hread⟩
  · exact .inl hnew
  · rcases h v i hold with hshort | ⟨step, hstep, hreads⟩
    · exact .inl hshort
    · exact .inr ⟨step, hsteps ▸ getElem?_of_snoc hstep, hreads⟩
  · refine .inr ⟨last, ?_, Graph.reads_iff.mpr ⟨n, hn, hread⟩⟩
    rw [hstop, hsteps, List.getElem?_concat_length]

/-- Appending a node stretches lifetimes only as far as the step that reads the values. -/
theorem Attained.append {g : Graph} {s : Schedule} (h : Attained g s) {id : NodeId} {n : Node}
    (hn : g.node? id = some n) : Attained g (Schedule.append g s id) := by
  have hsteps := (foldl_extend_longer s.steps.length (g.readOperands n) s).1.steps
  have hstop : ∀ (v : Nat) (i : Interval), ((g.readOperands n).foldl
      (fun t child => t.extend s.steps.length child) s).intervals[v]? = some i →
      s.intervals[v]? = some i ∨ i.stop = s.steps.length ∧ i.node ∈ g.readOperands n :=
    fun _ _ hi => foldl_extend_stop s.steps.length (g.readOperands n) s hi
  unfold Schedule.append
  rw [hn]
  dsimp only
  generalize (g.readOperands n).foldl (fun t child => t.extend s.steps.length child) s =
    s' at hsteps hstop ⊢
  split
  · refine h.snoc ⟨id, none⟩ hn ?_ fun v i hi => .inr (hstop v i hi)
    dsimp only
    rw [hsteps]
  · refine h.snoc ⟨id, some s'.intervals.size⟩ hn ?_ fun v i hi => ?_
    · dsimp only
      rw [hsteps]
    · rw [← hsteps] at hi
      rcases Faithful.intervals_withValue hi with hold | ⟨-, rfl⟩
      · exact .inr (hstop v i hold)
      · exact .inl rfl

/-- The lifetimes of a line of nodes end where they start or at steps that read the values. -/
theorem foldl_append_attained {g : Graph} {order : List NodeId}
    (h : Listed g.scheduledOperands order) : Attained g (order.foldl (append g) {}) := by
  induction h with
  | nil => exact fun v i hi => by simp at hi
  | snoc _ _ known _ ih =>
    obtain ⟨n, hn, -⟩ := scheduledOperands_eq_ok known
    rw [List.foldl_append, List.foldl_cons, List.foldl_nil]
    exact ih.append hn

/-- The node of a step is read by a step, or it is listed as an output itself. -/
theorem exists_readAt {g : Graph} {s : Schedule} (hreached : ∀ id, id ∈ s.steps.map (·.node) ↔
    ∃ output ∈ g.outputs, Relation.ReflTransGen g.Reads output id) {step : Step}
    (hstep : step ∈ s.steps) : step.node ∈ g.outputs ∨ ∃ t, ReadAt g s step.node t := by
  obtain ⟨output, houtput, hreach⟩ := (hreached step.node).mp (List.mem_map_of_mem hstep)
  rcases hreach.cases_tail with heq | ⟨user, huser, hreads⟩
  · exact .inl (heq ▸ houtput)
  · obtain ⟨reader, hreader, rfl⟩ := List.mem_map.mp ((hreached user).mpr ⟨output, houtput, huser⟩)
    obtain ⟨t, ht⟩ := List.getElem?_of_mem hreader
    exact .inr ⟨t, reader, ht, hreads⟩

/-- A schedule is made from a line of all that the outputs reach by reading. -/
structure Lines (s : Schedule) (g : Graph) (order : List NodeId) : Prop where
  schedule : s = order.foldl (append g) {}
  listed : Listed g.scheduledOperands order
  reached : ∀ id, id ∈ order ↔ g.FromOutputs g.scheduledOperands id

/-- The schedule of a closed graph without cycles is made from such a line. -/
theorem lines_of_closed {g : Graph} (hacyclic : g.Acyclic) (hclosed : g.Closed)
    (houtputs : ∀ id ∈ g.outputs, id < g.nodes.size) {s : Schedule} (h : ofGraph g = .ok s) :
    ∃ order, s.Lines g order := by
  have hranked : g.Ranked (fun id => id < g.nodes.size) g.needRank := fun id n _ hn c hc =>
    ⟨hclosed id n hn c hc, (hacyclic.ranked id n trivial hn c hc).2⟩
  obtain ⟨order, hwalk, rfl⟩ := ofGraph_eq_ok h
  obtain ⟨hlisted, hmem⟩ := Graph.walk_listed hranked.graded
    (fun id _ => hacyclic.needRank_le id) houtputs hwalk
  exact ⟨order.toList, rfl, hlisted, hmem⟩

/-- A line of all that the outputs reach by reading is an exact schedule. -/
theorem Lines.exact {g : Graph} (hclosed : g.Closed) {s : Schedule} {order : List NodeId}
    (h : s.Lines g order) : Exact g s := by
  obtain ⟨rfl, hlisted, hmem⟩ := h
  have hfaithful := foldl_append_faithful hlisted
  have hattained := foldl_append_attained hlisted
  generalize order.foldl (append g) {} = s at hfaithful hattained ⊢
  have hleads : LeadsTo g.scheduledOperands = g.Reads := by
    ext a b
    exact hclosed.leadsTo_iff
  have hreached : ∀ id, id ∈ s.steps.map (·.node) ↔
      ∃ output ∈ g.outputs, Relation.ReflTransGen g.Reads output id := by
    intro id
    rw [hfaithful.nodes, hmem, Graph.FromOutputs, Reaches, hleads]
  have hbefore : ∀ (t : Nat) (step : Step) (c : NodeId), s.steps[t]? = some step →
      g.Reads step.node c → ∃ u < t, ∃ earlier, s.steps[u]? = some earlier ∧ earlier.node = c := by
    intro t step c hstep hreads
    obtain ⟨n, hn, hc⟩ := Graph.reads_iff.mp hreads
    exact hfaithful.operand_before hlisted hstep hn hc
  refine ⟨hfaithful.nodes ▸ hlisted.nodup, hreached, hbefore, hfaithful.outputs, ?_, ?_⟩
  · intro t u v a b ha hb hav hbv
    obtain ⟨i, hi, hstart, -⟩ := hfaithful.starts t a v ha hav
    obtain ⟨j, hj, hstart', -⟩ := hfaithful.starts u b v hb hbv
    rw [hi] at hj
    cases hj
    exact hstart.symm.trans hstart'
  · intro t v step hstep hv
    obtain ⟨i, hi, hstart, hnode⟩ := hfaithful.starts t step v hstep hv
    have hvalue : s.valueOf? step.node = some v := hnode ▸ valueOf?_eq_some hfaithful.owners hi
    -- A reader stands after the step, and the lifetime is not over before it.
    have hlast : ∀ u, ReadAt g s step.node u → t < u ∧ u ≤ i.stop := by
      rintro u ⟨reader, hreader, hreads⟩
      obtain ⟨n, hn, hc⟩ := Graph.reads_iff.mp hreads
      refine ⟨?_, hfaithful.reads u reader n step.node v i hreader hn hc hvalue hi⟩
      obtain ⟨w, hw, earlier, hearlier, hsame⟩ := hbefore u reader step.node hreader hreads
      have hnodup : (s.steps.map (·.node)).Nodup := hfaithful.nodes ▸ hlisted.nodup
      obtain ⟨hlt, hget⟩ := List.getElem?_eq_some_iff.mp hstep
      have : t = w := (List.getElem?_inj (by rw [List.length_map]; exact hlt) hnodup).mp (by
        rw [List.getElem?_map, List.getElem?_map, hstep, hearlier, Option.map_some,
          Option.map_some, hsame])
      omega
    refine ⟨i, hi, hnode, hstart, ?_⟩
    rcases hattained v i hi with hshort | hread
    · have hunread : ∀ u, ¬ReadAt g s step.node u := by
        intro u hu
        have := hlast u hu
        omega
      rcases exists_readAt hreached (List.mem_of_getElem? hstep) with houtput | ⟨u, hu⟩
      · exact .inr ⟨houtput, hunread, hshort.trans hstart⟩
      · exact absurd hu (hunread u)
    · rw [hnode] at hread
      exact .inl ⟨hread, fun u hu => (hlast u hu).2⟩

end Schedule

/-- Every graph without cycles that has outputs and whose references lead to its nodes
has a schedule, and the schedule is exact. -/
theorem schedule_exact (g : Graph) (hacyclic : g.Acyclic) (hclosed : g.Closed)
    (houtputs : ∀ id ∈ g.outputs, id < g.nodes.size) (hsome : g.outputs ≠ []) :
    ∃ s, Schedule.ofGraph g = .ok s ∧ Schedule.Exact g s := by
  have hnext : ∀ id, id < g.nodes.size → ∃ next, g.scheduledOperands id = .ok next ∧
      ∀ c ∈ next, c < g.nodes.size := by
    intro id hid
    have hn := Array.getElem?_eq_getElem hid
    exact ⟨_, hclosed.scheduledOperands hn, fun c hc =>
      hclosed id _ hn c (mem_children_of_readOperands hc)⟩
  obtain ⟨order, hwalk⟩ := Graph.walk_total hnext houtputs
  have hschedule : Schedule.ofGraph g = .ok (order.toList.foldl (Schedule.append g) {}) := by
    unfold Schedule.ofGraph
    rw [if_neg (by rwa [List.isEmpty_iff]), hwalk, Array.foldl_toList]
  obtain ⟨_, hlines⟩ := Schedule.lines_of_closed hacyclic hclosed houtputs hschedule
  exact ⟨_, hschedule, hlines.exact hclosed⟩

namespace Difference

/-- Three minus a stream, times three. The difference reads the literal from a register,
and the product holds it. -/
def graph : Graph where
  nodes := #[
    { op := .input ⟨"a", .of .int 1⟩, shape := .int },
    { op := .constant ⟨.int, [3]⟩, shape := .int },
    { op := .binary .subtract 1 0, shape := .int },
    { op := .binary .multiply 2 1, shape := .int },
    { op := .output ⟨"r", .of .int 1⟩ 3, shape := .int }]
  outputs := [4]
  inputs := [⟨"a", .of .int 1⟩]

/-- Operands stand before their users. -/
theorem acyclic : graph.Acyclic := Graph.acyclic_of_before (by decide)

/-- All operands are nodes. -/
theorem closed : graph.Closed := fun _ n hn =>
  (by decide : ∀ n ∈ graph.nodes, ∀ c ∈ n.children, c < graph.nodes.size) n
    (Array.mem_of_getElem? hn)

end Difference

/-- The sample graph has an exact schedule. -/
theorem schedule_exact_difference :
    (Difference.graph.Acyclic ∧ Difference.graph.Closed ∧
      (∀ id ∈ Difference.graph.outputs, id < Difference.graph.nodes.size) ∧
      Difference.graph.outputs ≠ []) ∧
    ∃ s, Schedule.ofGraph Difference.graph = .ok s ∧ Schedule.Exact Difference.graph s :=
  ⟨⟨Difference.acyclic, Difference.closed, by decide, by decide⟩,
    schedule_exact Difference.graph Difference.acyclic Difference.closed (by decide) (by decide)⟩

/-- The lifetime of the literal ends at the difference, before the product. -/
example : Schedule.ofGraph Difference.graph = .ok
    { steps := [⟨1, some 0⟩, ⟨0, some 1⟩, ⟨2, some 2⟩, ⟨3, some 3⟩, ⟨4, none⟩]
      intervals := #[⟨0, 2, 1⟩, ⟨1, 2, 0⟩, ⟨2, 3, 2⟩, ⟨3, 4, 3⟩] } := by
  decide +kernel

end LaneGraph
