import LaneGraph.Proofs.Execution
import Mathlib

/-!
# Compiled programs compute their graphs

The program of a graph leaves in every bound output, for every instance, the
bytes of the value that direct evaluation of the graph gives. This holds for
every graph without cycles that can be put into a line and emitted.
-/

namespace LaneGraph

open Emission

namespace Graph

/-- The outputs of a graph have different names. -/
def DistinctOutputs (g : Graph) : Prop :=
  ∀ a ∈ g.outputs, ∀ b ∈ g.outputs, ∀ (m n : Node) (p q : Channel) (x y : NodeId),
    g.node? a = some m → g.node? b = some n → m.op = .output p x → n.op = .output q y →
    p.name = q.name → a = b

/-- The positions of nodes and the numbers of arguments are words, as they are in
instructions. -/
structure Addressable (g : Graph) : Prop where
  positions : g.nodes.size ≤ 2 ^ 32
  arguments : ∀ (id : NodeId) (n : Node) (candidates : List FunctionId) (arguments : List NodeId),
    g.node? id = some n → n.op = .call candidates arguments → arguments.length < 2 ^ 32

end Graph

/-- What the nodes of a graph refer to when its program runs on a machine. An
input is the column of elements that its slot was bound to. -/
def Setting.ofRun (m : Machine) (p : Program) (c : Context) :
    Setting (batchCount c.instances) where
  input name := (slotOf? Channel.name p.inputs name).bind fun k =>
    (c.inputs[k]?).map (loadColumn (batchCount c.instances) c.instances)
  native f := (m.find? f.symbol).map (·.native)
  globals := c.globals

/-- Binding gives a program its functions by symbol. -/
theorem Setting.ofRun_fits {m : Machine} {p : Program} {c : Context} {t : Tables}
    {inputs outputs : List Stream} {instances : Nat} {globals : Globals}
    (hbind : m.bind p inputs outputs instances globals = .ok c) (hinputs : p.inputs = t.inputs)
    (hfunctions : p.functions = t.functions) : (Setting.ofRun m p c).Fits t c where
  input name k hk := by
    rw [← hinputs] at hk
    unfold Setting.ofRun
    dsimp only
    rw [hk]
    rfl
  native f k hk := by
    unfold Machine.bind at hbind
    obtain ⟨_, _, hbind⟩ := bind_eq_ok.mp hbind
    obtain ⟨_, _, hbind⟩ := bind_eq_ok.mp hbind
    obtain ⟨natives, hnatives, hbind⟩ := bind_eq_ok.mp hbind
    cases hbind
    obtain ⟨hlt, hkey, -⟩ := List.findIdx?_eq_some_iff_getElem.mp hk
    rw [beq_iff_eq] at hkey
    unfold Binding.bindFunctions at hnatives
    rw [hfunctions] at hnatives
    obtain ⟨native, hnative, hget⟩ := mapM_eq_ok_get hnatives (List.getElem?_eq_getElem hlt)
    unfold Binding.bindFunction at hnative
    rw [hkey] at hnative
    unfold Setting.ofRun Machine.find?
    dsimp only
    cases hfind : m.functions.find? (·.signature.symbol == f.symbol) with
    | none => rw [hfind] at hnative; cases hnative
    | some function =>
      rw [hfind] at hnative
      dsimp only at hnative
      split at hnative
      · cases hnative
        exact hget.symm
      · cases hnative
  globals := rfl

/-- Ranks of nodes grade the operands that need instructions. -/
theorem Graph.Ranked.graded {g : Graph} {live : NodeId → Prop} {rank : NodeId → Nat}
    (h : g.Ranked live rank) : Graded g.scheduledOperands live rank := by
  intro id next hlive hnext c hc
  obtain ⟨n, hn, rfl, -⟩ := Schedule.scheduledOperands_eq_ok hnext
  exact h id n hlive hn c (mem_children_of_readOperands hc)

/-- The instructions of an addressable graph can be read back. -/
theorem Emission.CarryOut.countable {s : Source} {t : Tables} {steps : List Step}
    {is : List Instruction} (h : CarryOut s t steps is) (hg : s.graph.Addressable) :
    ∀ i ∈ is, i.Countable := by
  induction h with
  | nil => exact fun i hi => (nomatch hi)
  | @cons step i _ _ hfirst _ ih =>
    intro j hj
    rcases List.mem_cons.mp hj with rfl | hj
    · obtain ⟨n, hn, hreal⟩ := hfirst
      cases hreal with
      | call op _ _ arguments =>
        have hlength := length_of_mapM_eq_ok arguments
        have hlt := hg.arguments step.node n _ _ hn op
        unfold Instruction.Countable
        omega
      | _ => exact trivial
    · exact ih j hj

/-- An output node in the line is one of the outputs: no instruction reads the
value of an output node, which has none. -/
theorem mem_outputs_of_mem_order {g : Graph} {order : List NodeId} {s : Schedule} {t : Tables}
    {is : List Instruction} (hlined : Schedule.Lined g order s)
    (hcarry : CarryOut (s.source g) t s.steps is) {id : NodeId} {n : Node}
    (hfrom : g.FromOutputs g.scheduledOperands id) (hclosed : ∀ x, x ∈ order ↔
      g.FromOutputs g.scheduledOperands x) (hn : g.node? id = some n)
    (hout : n.isOutput = true) : id ∈ g.outputs := by
  obtain ⟨root, hroot, hreach⟩ := hfrom
  rcases Relation.ReflTransGen.cases_tail hreach with rfl | ⟨user, huser, next, hnext, hmem⟩
  · exact hroot
  · exfalso
    obtain ⟨m, hm, rfl, -⟩ := Schedule.scheduledOperands_eq_ok hnext
    have horder : user ∈ order := (hclosed user).mpr ⟨root, hroot, huser⟩
    obtain ⟨position, step, hstep, rfl⟩ := hlined.faithful.exists_step horder
    obtain ⟨m', r, i, hm', hreal⟩ := hcarry.exists_instruction (List.mem_of_getElem? hstep)
    have hgraph : g.node? step.node = some m' := hm'
    rw [hm] at hgraph
    cases hgraph
    obtain ⟨a, ha⟩ := hreal.register hmem
    unfold Source.register at ha
    cases hv : s.valueOf? id with
    | none =>
      have hv' : (s.source g).schedule.valueOf? id = none := hv
      rw [hv'] at ha
      cases ha
    | some v =>
      obtain ⟨j, hj, rfl⟩ := Schedule.interval_of_valueOf? hv
      have hmade := hlined.faithful.step v j hj
      obtain ⟨n', hn', hnone⟩ := hlined.faithful.outputs _ (List.mem_of_getElem? hmade)
      rw [hn] at hn'
      cases hn'
      cases hnone.mpr hout

/-- A run that ends without error was bound and carried out all instructions. -/
theorem Machine.execute_eq {m : Machine} {p : Program} {c : Context}
    {inputs outputs : List Stream} {globals : Globals} (hinstances : c.instances ≠ 0)
    (hbind : m.bind p inputs outputs c.instances globals = .ok c) {is : List Instruction}
    (hcode : p.code = is.flatMap Instruction.encode) (hcount : ∀ i ∈ is, i.Countable)
    (hok : (m.execute p inputs outputs c.instances globals).1.error = none) :
    ∃ start final : State (batchCount c.instances), c.Executes start is final ∧
      (m.execute p inputs outputs c.instances globals).1.outputs = final.outputs.toList := by
  unfold Machine.execute at hok ⊢
  rw [if_neg hinstances, hbind] at hok ⊢
  dsimp only at hok ⊢
  by_cases hlarge : Machine.cellLimit ≤ p.registerCount * batchCount c.instances
  · rw [if_pos hlarge] at hok
    cases hok
  · rw [if_neg hlarge] at hok ⊢
    unfold Program.instructions at hok ⊢
    rw [hcode] at hok ⊢
    exact ⟨_, _, Context.executes_of_run hcount (Prod.ext rfl hok), rfl⟩

/-- The elements that a run leaves for an output are the values of its source. -/
def Program.Delivers (p : Program) (c : Context) (streams : List Stream)
    (channel : Channel) (value : Option (Column (batchCount c.instances))) : Prop :=
  ∃ k x, slotOf? Channel.name p.outputs channel.name = some k ∧ value = some x ∧
    ∀ b, c.outputs[k]? = some (some b) →
      ∀ i < c.instances, b.Holds streams i (instanceBits x i)

/-- Everything that a run of a program without error is known by. -/
structure Completed (g : Graph) (s : Schedule) (p : Program) (m : Machine)
    (inputs outputs : List Stream) (globals : Globals) (c : Context) : Prop where
  /-- The nodes of the graph were put into a line. -/
  scheduled : Schedule.ofGraph g = .ok s
  /-- The line was given registers and written out. -/
  emitted : program (s.source g) = .ok p
  /-- There is something to compute. -/
  instances : 1 ≤ c.instances
  /-- The slots were bound. -/
  bound : m.bind p inputs outputs c.instances globals = .ok c
  /-- Nothing went wrong. -/
  ended : (m.execute p inputs outputs c.instances globals).1.error = none
  /-- The elements of the outputs lie apart. -/
  apart : c.OutputsApart

/-- A run delivers the values of the sources of all outputs, whenever the nodes
that the outputs need can be ranked. -/
theorem Completed.delivers {g : Graph} {s : Schedule} {p : Program} {m : Machine}
    {inputs outputs : List Stream} {globals : Globals} {c : Context}
    (h : Completed g s p m inputs outputs globals c) {live : NodeId → Prop} {rank : NodeId → Nat}
    (hranked : g.Ranked live rank) (hrank : ∀ id, live id → rank id ≤ g.nodes.size)
    (houtputs : ∀ id ∈ g.outputs, live id) (haddress : g.Addressable)
    (hnames : g.DistinctOutputs) {id source : NodeId} {n : Node} {channel : Channel}
    (hid : id ∈ g.outputs) (hn : g.node? id = some n) (hop : n.op = .output channel source) :
    p.Delivers c (m.execute p inputs outputs c.instances globals).1.outputs channel
      (g.column? (Setting.ofRun m p c) source) := by
  obtain ⟨order, hwalk, rfl⟩ := Schedule.ofGraph_eq_ok h.scheduled
  obtain ⟨hlisted, hfrom⟩ := Graph.walk_listed hranked.graded hrank houtputs hwalk
  obtain ⟨is, t, hcode, hinputs, htable, hfunctions, -, hsparse, hcarry⟩ :=
    program_eq_ok h.emitted
  have hlined : Schedule.Lined g order.toList (order.toList.foldl (Schedule.append g) {}) :=
    ⟨hlisted, Schedule.foldl_append_faithful hlisted, haddress.positions⟩
  have hlive : ∀ x ∈ order.toList, live x := by
    intro x hx
    obtain ⟨root, hroot, hreach⟩ := (hfrom x).mp hx
    exact (hranked.graded.reaches (houtputs root hroot) hreach).1
  have hdistinct : ∀ a ∈ order.toList, ∀ b ∈ order.toList, ∀ (m n : Node) (p q : Channel)
      (x y : NodeId), g.node? a = some m → g.node? b = some n → m.op = .output p x →
      n.op = .output q y → p.name = q.name → a = b := by
    intro a ha b hb m n p q x y hm hn hp hq
    exact hnames a (mem_outputs_of_mem_order hlined hcarry ((hfrom a).mp ha) hfrom hm
      (by rw [Node.isOutput, hp])) b (mem_outputs_of_mem_order hlined hcarry ((hfrom b).mp hb)
      hfrom hn (by rw [Node.isOutput, hq])) m n p q x y hm hn hp hq
  let σ : Simulation (batchCount c.instances) :=
    { graph := g, order := order.toList, schedule := order.toList.foldl (Schedule.append g) {}
      tables := t, world := Setting.ofRun m p c, context := c, lined := hlined
      sparse := hsparse, fits := Setting.ofRun_fits h.bound hinputs hfunctions, apart := h.apart
      batches_eq := rfl, names := hdistinct
      value := fun x hx n hn => hranked.column?_eq hrank (hlive x hx) hn }
  obtain ⟨start, final, hexecutes, hstreams⟩ := Machine.execute_eq
    (by have := h.instances; omega) h.bound hcode (hcarry.countable haddress) h.ended
  have hagrees : σ.Agrees (0 + σ.schedule.steps.length) final :=
    Simulation.Agrees.run List.drop_zero (.start start) hcarry hexecutes
  obtain ⟨position, step, hstep, hnode⟩ := hlined.faithful.exists_step
    ((hfrom id).mpr ⟨id, hid, .refl⟩)
  have hposition : position < 0 + σ.schedule.steps.length := by
    rw [Nat.zero_add]
    exact (List.getElem?_eq_some_iff.mp hstep).1
  obtain ⟨k, x, hk, hx, hholds⟩ := hagrees.stores position step n channel source hposition hstep
    (by rw [hnode]; exact hn) hop
  refine ⟨k, x, by rw [htable]; exact hk, hx, ?_⟩
  rw [hstreams]
  exact hholds

namespace Fourfold

/-- Three times a stream plus the stream, with a literal held by an instruction
and a sum that takes the register of the product. -/
def graph : Graph where
  nodes := #[
    { op := .input ⟨"a", .of .int 1⟩, shape := .int },
    { op := .constant ⟨.int, [3]⟩, shape := .int },
    { op := .binary .multiply 0 1, shape := .int },
    { op := .binary .add 2 0, shape := .int },
    { op := .output ⟨"r", .of .int 1⟩ 3, shape := .int }]
  outputs := [4]
  inputs := [⟨"a", .of .int 1⟩]

/-- The nodes of the graph in a line. -/
def schedule : Schedule where
  steps := [⟨0, some 0⟩, ⟨2, some 1⟩, ⟨3, some 2⟩, ⟨4, none⟩]
  intervals := #[⟨0, 2, 0⟩, ⟨1, 2, 2⟩, ⟨2, 3, 3⟩]

/-- The program of the line. -/
def program : Program where
  code := [94, 0, 0, 34, 1, 0, 3, 25, 1, 1, 0, 96, 0, 1]
  inputs := [⟨"a", .of .int 1⟩]
  outputs := [⟨"r", .of .int 1⟩]
  instructionCount := 4
  registerCount := 2

/-- The numbers from one to five. -/
def input : Stream :=
  .ofBytes ⟨"a", .of .int 1⟩ #[1, 0, 0, 0, 2, 0, 0, 0, 3, 0, 0, 0, 4, 0, 0, 0, 5, 0, 0, 0]

/-- Room for five results. -/
def output : Stream := .ofBytes ⟨"r", .of .int 1⟩ (Array.replicate 20 0)

/-- The program bound to both streams. -/
def context : Context := ⟨5, [⟨input, ⟨0, 4, .int⟩⟩], [some ⟨0, ⟨0, 4, .int⟩⟩], [], []⟩

/-- Operands stand before their users. -/
theorem acyclic : graph.Acyclic := Graph.acyclic_of_before (by decide)

/-- There are five nodes and no calls. -/
theorem addressable : graph.Addressable where
  positions := by decide
  arguments id n candidates arguments hn hop := by
    have hall : ∀ m ∈ graph.nodes, ∀ c ∈ m.children, m.children.length < 2 ^ 32 := by decide
    cases arguments with
    | nil => decide
    | cons first rest =>
      have hchildren : n.children = first :: rest := by
        rw [Node.children, hop]
        rfl
      have hlt := hall n (Array.mem_of_getElem? hn) first (by rw [hchildren]; simp)
      rwa [hchildren] at hlt

/-- There is one output. -/
theorem distinct : graph.DistinctOutputs := by
  intro a ha b hb m n p q x y _ _ _ _ _
  exact (List.mem_singleton.mp ha).trans (List.mem_singleton.mp hb).symm

/-- The elements of the one output lie a stride apart. -/
theorem apart : context.OutputsApart := by
  intro p q a b i j hp hq hi hj hne _
  have hi' : i < 5 := hi
  have hj' : j < 5 := hj
  match p, q, hp, hq with
  | 0, 0, hp, hq =>
    cases hp
    cases hq
    have hij : i ≠ j := fun h => hne ⟨rfl, h⟩
    simp only [ElementView.Apart, ElementView.position, Encoding.size]
    omega

/-- The program runs to its end. -/
theorem completed : Completed graph schedule program {} [input] [output] [] context where
  scheduled := by decide +kernel
  emitted := by cbv
  instances := by decide
  bound := rfl
  ended := by decide
  apart := apart

end Fourfold

end LaneGraph
