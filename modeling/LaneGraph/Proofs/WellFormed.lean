import LaneGraph.Compiler
import LaneGraph.Proofs.Closure
import LaneGraph.Proofs.Programs
import Mathlib

/-!
# Compiled programs are well formed

The code of a compiled program is read back as one instruction for each step of
the line. Its registers and slots are in bounds, and a register is written before
it is read. The graph comes from factories and has passed the pipeline, so its
nodes can be ranked, and the line puts operands before their users.
-/

namespace LaneGraph

open Build Emission

namespace Instruction

/-- The registers that an instruction reads. -/
def reads : Instruction → List UInt32
  | apply _ _ a | combineConst _ _ a _ | store _ _ a => [a]
  | combine _ _ a b => [a, b]
  | select _ _ m a b => [m, a, b]
  | call _ _ arguments => arguments
  | move _ _ | load _ _ _ | storeConst _ _ _ => []

/-- The register that an instruction writes. -/
def result? : Instruction → Option UInt32
  | apply _ r _ | combine _ r _ _ | combineConst _ r _ _ | select _ r _ _ _ | move r _
  | load _ r _ | call _ r _ => some r
  | store _ _ _ | storeConst _ _ _ => none

/-- The slot that an instruction refers to is in its table. -/
def SlotIn (p : Program) : Instruction → Prop
  | load _ _ slot => slot.toNat < p.inputs.length
  | store _ slot _ | storeConst _ slot _ => slot.toNat < p.outputs.length
  | call slot _ _ => slot.toNat < p.functions.length
  | _ => True

/-- The entries of a code stream without their places. -/
theorem map_instruction_placed (is : List Instruction) (offset : Nat) :
    (placed offset is).map (·.bind Encoded.instruction) = is.map .ok := by
  induction is generalizing offset with
  | nil => rfl
  | cons i rest ih =>
    rw [placed, List.map_cons, List.map_cons, ih]
    exact congrArg (· :: rest.map .ok) (i.instruction_encoded offset)

/-- Instructions in their places are read without error, and have their words. -/
theorem exists_placed (is : List Instruction) (offset : Nat) :
    ∃ es : List Encoded, placed offset is = es.map .ok ∧
      es.flatMap Encoded.words = is.flatMap encode := by
  induction is generalizing offset with
  | nil => exact ⟨[], rfl, rfl⟩
  | cons i rest ih =>
    obtain ⟨es, hes, hwords⟩ := ih (offset + (1 + i.operands.length))
    refine ⟨⟨offset, i.opcode, i.operands⟩ :: es, ?_, ?_⟩
    · rw [placed, hes, List.map_cons]
    · rw [List.flatMap_cons, List.flatMap_cons, hwords]
      rfl

end Instruction

/-- A program consists of instructions: they are what its code is read back as,
their registers and slots are in bounds, and registers are written before they
are read. -/
structure Program.Consists (p : Program) (is : List Instruction) : Prop where
  /-- The code is read without error, and its entries have all of its words. -/
  code : ∃ es : List Encoded, p.instructions = es.map .ok ∧ es.flatMap Encoded.words = p.code
  /-- The entries are these instructions. -/
  decoded : p.instructions.map (·.bind Encoded.instruction) = is.map .ok
  /-- There are as many as the program says. -/
  count : p.instructionCount = is.length
  /-- Registers that are read are in bounds. -/
  reads : ∀ i ∈ is, ∀ r ∈ i.reads, r.toNat < p.registerCount
  /-- Registers that are written are in bounds. -/
  writes : ∀ i ∈ is, ∀ r, i.result? = some r → r.toNat < p.registerCount
  /-- Slots are in their tables. -/
  slots : ∀ i ∈ is, i.SlotIn p
  /-- What is read was written by an earlier instruction. -/
  defined : ∀ (k : Nat) (i : Instruction), is[k]? = some i → ∀ r ∈ i.reads,
    ∃ (j : Nat) (earlier : Instruction), j < k ∧ is[j]? = some earlier ∧ earlier.result? = some r

/-- A register that was given to a value is counted. -/
theorem Allocation.register_lt_count {values : List Interval} {number register : Nat}
    (h : (ofIntervals values).registers[number]? = some register) :
    register < (ofIntervals values).count := by
  have hnumber : number < values.length := by
    have hlt := (List.getElem?_eq_some_iff.mp h).1
    unfold ofIntervals at hlt
    simpa only [List.length_map, List.length_range] using hlt
  obtain ⟨r, hp⟩ := exists_placed (List.getElem?_eq_getElem hnumber)
  have hr := register_of_placed hp
  rw [h] at hr
  cases hr
  have hmem := (List.of_mem_zip hp).2
  have hfold : ∀ (entries : List (Nat × Nat)) (start : Nat),
      start ≤ entries.foldl (fun count entry => max count (entry.2 + 1)) start ∧
        ∀ entry ∈ entries,
          entry.2 < entries.foldl (fun count entry => max count (entry.2 + 1)) start := by
    intro entries
    induction entries with
    | nil => exact fun start => ⟨Nat.le_refl _, fun _ h => (nomatch h)⟩
    | cons entry rest ih =>
      intro start
      obtain ⟨hstart, hrest⟩ := ih (max start (entry.2 + 1))
      rw [List.foldl_cons]
      refine ⟨by omega, fun other hother => ?_⟩
      rcases List.mem_cons.mp hother with rfl | hother
      · omega
      · exact hrest other hother
  exact (hfold _ 0).2 _ hmem

namespace Emission

variable {s : Source} {t : Tables} {r : UInt32} {n : Node} {i : Instruction}

/-- The registers that an instruction reads are those of operands that are read. -/
theorem Realizes.reads (h : Realizes s t r n i) {a : UInt32} (ha : a ∈ i.reads) :
    ∃ c ∈ s.graph.readOperands n, s.register c = .ok a := by
  cases h with
  | move _ _ | load _ _ | storeConst _ _ _ _ _ => cases ha
  | store op _ read register =>
    rw [List.mem_singleton.mp ha]
    exact ⟨_, read, register⟩
  | apply op _ register =>
    rw [List.mem_singleton.mp ha]
    refine ⟨_, mem_readOperands 0 ?_ ?_, register⟩
    · unfold Node.children
      rw [op]
      rfl
    · rw [op]
      rfl
  | @combine o left right _ _ _ op _ leftRegister read rightRegister =>
    have hleft : left ∈ s.graph.readOperands n := by
      refine mem_readOperands 0 ?_ ?_
      · unfold Node.children
        rw [op]
        rfl
      · rw [op]
        exact Bool.and_false _
    simp only [Instruction.reads, List.mem_cons, List.not_mem_nil, or_false] at ha
    rcases ha with rfl | rfl
    · exact ⟨left, hleft, leftRegister⟩
    · exact ⟨right, read, rightRegister⟩
  | combineConst op _ leftRegister _ _ _ =>
    rw [List.mem_singleton.mp ha]
    refine ⟨_, mem_readOperands 0 ?_ ?_, leftRegister⟩
    · unfold Node.children
      rw [op]
      rfl
    · rw [op]
      exact Bool.and_false _
  | @select condition ifTrue ifFalse _ _ _ _ op conditionRegister trueRegister falseRegister =>
    have hread : ∀ (index : Nat) (c : NodeId), [condition, ifTrue, ifFalse][index]? = some c →
        c ∈ s.graph.readOperands n := by
      intro index c hc
      refine mem_readOperands index ?_ ?_
      · unfold Node.children
        rw [op]
        exact hc
      · rw [op]
        rfl
    simp only [Instruction.reads, List.mem_cons, List.not_mem_nil, or_false] at ha
    rcases ha with rfl | rfl | rfl
    · exact ⟨condition, hread 0 _ rfl, conditionRegister⟩
    · exact ⟨ifTrue, hread 1 _ rfl, trueRegister⟩
    · exact ⟨ifFalse, hread 2 _ rfl, falseRegister⟩
  | @call candidates arguments f k registers op _ _ argumentRegisters =>
    have hmem : a ∈ registers := ha
    obtain ⟨index, hindex⟩ := List.getElem?_of_mem hmem
    have hlt : index < arguments.length := by
      rw [← length_of_mapM_eq_ok argumentRegisters]
      exact (List.getElem?_eq_some_iff.mp hindex).1
    obtain ⟨b, hb, hget⟩ := mapM_eq_ok_get argumentRegisters (List.getElem?_eq_getElem hlt)
    rw [hindex] at hget
    cases hget
    refine ⟨_, mem_readOperands index ?_ ?_, hb⟩
    · unfold Node.children
      rw [op]
      exact List.getElem?_eq_getElem hlt
    · rw [op]
      rfl

/-- An instruction writes its result register, unless its node is an output. -/
theorem Realizes.result? (h : Realizes s t r n i) :
    i.result? = if n.isOutput then none else some r := by
  unfold Node.isOutput
  cases h with
  | move op _ | load op _ | storeConst op _ _ _ _ | store op _ _ _ | apply op _ _
  | combine op _ _ _ _ | combineConst op _ _ _ _ _ | select op _ _ _ | call op _ _ _ =>
    rw [op]
    rfl

/-- The number of instructions that a program says is that of the steps. -/
theorem program_instructionCount {p : Program} (h : program s = .ok p) :
    p.instructionCount = s.schedule.steps.length := by
  unfold program at h
  obtain ⟨_, -, h⟩ := bind_eq_ok.mp h
  cases h
  rfl

end Emission

namespace Schedule.Lined

variable {g : Graph} {order : List NodeId} {s : Schedule} {t : Tables} {is : List Instruction}

/-- The instruction of a step. -/
theorem instruction_at (hcarry : CarryOut (s.source g) t s.steps is) {k : Nat} {i : Instruction}
    (hi : is[k]? = some i) : ∃ step n, s.steps[k]? = some step ∧ g.node? step.node = some n ∧
      Realizes (s.source g) t ((step.value.map (s.source g).registerOfValue).getD 0) n i := by
  obtain ⟨hlt, rfl⟩ := List.getElem?_eq_some_iff.mp hi
  have hlt' : k < s.steps.length := by
    rw [hcarry.length_eq]
    exact hlt
  obtain ⟨n, hn, hreal⟩ := hcarry.get hlt' hlt
  exact ⟨s.steps[k], n, List.getElem?_eq_getElem hlt', hn, hreal⟩

/-- A register that an instruction reads is the register of a value that an earlier
step makes. -/
theorem register_made (h : Lined g order s) (hcarry : CarryOut (s.source g) t s.steps is) {k : Nat}
    {i : Instruction} (hi : is[k]? = some i) {r : UInt32} (hr : r ∈ i.reads) :
    ∃ (v : Nat) (interval : Interval), s.intervals[v]? = some interval ∧ interval.start < k ∧
      r = (s.source g).registerOfValue v := by
  obtain ⟨step, n, hstep, hn, hreal⟩ := instruction_at hcarry hi
  obtain ⟨c, hc, hregister⟩ := hreal.reads hr
  unfold Source.register at hregister
  cases hv : (s.source g).schedule.valueOf? c with
  | none =>
    rw [hv] at hregister
    cases hregister
  | some v =>
    rw [hv] at hregister
    cases hregister
    obtain ⟨interval, hinterval, -, hstart, -⟩ := h.needed_at hstep hn hc hv
    exact ⟨v, interval, hinterval, hstart, rfl⟩

/-- The register of a value is counted. -/
theorem register_lt_count (h : Lined g order s) {v : Nat} {interval : Interval}
    (hv : s.intervals[v]? = some interval) :
    ((s.source g).registerOfValue v).toNat < (s.source g).allocation.count :=
  Allocation.register_lt_count (h.registerOfValue_toNat hv)

/-- The instruction of the step that makes a value writes the register of the
value. -/
theorem result_made (h : Lined g order s) (hcarry : CarryOut (s.source g) t s.steps is) {v : Nat}
    {interval : Interval} (hv : s.intervals[v]? = some interval) :
    ∃ i, is[interval.start]? = some i ∧ i.result? = some ((s.source g).registerOfValue v) := by
  have hstep := h.faithful.step v interval hv
  have hlt : interval.start < is.length := by
    rw [← hcarry.length_eq]
    exact (List.getElem?_eq_some_iff.mp hstep).1
  obtain ⟨step, n, hstep', hn, hreal⟩ := instruction_at hcarry (List.getElem?_eq_getElem hlt)
  rw [hstep] at hstep'
  cases hstep'
  refine ⟨is[interval.start], List.getElem?_eq_getElem hlt, ?_⟩
  obtain ⟨m, hm, hnone⟩ := h.faithful.outputs _ (List.mem_of_getElem? hstep)
  rw [hn] at hm
  cases hm
  rw [hreal.result?, if_neg fun hout => nomatch hnone.mpr hout]
  rfl

/-- Slots are words. -/
theorem toNat_slot (h : Lined g order s) {α : Type} {key : α → String}
    {name? : Node → Option String} {table : List α} {name : String} {k : Nat}
    (hkeyed : Keyed key ((s.source g).mentioned name?) table)
    (hk : slotOf? key table name = some k) : (UInt32.ofNat k).toNat = k := by
  have hlt : k < s.steps.length := hkeyed.slot_lt hk
  have hnodes := h.length_le
  have hwords := h.words
  exact UInt32.toNat_ofNat_of_lt' (by rw [UInt32.size]; omega)

/-- Slots are in their tables. -/
theorem slot_lt (h : Lined g order s) {α : Type} {key : α → String}
    {name? : Node → Option String} {table : List α} {name : String} {k : Nat}
    (hkeyed : Keyed key ((s.source g).mentioned name?) table)
    (hk : slotOf? key table name = some k) : (UInt32.ofNat k).toNat < table.length := by
  rw [h.toNat_slot hkeyed hk]
  exact (List.findIdx?_eq_some_iff_getElem.mp hk).1

/-- The program of a line consists of the instructions of its steps. -/
theorem consists (h : Lined g order s) (haddress : g.Addressable) {p : Program}
    (hp : program (s.source g) = .ok p) :
    ∃ is, CarryOut (s.source g) ⟨p.inputs, p.outputs, p.functions⟩ s.steps is ∧ p.Consists is := by
  obtain ⟨is, t, hcode, hinputs, houtputs, hfunctions, hregisters, hsparse, hcarry⟩ :=
    program_eq_ok hp
  obtain rfl : t = ⟨p.inputs, p.outputs, p.functions⟩ := by
    rw [hinputs, houtputs, hfunctions]
  have hread : p.instructions = Instruction.placed 0 is := by
    unfold Program.instructions
    rw [hcode]
    exact Instruction.readAll_encode is (hcarry.countable haddress)
  refine ⟨is, hcarry, ?_, ?_, ?_, ?_, ?_, ?_, ?_⟩
  · obtain ⟨es, hes, hwords⟩ := Instruction.exists_placed is 0
    exact ⟨es, hread.trans hes, hwords.trans hcode.symm⟩
  · rw [hread]
    exact Instruction.map_instruction_placed is 0
  · rw [program_instructionCount hp]
    exact hcarry.length_eq
  · intro i hi r hr
    obtain ⟨k, hk⟩ := List.getElem?_of_mem hi
    obtain ⟨v, interval, hv, -, rfl⟩ := h.register_made hcarry hk hr
    rw [hregisters]
    exact h.register_lt_count hv
  · intro i hi r hr
    obtain ⟨k, hk⟩ := List.getElem?_of_mem hi
    obtain ⟨step, n, hstep, hn, hreal⟩ := instruction_at hcarry hk
    obtain ⟨m, hm, hnone⟩ := h.faithful.outputs step (List.mem_of_getElem? hstep)
    rw [hn] at hm
    cases hm
    rw [hreal.result?] at hr
    cases hv : step.value with
    | none =>
      rw [if_pos (hnone.mp hv)] at hr
      cases hr
    | some v =>
      rw [if_neg (fun hout => by rw [hnone.mpr hout] at hv; cases hv), hv] at hr
      cases hr
      obtain ⟨interval, hinterval, -, -⟩ := h.faithful.starts k step v hstep hv
      rw [hregisters]
      exact h.register_lt_count hinterval
  · intro i hi
    obtain ⟨k, hk⟩ := List.getElem?_of_mem hi
    obtain ⟨step, n, -, -, hreal⟩ := instruction_at hcarry hk
    cases hreal with
    | load _ slot => exact h.slot_lt hsparse.inputs slot
    | storeConst _ slot _ _ _ => exact h.slot_lt hsparse.outputs slot
    | store _ slot _ _ => exact h.slot_lt hsparse.outputs slot
    | call _ _ slot _ => exact h.slot_lt hsparse.functions slot
    | _ => trivial
  · intro k i hk r hr
    obtain ⟨v, interval, hv, hstart, rfl⟩ := h.register_made hcarry hk hr
    obtain ⟨earlier, hearlier, hresult⟩ := h.result_made hcarry hv
    exact ⟨interval.start, earlier, hstart, hearlier, hresult⟩

end Schedule.Lined

/-- A graph whose nodes can be ranked is put into a line. -/
theorem Schedule.lined_of_ranked {g : Graph} {s : Schedule} {live : NodeId → Prop}
    {rank : NodeId → Nat} (hranked : g.Ranked live rank)
    (hrank : ∀ id, live id → rank id ≤ g.nodes.size) (houtputs : ∀ id ∈ g.outputs, live id)
    (hwords : g.nodes.size ≤ 2 ^ 32) (h : Schedule.ofGraph g = .ok s) :
    ∃ order, Schedule.Lined g order s := by
  obtain ⟨order, hwalk, rfl⟩ := Schedule.ofGraph_eq_ok h
  obtain ⟨hlisted, -⟩ := Graph.walk_listed hranked.graded hrank houtputs hwalk
  exact ⟨order.toList, hlisted, Schedule.foldl_append_faithful hlisted, hwords⟩

namespace Compiler

variable {config : CompilerConfig} {g : Graph} {p : Program}

/-- A program that is compiled comes from the pipeline, a line and its registers. -/
theorem compile_eq_ok (h : (compile config g).1 = .ok p) :
    g.outputs ≠ [] ∧ ∃ stages s,
      (Pipeline.run config.tracePasses).runOn g = (.ok stages, (compile config g).2) ∧
      Schedule.ofGraph (compile config g).2 = .ok s ∧
      program (s.source (compile config g).2) = .ok p := by
  unfold compile allocate at h ⊢
  cases houtputs : g.outputs with
  | nil =>
    rw [houtputs] at h
    cases h
  | cons first rest =>
    refine ⟨List.cons_ne_nil _ _, ?_⟩
    rw [houtputs] at h
    dsimp only [List.isEmpty] at h ⊢
    rw [if_neg Bool.false_ne_true] at h ⊢
    cases hrun : (Pipeline.run config.tracePasses).runOn g with
    | mk result g' =>
      rw [hrun] at h
      cases result with
      | error e => cases h
      | ok stages =>
        dsimp only at h ⊢
        cases hs : Schedule.ofGraph g' with
        | error e =>
          rw [hs] at h
          cases h
        | ok s =>
          rw [hs] at h
          dsimp only at h ⊢
          cases hverified : (if config.verifyAllocation = true then
              Allocation.verify s.intervals.toList (Allocation.ofIntervals s.intervals.toList)
            else .ok ()) with
          | error e =>
            rw [hverified] at h
            cases h
          | ok _ =>
            rw [hverified] at h
            exact ⟨stages, s, rfl, hs, h⟩

/-- The graph of a compiled program is put into a line, and the program is that of
the line. -/
theorem compile_lined (h : g.Made) (hcompile : (compile config g).1 = .ok p)
    (haddress : (compile config g).2.Addressable) :
    ∃ s order, Schedule.ofGraph (compile config g).2 = .ok s ∧
      Schedule.Lined (compile config g).2 order s ∧
      program (s.source (compile config g).2) = .ok p := by
  obtain ⟨-, stages, s, hrun, hschedule, hprogram⟩ := compile_eq_ok hcompile
  obtain ⟨rank, hordered⟩ :=
    (lands_of_runOn hrun).mp (Pipeline.run_orderly h.orderly config.tracePasses)
  have hacyclic := hordered.acyclic
  obtain ⟨order, hlined⟩ := Schedule.lined_of_ranked hacyclic.ranked
    (fun id _ => hacyclic.needRank_le id) (fun _ _ => trivial) haddress.positions hschedule
  exact ⟨s, order, hschedule, hlined, hprogram⟩

end Compiler

/-- The program of a graph that is made by factories, whose calls may have any
candidates, is well formed: its code is read back without error as one instruction
for each step of the line, the one at a place being that of the step at the same
place; registers, slots and functions are in bounds; and what is read was written
before. The positions of nodes have to be words. -/
theorem compile_consists (config : CompilerConfig) (g : Graph) (h : g.Made) (p : Program)
    (hcompile : (Compiler.compile config g).1 = .ok p)
    (haddress : (Compiler.compile config g).2.Addressable) :
    ∃ s is, Schedule.ofGraph (Compiler.compile config g).2 = .ok s ∧
      CarryOut (s.source (Compiler.compile config g).2) ⟨p.inputs, p.outputs, p.functions⟩ s.steps
        is ∧ p.Consists is := by
  obtain ⟨s, order, hschedule, hlined, hprogram⟩ := Compiler.compile_lined h hcompile haddress
  obtain ⟨is, hcarry, hconsists⟩ := hlined.consists haddress hprogram
  exact ⟨s, is, hschedule, hcarry, hconsists⟩

/-- A graph is addressable if none of its nodes has too many operands. -/
theorem Graph.addressable_of_all {g : Graph} (hsize : g.nodes.size ≤ 2 ^ 32)
    (hall : (g.nodes.all fun n => n.children.length < 2 ^ 32) = true) : g.Addressable where
  positions := hsize
  arguments id n candidates arguments hn hop := by
    have hfew := of_decide_eq_true (Array.all_eq_true_iff_forall_mem.mp hall n
      (Array.mem_of_getElem? hn))
    have hchildren : n.children = arguments := by
      rw [Node.children, hop]
      rfl
    rwa [hchildren] at hfew

namespace Square

/-- A stream with two components is read. -/
def reading : Graph := ((Build.input ⟨"a", .of .int 2⟩).runOn {}).2

/-- Its components are squared. -/
def squared : Graph := ((Build.binary .multiply 0 0).runOn reading).2

/-- The squares are written. -/
def graph : Graph := ((Build.output ⟨"r", .of .int 2⟩ 1).runOn squared).2

/-- The program loads, squares and stores one component after the other, in one
register. -/
def program : Program where
  code := [94, 0, 0, 33, 0, 0, 0, 96, 0, 0, 94, 0, 1, 33, 0, 0, 0, 96, 1, 0]
  inputs := [⟨"a.x", .of .int 1⟩, ⟨"a.y", .of .int 1⟩]
  outputs := [⟨"r.x", .of .int 1⟩, ⟨"r.y", .of .int 1⟩]
  instructionCount := 6
  registerCount := 1

/-- The graph is made by three factories. -/
theorem built : graph.Built := by
  have hreading : reading.Built := .made .empty (.input "a" .int 2) rfl
  have hsquared : squared.Built :=
    .made hreading (.binary .multiply (l := 0) (r := 0) (by decide) (by decide)) rfl
  exact .made hsquared (.output "r" .int 2 (x := 1) (by decide)) rfl

/-- The graph is compiled. -/
theorem compiled : (Compiler.compile {} graph).1 = .ok program := by
  unfold Compiler.compile Compiler.allocate Allocation.ofIntervals
  rw [Allocation.byStart_eq]
  decide +kernel

/-- The compiled graph is addressable. -/
theorem addressable : (Compiler.compile {} graph).2.Addressable := by
  unfold Compiler.compile Compiler.allocate Allocation.ofIntervals
  rw [Allocation.byStart_eq]
  exact Graph.addressable_of_all (by decide +kernel) (by decide +kernel)

end Square

/-- The program of the squares is well formed, although one register holds four
values. -/
theorem compile_consists_square :
    (Square.graph.Made ∧ (Compiler.compile {} Square.graph).1 = .ok Square.program ∧
      (Compiler.compile {} Square.graph).2.Addressable) ∧
    ∃ s is, Schedule.ofGraph (Compiler.compile {} Square.graph).2 = .ok s ∧
      CarryOut (s.source (Compiler.compile {} Square.graph).2)
        ⟨Square.program.inputs, Square.program.outputs, Square.program.functions⟩ s.steps is ∧
      Square.program.Consists is :=
  ⟨⟨.of_built Square.built, Square.compiled, Square.addressable⟩,
    compile_consists {} Square.graph (.of_built Square.built) Square.program Square.compiled
      Square.addressable⟩

end LaneGraph
