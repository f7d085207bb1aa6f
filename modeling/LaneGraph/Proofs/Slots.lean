import LaneGraph.Proofs.Supplies

/-!
# Slots and descriptions

Tables have one entry for each name, which describes the stream or function that
was mentioned first. So a slot has the name that its node asks for, but the
description of its node only if all streams and functions of one name are
described alike. In this case every instruction finds what it needs when the
program is executed.
-/

namespace LaneGraph

open Emission

/-- Entries with the same key are equal. -/
def OneEach {α : Type} (key : α → String) (entries : List α) : Prop :=
  ∀ a ∈ entries, ∀ b ∈ entries, key a = key b → a = b

instance {α : Type} [DecidableEq α] (key : α → String) (entries : List α) :
    Decidable (OneEach key entries) :=
  inferInstanceAs (Decidable (∀ a ∈ entries, ∀ b ∈ entries, key a = key b → a = b))

namespace Node

/-- The stream that a node reads. -/
def source? (n : Node) : Option Channel :=
  match n.op with
  | .input channel => some channel
  | _ => none

end Node

namespace Graph

/-- The streams that are declared as inputs or read. -/
def readChannels (g : Graph) : List Channel := g.inputs ++ g.nodes.toList.filterMap Node.source?

/-- The streams that are written by nodes. -/
def writtenChannels (g : Graph) : List Channel := g.nodes.toList.filterMap Node.channel?

/-- The functions that calls have chosen. -/
def calledFunctions (g : Graph) : List Signature := g.nodes.toList.filterMap g.chosen?

/-- Streams and functions of one name are described alike. -/
structure Agreeing (g : Graph) : Prop where
  inputs : OneEach Channel.name g.readChannels
  outputs : OneEach Channel.name g.writtenChannels
  functions : OneEach Signature.symbol g.calledFunctions

/-- What a node mentions is among what the nodes mention. -/
theorem mem_filterMap_nodes {α : Type} {g : Graph} {mention? : Node → Option α} {id : NodeId}
    {n : Node} {a : α} (hn : g.node? id = some n) (ha : mention? n = some a) :
    a ∈ g.nodes.toList.filterMap mention? :=
  List.mem_filterMap.mpr ⟨n, Array.mem_toList_iff.mpr (Array.mem_of_getElem? hn), ha⟩

end Graph

namespace Emission

/-- Looking for a slot adds nothing but the entry. -/
theorem mem_slot {α : Type} {key : α → String} {table : List α} {entry a : α}
    (h : a ∈ (slot key table entry).2) : a ∈ table ∨ a = entry := by
  unfold slot at h
  split at h
  · exact .inl h
  · rcases List.mem_append.mp h with hold | hnew
    · exact .inl hold
    · exact .inr (List.mem_singleton.mp hnew)

/-- The entries of tables describe streams and functions of the graph. -/
structure Tables.Describe (g : Graph) (t : Tables) : Prop where
  inputs : ∀ a ∈ t.inputs, a ∈ g.readChannels
  outputs : ∀ a ∈ t.outputs, a ∈ g.writtenChannels
  functions : ∀ a ∈ t.functions, a ∈ g.calledFunctions

/-- What a node mentions is described. -/
theorem Tables.Describe.mention {g : Graph} {t : Tables} (h : t.Describe g) {id : NodeId} {n : Node}
    (hn : g.node? id = some n) : (t.mention g n).Describe g := by
  unfold Tables.mention
  split
  · rename_i channel hop
    refine ⟨fun a ha => ?_, h.outputs, h.functions⟩
    rcases mem_slot ha with hold | rfl
    · exact h.inputs a hold
    · exact List.mem_append_right _
        (Graph.mem_filterMap_nodes hn (by unfold Node.source?; rw [hop]))
  · rename_i channel source hop
    refine ⟨h.inputs, fun a ha => ?_, h.functions⟩
    rcases mem_slot ha with hold | rfl
    · exact h.outputs a hold
    · exact Graph.mem_filterMap_nodes hn (by unfold Node.channel?; rw [hop])
  · split
    · rename_i f hchosen
      refine ⟨h.inputs, h.outputs, fun a ha => ?_⟩
      rcases mem_slot ha with hold | rfl
      · exact h.functions a hold
      · exact Graph.mem_filterMap_nodes hn hchosen
    · exact h
  · exact h

/-- The finished tables describe streams and functions of the graph. -/
theorem instructions_describe {s : Source} {steps : List Step} {t t' : Tables}
    {is : List Instruction} (ht : t.Describe s.graph)
    (h : instructions s t steps = .ok (is, t')) : t'.Describe s.graph := by
  induction steps generalizing t is with
  | nil =>
    cases h
    exact ht
  | cons step rest ih =>
    rw [instructions] at h
    obtain ⟨n, hn, h⟩ := bind_eq_ok.mp h
    obtain ⟨⟨i, mid⟩, hi, h⟩ := bind_eq_ok.mp h
    obtain ⟨⟨later, final⟩, hlater, h⟩ := bind_eq_ok.mp h
    cases h
    obtain ⟨rfl, -⟩ := instruction_realizes hi
    exact ih (ht.mention (Source.node_eq_ok hn)) hlater

/-- The tables start with declared inputs. -/
theorem declaredInputs_describe (s : Source) : (declaredInputs s).Describe s.graph := by
  have hfold : ∀ (channels : List Channel) (t : Tables), t.Describe s.graph →
      (∀ channel ∈ channels, channel ∈ s.graph.inputs) →
      (channels.foldl (fun t channel => (t.input channel).2) t).Describe s.graph := by
    intro channels
    induction channels with
    | nil => exact fun t ht _ => ht
    | cons channel rest ih =>
      intro t ht hdeclared
      refine ih _ ⟨fun a ha => ?_, ht.outputs, ht.functions⟩
        fun other hother => hdeclared other (List.mem_cons_of_mem _ hother)
      rcases mem_slot ha with hold | rfl
      · exact ht.inputs a hold
      · exact List.mem_append_left _ (hdeclared a List.mem_cons_self)
  refine hfold _ {} ⟨fun _ h => (nomatch h), fun _ h => (nomatch h), fun _ h => (nomatch h)⟩ ?_
  intro channel hchannel
  exact (List.mem_filter.mp hchannel).1

/-- The tables of a program describe streams and functions of the graph. -/
theorem program_describe {s : Source} {p : Program} (h : program s = .ok p) :
    (⟨p.inputs, p.outputs, p.functions⟩ : Tables).Describe s.graph := by
  unfold program at h
  obtain ⟨⟨is, t⟩, hrun, h⟩ := bind_eq_ok.mp h
  cases h
  exact instructions_describe (declaredInputs_describe s) hrun

/-- The slot of a key has the entry with that key, if there is only one. -/
theorem OneEach.entry {α : Type} {key : α → String} {entries table : List α}
    (h : OneEach key entries) (htable : ∀ a ∈ table, a ∈ entries) {a : α} (ha : a ∈ entries)
    {k : Nat} (hk : slotOf? key table (key a) = some k) : table[k]? = some a := by
  obtain ⟨hlt, hkey, -⟩ := List.findIdx?_eq_some_iff_getElem.mp hk
  rw [List.getElem?_eq_getElem hlt]
  exact congrArg some (h _ (htable _ (List.getElem_mem hlt)) a ha (beq_iff_eq.mp hkey))

end Emission

/-- The slot of an instruction has the description of the stream or function of a
node, and a transfer is of the kind of its stream. -/
def Instruction.RefersTo (p : Program) (g : Graph) (n : Node) : Instruction → Prop
  | load transfer _ slot => ∃ channel, n.op = .input channel ∧
      p.inputs[slot.toNat]? = some channel ∧ transfer = loadTransfer channel
  | store transfer slot _ | storeConst transfer slot _ => ∃ channel source,
      n.op = .output channel source ∧ p.outputs[slot.toNat]? = some channel ∧
        transfer = storeTransfer channel
  | call slot _ _ => ∃ f, g.chosen? n = some f ∧ p.functions[slot.toNat]? = some f
  | _ => True

/-- Where streams and functions of one name are described alike, instructions refer
to the descriptions of their nodes. -/
theorem Schedule.Lined.refersTo {g : Graph} {order : List NodeId} {s : Schedule} {p : Program}
    (h : Lined g order s) (hagree : g.Agreeing) (hp : program (s.source g) = .ok p)
    {is : List Instruction}
    (hcarry : CarryOut (s.source g) ⟨p.inputs, p.outputs, p.functions⟩ s.steps is) {k : Nat}
    {i : Instruction} (hi : is[k]? = some i) :
    ∃ step n, s.steps[k]? = some step ∧ g.node? step.node = some n ∧ i.RefersTo p g n := by
  obtain ⟨-, t, -, hinputs, houtputs, hfunctions, -, hsparse, -⟩ := program_eq_ok hp
  obtain rfl : t = ⟨p.inputs, p.outputs, p.functions⟩ := by
    rw [hinputs, houtputs, hfunctions]
  have hdescribe := program_describe hp
  obtain ⟨step, n, hstep, hn, hreal⟩ := instruction_at hcarry hi
  refine ⟨step, n, hstep, hn, ?_⟩
  cases hreal with
  | @load channel k op slot =>
    have hmem : channel ∈ g.readChannels := List.mem_append_right _
      (Graph.mem_filterMap_nodes hn (by unfold Node.source?; rw [op]))
    refine ⟨channel, op, ?_, rfl⟩
    rw [h.toNat_slot hsparse.inputs slot]
    exact OneEach.entry hagree.inputs hdescribe.inputs hmem slot
  | @storeConst channel source k _ _ _ op slot _ _ _ | @store channel source k _ op slot _ _ =>
    have hmem : channel ∈ g.writtenChannels :=
      Graph.mem_filterMap_nodes hn (by unfold Node.channel?; rw [op])
    refine ⟨channel, source, op, ?_, rfl⟩
    rw [h.toNat_slot hsparse.outputs slot]
    exact OneEach.entry hagree.outputs hdescribe.outputs hmem slot
  | @call _ _ f k _ op chosen slot _ =>
    refine ⟨f, chosen, ?_⟩
    rw [h.toNat_slot hsparse.functions slot]
    exact OneEach.entry hagree.functions hdescribe.functions (Graph.mem_filterMap_nodes hn chosen)
      slot
  | _ => trivial

/-- The transfer that loads a stream is of its kind. -/
theorem Emission.kind_loadTransfer (channel : Channel) :
    (loadTransfer channel).kind = channel.format.encoding.kind := by
  unfold loadTransfer
  cases channel.format.encoding <;> rfl

/-- An instruction that refers to the description of its node finds its slot when
the program is bound. -/
theorem Instruction.RefersTo.bound {p : Program} {g : Graph} {n : Node} {i : Instruction}
    (h : i.RefersTo p g n) {m : Machine} {inputs outputs : List Stream} {instances : Nat}
    {globals : Globals} {c : Context}
    (hbind : m.bind p inputs outputs instances globals = .ok c) : i.Bound c := by
  obtain ⟨hinputs, houtputs, hfunctions, -, -⟩ := Machine.bind_eq_ok hbind
  cases i with
  | load transfer r slot =>
    obtain ⟨channel, -, hentry, rfl⟩ := h
    obtain ⟨b, hb, hkind⟩ := Binding.bindInputs_kind hinputs hentry
    exact ⟨b, hb, hkind.trans (kind_loadTransfer channel).symm⟩
  | store transfer slot r | storeConst transfer slot w =>
    obtain ⟨channel, source, -, hentry, -⟩ := h
    unfold Bound
    rw [Binding.length_bindOutputs houtputs]
    exact (List.getElem?_eq_some_iff.mp hentry).1
  | call slot r arguments =>
    obtain ⟨f, -, hentry⟩ := h
    unfold Bound
    rw [length_of_mapM_eq_ok hfunctions]
    exact (List.getElem?_eq_some_iff.mp hentry).1
  | _ => trivial

/-- The instructions of a compiled program refer to the descriptions of their nodes,
and none of them is malformed when it is executed, as long as the streams and
functions of one name are described alike in the graph that is put into a line. -/
theorem compile_refersTo (config : CompilerConfig) (g : Graph) (h : g.Made) (p : Program)
    (hcompile : (Compiler.compile config g).1 = .ok p)
    (haddress : (Compiler.compile config g).2.Addressable)
    (hagree : (Compiler.compile config g).2.Agreeing) :
    ∃ s is, Schedule.ofGraph (Compiler.compile config g).2 = .ok s ∧
      CarryOut (s.source (Compiler.compile config g).2) ⟨p.inputs, p.outputs, p.functions⟩ s.steps
        is ∧ p.Consists is ∧
      (∀ (k : Nat) (i : Instruction), is[k]? = some i → ∃ step n, s.steps[k]? = some step ∧
        (Compiler.compile config g).2.node? step.node = some n ∧
          i.RefersTo p (Compiler.compile config g).2 n) ∧
      ∀ (m : Machine) (inputs outputs : List Stream) (instances : Nat) (globals : Globals)
        (e : MachineError), (m.execute p inputs outputs instances globals).1.error = some e →
          e.isMalformed = false := by
  obtain ⟨s, order, hschedule, hlined, hprogram⟩ := Compiler.compile_lined h hcompile haddress
  obtain ⟨is, hcarry, hconsists⟩ := hlined.consists haddress hprogram
  have hrefers := fun (k : Nat) (i : Instruction) (hi : is[k]? = some i) =>
    hlined.refersTo hagree hprogram hcarry hi
  refine ⟨s, is, hschedule, hcarry, hconsists, hrefers, ?_⟩
  intro m inputs outputs instances globals e he
  refine hconsists.execute_notMalformed (fun c hbind i hi => ?_) he
  obtain ⟨k, hk⟩ := List.getElem?_of_mem hi
  obtain ⟨step, n, -, -, hrefersTo⟩ := hrefers k i hk
  exact hrefersTo.bound hbind

namespace Copied

/-- A stream is read. -/
def reading : Graph := ((Build.input ⟨"a", .of .int 1⟩).runOn {}).2

/-- It is written to another one. -/
def graph : Graph := ((Build.output ⟨"o", .of .byte 1⟩ 0).runOn reading).2

/-- The program loads and stores. -/
def program : Program where
  code := [94, 0, 0, 96, 0, 0]
  inputs := [⟨"a", .of .int 1⟩]
  outputs := [⟨"o", .of .byte 1⟩]
  instructionCount := 2
  registerCount := 1

/-- The graph is made by two factories. -/
theorem built : graph.Built := by
  have hreading : reading.Built := .made .empty (.input "a" .int 1) rfl
  exact .made hreading (.output "o" .byte 1 (x := 0) (by decide)) rfl

/-- The graph is compiled. -/
theorem compiled : (Compiler.compile {} graph).1 = .ok program := by
  unfold Compiler.compile Compiler.allocate Allocation.ofIntervals
  rw [Allocation.byStart_eq]
  decide +kernel

/-- The compiled graph is addressable. -/
theorem addressable : (Compiler.compile {} graph).2.Addressable := by
  unfold Compiler.compile Compiler.allocate Allocation.ofIntervals
  rw [Allocation.byStart_eq]
  exact Graph.addressable_of_all (by decide +kernel) (by decide +kernel)

/-- There is one stream of each name. -/
theorem agreeing : (Compiler.compile {} graph).2.Agreeing := by
  unfold Compiler.compile Compiler.allocate Allocation.ofIntervals
  rw [Allocation.byStart_eq]
  exact ⟨by decide +kernel, by decide +kernel, by decide +kernel⟩

end Copied

/-- The instructions that copy a stream of integers to one of bytes refer to both
streams, and none of them is malformed. -/
theorem compile_refersTo_copied :
    (Copied.graph.Made ∧ (Compiler.compile {} Copied.graph).1 = .ok Copied.program ∧
      (Compiler.compile {} Copied.graph).2.Addressable ∧
      (Compiler.compile {} Copied.graph).2.Agreeing) ∧
    ∃ s is, Schedule.ofGraph (Compiler.compile {} Copied.graph).2 = .ok s ∧
      CarryOut (s.source (Compiler.compile {} Copied.graph).2)
        ⟨Copied.program.inputs, Copied.program.outputs, Copied.program.functions⟩ s.steps is ∧
      Copied.program.Consists is ∧
      (∀ (k : Nat) (i : Instruction), is[k]? = some i → ∃ step n, s.steps[k]? = some step ∧
        (Compiler.compile {} Copied.graph).2.node? step.node = some n ∧
          i.RefersTo Copied.program (Compiler.compile {} Copied.graph).2 n) ∧
      ∀ (m : Machine) (inputs outputs : List Stream) (instances : Nat) (globals : Globals)
        (e : MachineError),
        (m.execute Copied.program inputs outputs instances globals).1.error = some e →
          e.isMalformed = false :=
  ⟨⟨.of_built Copied.built, Copied.compiled, Copied.addressable, Copied.agreeing⟩,
    compile_refersTo {} Copied.graph (.of_built Copied.built) Copied.program Copied.compiled
      Copied.addressable Copied.agreeing⟩

namespace Mixed

/-- A stream of numbers is read. -/
def first : Graph := ((Build.input ⟨"a", .of .float 1⟩).runOn {}).2

/-- A stream of integers with the same name is read. -/
def second : Graph := ((Build.input ⟨"a", .of .int 1⟩).runOn first).2

/-- The numbers are written. -/
def third : Graph := ((Build.output ⟨"o", .of .float 1⟩ 0).runOn second).2

/-- The integers are written. -/
def graph : Graph := ((Build.output ⟨"p", .of .int 1⟩ 1).runOn third).2

/-- The program has one input, the stream of numbers, and loads it as integers as
well. -/
def program : Program where
  code := [93, 0, 0, 95, 0, 0, 94, 0, 0, 96, 1, 0]
  inputs := [⟨"a", .of .float 1⟩]
  outputs := [⟨"o", .of .float 1⟩, ⟨"p", .of .int 1⟩]
  instructionCount := 4
  registerCount := 1

/-- The number one. -/
def input : Stream := .ofBytes ⟨"a", .of .float 1⟩ #[0, 0, 128, 63]

/-- The graph is made by four factories. -/
theorem built : graph.Built := by
  have hfirst : first.Built := .made .empty (.input "a" .float 1) rfl
  have hsecond : second.Built := .made hfirst (.input "a" .int 1) rfl
  have hthird : third.Built := .made hsecond (.output "o" .float 1 (x := 0) (by decide)) rfl
  exact .made hthird (.output "p" .int 1 (x := 1) (by decide)) rfl

end Mixed

/-- Streams of one name that are described differently share a slot, so the program
fails when it loads the wrong kind. -/
theorem compile_shares_slot :
    Mixed.graph.Built ∧ (Compiler.compile {} Mixed.graph).1 = .ok Mixed.program ∧
      (({} : Machine).execute Mixed.program [Mixed.input] [] 1 []).1.error =
        some (.malformed 6 (.wrongStream (.load .int) .float)) :=
  ⟨Mixed.built, by cbv, by decide⟩

end LaneGraph
