import LaneGraph.Proofs.Closure
import LaneGraph.Proofs.Compilation
import LaneGraph.Proofs.Slots

/-!
# Slots of different streams

A scalar stream is served by the slot of its name, and a vector stream by the
slots of its components, whose names are made up while vectors are split. Tables
have one slot for each name, so streams share a slot only if a name is made up
that somebody has chosen. This happens when a scalar stream is named like a
component of a vector stream, and in no other case. Every slot serves a stream of
the graph, since no pass makes up names other than those of components.
-/

namespace LaneGraph

open Build Emission

namespace Channel

/-- The names of the slots that serve a stream. -/
def slotNames (c : Channel) : List String := (List.range c.format.count).map c.scalarName

/-- A scalar stream that is named like a component of a vector stream. -/
structure NamesPart (a b : Channel) : Prop where
  scalar : a.format.count = 1
  vector : 1 < b.format.count
  name : a.name ∈ b.slotNames

/-- The stream is one of several, or a component of one that is a vector. -/
def Stems (channels : List Channel) (c : Channel) : Prop :=
  ∃ b ∈ channels, c = b ∨ 1 < b.format.count ∧ ∃ k : Component,
    k.index < b.format.count ∧ c = b.component k

variable {a b c : Channel} {channels : List Channel}

/-- A scalar stream is served by the slot of its name. -/
theorem slotNames_scalar (h : c.format.count = 1) : c.slotNames = [c.name] := by
  unfold slotNames scalarName
  rw [h]
  rfl

/-- A vector stream is served by the slots of its components. -/
theorem mem_slotNames_vector (h : 1 < c.format.count) {name : String} :
    name ∈ c.slotNames ↔ ∃ i < c.format.count, (c.component (Component.ofIndex i)).name = name := by
  have hname : ∀ i, c.scalarName i = (c.component (Component.ofIndex i)).name := by
    intro i
    unfold scalarName
    rw [if_neg (by omega)]
  simp [slotNames, hname]

/-- Streams of different names have no slot in common, unless one is a scalar that is
named like a component of the other. -/
theorem slotNames_disjoint (hname : a.name ≠ b.name) (hab : ¬a.NamesPart b) (hba : ¬b.NamesPart a)
    {name : String} (ha : name ∈ a.slotNames) : name ∉ b.slotNames := by
  intro hb
  have hcount : ∀ {c : Channel}, name ∈ c.slotNames → c.format.count = 1 ∨ 1 < c.format.count := by
    intro c hc
    obtain ⟨i, hi, -⟩ := List.mem_map.mp hc
    have hlt := List.mem_range.mp hi
    omega
  rcases hcount ha with hone | hmany
  · rw [slotNames_scalar hone, List.mem_singleton] at ha
    subst ha
    rcases hcount hb with hone' | hmany'
    · rw [slotNames_scalar hone', List.mem_singleton] at hb
      exact hname hb
    · exact hab ⟨hone, hmany', hb⟩
  · rcases hcount hb with hone' | hmany'
    · rw [slotNames_scalar hone', List.mem_singleton] at hb
      subst hb
      exact hba ⟨hone', hmany, ha⟩
    · obtain ⟨i, -, hi⟩ := (mem_slotNames_vector hmany).mp ha
      obtain ⟨j, -, hj⟩ := (mem_slotNames_vector hmany').mp hb
      exact hname (component_name_inj (hi.trans hj.symm)).1

/-- A component of a vector stream stems from what the stream stems from. -/
theorem Stems.component (h : c.Stems channels) (hvector : 1 < c.format.count) {k : Component}
    (hk : k.index < c.format.count) : (c.component k).Stems channels := by
  obtain ⟨b, hb, rfl | ⟨-, l, -, rfl⟩⟩ := h
  · exact ⟨c, hb, .inr ⟨hvector, k, hk, rfl⟩⟩
  · exact absurd hvector (by decide : ¬1 < 1)

/-- The slot of a scalar stream serves one of the streams it stems from. -/
theorem Stems.served (h : c.Stems channels) (hscalar : c.format.count = 1) :
    ∃ b ∈ channels, c.name ∈ b.slotNames := by
  obtain ⟨b, hb, rfl | ⟨hvector, k, hk, rfl⟩⟩ := h
  · refine ⟨c, hb, ?_⟩
    rw [slotNames_scalar hscalar]
    exact List.mem_singleton_self _
  · refine ⟨b, hb, (mem_slotNames_vector hvector).mpr ⟨k.index, hk, ?_⟩⟩
    cases k <;> rfl

end Channel

/-! ## Streams of a graph through the pipeline -/

namespace Graph

variable {g : Graph}

/-- The streams of a graph with the components of those that are vectors. -/
def streams (g : Graph) : Streams where
  reads := Channel.Stems g.readChannels
  writes := Channel.Stems g.writtenChannels
  reads_component h hvector hk := h.component hvector hk
  writes_component h hvector hk := h.component hvector hk

/-- What factories make mentions its own streams only. -/
theorem Made.orderly_streams (h : g.Made) : Orderly g.streams g := by
  obtain ⟨rank, hordered⟩ := h.orderly
  refine ⟨rank, fun {id n} hn => ?_, hordered.outputs, hordered.representatives⟩
  have hnode := hordered.node hn
  refine ⟨?_, hnode.width, hnode.inputWidth, hnode.child, hnode.below, hnode.recorded⟩
  have hadmits := hnode.admits
  unfold Streams.Admits at hadmits ⊢
  split
  · rename_i channel hop
    rw [hop] at hadmits
    have hmem : channel ∈ g.readChannels := List.mem_append_right _
      (mem_filterMap_nodes hn (by unfold Node.source?; rw [hop]))
    exact ⟨⟨channel, hmem, .inl rfl⟩, hadmits.2⟩
  · rename_i channel source hop
    have hmem : channel ∈ g.writtenChannels :=
      mem_filterMap_nodes hn (by unfold Node.channel?; rw [hop])
    exact ⟨channel, hmem, .inl rfl⟩
  · trivial

end Graph

namespace Compiler

variable {config : CompilerConfig} {g : Graph} {p : Program}

/-- A compiled graph mentions streams of the graph and components of those that are
vectors. -/
theorem compile_orderly (h : g.Made) (hcompile : (compile config g).1 = .ok p) :
    Orderly g.streams (compile config g).2 := by
  obtain ⟨-, stages, s, hrun, -, -⟩ := compile_eq_ok hcompile
  exact (lands_of_runOn hrun).mp (Pipeline.run_orderly h.orderly_streams config.tracePasses)

/-- The nodes of a compiled line read and write scalar streams. -/
theorem compile_scalar (h : g.Built) (hcompile : (compile config g).1 = .ok p) {s : Schedule}
    (hschedule : Schedule.ofGraph (compile config g).2 = .ok s) {step : Step}
    (hstep : step ∈ s.steps) {n : Node} (hn : (compile config g).2.node? step.node = some n) :
    (∀ channel, n.op = .input channel → channel.format.count = 1) ∧
      ∀ channel source, n.op = .output channel source → channel.format.count = 1 := by
  obtain ⟨houtputs, stages, -, hrun, -, -⟩ := compile_eq_ok hcompile
  obtain ⟨w, hdraft⟩ := h.draft
  obtain ⟨w', hsound, hwrites⟩ :=
    (Pipeline.run_ends hdraft houtputs config.tracePasses).of_runOn hrun
  obtain ⟨rank, hranked, hrank⟩ := hsound.ranked fun _ => Nat.le_refl 1
  obtain ⟨order, hwalk, rfl⟩ := Schedule.ofGraph_eq_ok hschedule
  obtain ⟨hlisted, hmem⟩ := Graph.walk_listed hranked.graded hrank (fun id => hwrites.live) hwalk
  have hfaithful := Schedule.foldl_append_faithful hlisted
  -- What is put into the line matters, so it is a typed scalar node.
  have hlive : w'.live step.node := by
    have hin : step.node ∈ order.toList := by
      rw [← hfaithful.nodes]
      exact List.mem_map_of_mem hstep
    obtain ⟨output, houtput, hreach⟩ := (hmem step.node).mp hin
    exact (hranked.graded.reaches (hwrites.live houtput) hreach).1
  have hnode := hsound.nodeSound hlive hn
  have hwidth :=
    Node.width_of_narrow (n.narrow_frame ▸ Folding.narrow_of_form hnode.fits.2.1)
  have htyped := hnode.typed trivial
  have hscalar : ∀ {channel : Channel}, 1 ≤ channel.format.count → channel.format.count ≤ 4 →
      n.shape = channel.format.shape → channel.format.count = 1 := by
    intro channel hpos hle hshape
    rw [hshape] at hwidth
    unfold Format.shape Shape.of at hwidth
    split at hwidth
    · cases hwidth
    · dsimp only at hwidth
      omega
  constructor
  · intro channel hop
    unfold Node.Typed at htyped
    rw [hop] at htyped
    obtain ⟨-, hpos, hle, hshape⟩ := htyped
    exact hscalar hpos hle hshape
  · intro channel source hop
    unfold Node.Typed at htyped
    rw [hop] at htyped
    obtain ⟨-, hpos, hle, hshape⟩ := htyped
    exact hscalar hpos hle hshape

end Compiler

/-- The slots of a table keep streams apart. There is one slot for each name, every slot
is named like a stream or like a component of one that is a vector, and streams of
different names have no slot in common unless one is a scalar that is named like a
component of the other. -/
structure SlotsApart (slots streams : List Channel) : Prop where
  distinct : (slots.map Channel.name).Nodup
  named : ∀ slot ∈ slots, ∃ c : Channel, c.Stems streams ∧ c.name = slot.name
  disjoint : ∀ a ∈ streams, ∀ b ∈ streams, a.name ≠ b.name → ¬a.NamesPart b → ¬b.NamesPart a →
    ∀ slot ∈ slots, slot.name ∈ a.slotNames → slot.name ∉ b.slotNames

/-- Every slot of a table serves a stream. -/
def SlotsServe (slots streams : List Channel) : Prop :=
  ∀ slot ∈ slots, ∃ c ∈ streams, slot.name ∈ c.slotNames

section

variable {s : Source} {name? : Node → Option String} {slots streams : List Channel}

/-- The name of a slot is mentioned by a node of the line. -/
theorem Emission.Keyed.exists_node (h : Keyed Channel.name (s.mentioned name?) slots)
    {slot : Channel} (hslot : slot ∈ slots) : ∃ step ∈ s.schedule.steps, ∃ n,
      s.graph.node? step.node = some n ∧ name? n = some slot.name := by
  obtain ⟨step, hstep, hname⟩ := List.mem_filterMap.mp (h.known slot hslot)
  exact ⟨step, hstep, Option.bind_eq_some_iff.mp hname⟩

/-- The slots of a table keep streams apart that the nodes of a line stem from. -/
theorem SlotsApart.of_keyed (h : Keyed Channel.name (s.mentioned name?) slots)
    (hstems : ∀ id n, s.graph.node? id = some n → ∀ name, name? n = some name →
      ∃ c : Channel, c.Stems streams ∧ c.name = name) : SlotsApart slots streams where
  distinct := h.nodup
  named slot hslot := by
    obtain ⟨step, -, n, hn, hname⟩ := h.exists_node hslot
    exact hstems step.node n hn slot.name hname
  disjoint _ _ _ _ hname hab hba _ _ ha := Channel.slotNames_disjoint hname hab hba ha

end

/-- A node that mentions the name of an input reads a stream of that name. -/
theorem Emission.inputName?_eq_some {n : Node} {name : String} (h : inputName? n = some name) :
    ∃ channel, n.op = .input channel ∧ channel.name = name := by
  unfold inputName? at h
  split at h
  · rename_i channel hop
    cases h
    exact ⟨channel, hop, rfl⟩
  · cases h

/-- A node that mentions the name of an output writes a stream of that name. -/
theorem Emission.outputName?_eq_some {n : Node} {name : String}
    (h : Emission.outputName? n = some name) :
    ∃ channel source, n.op = .output channel source ∧ channel.name = name := by
  unfold Emission.outputName? at h
  split at h
  · rename_i channel source hop
    cases h
    exact ⟨channel, source, hop, rfl⟩
  · cases h

/-- In a compiled program the slots keep streams of the graph apart, those that are read
and those that are written. In particular, streams of different names have no slot in
common unless one is a scalar that is named like a component of the other. Every slot
serves a stream if calls have at most 256 candidates, none of which requires more
arguments than it takes. -/
theorem compile_keeps_slots_apart (config : CompilerConfig) (g : Graph) (h : g.Made) (p : Program)
    (hcompile : (Compiler.compile config g).1 = .ok p) :
    SlotsApart p.inputs g.readChannels ∧ SlotsApart p.outputs g.writtenChannels ∧
    (g.Built → SlotsServe p.inputs g.readChannels ∧ SlotsServe p.outputs g.writtenChannels) := by
  obtain ⟨rank, hordered⟩ := Compiler.compile_orderly h hcompile
  obtain ⟨-, stages, s, -, hschedule, hprogram⟩ := Compiler.compile_eq_ok hcompile
  obtain ⟨-, t, -, hinputs, houtputs, -, -, hsparse, -⟩ := program_eq_ok hprogram
  have hreads : ∀ id n, (Compiler.compile config g).2.node? id = some n → ∀ channel,
      n.op = .input channel → channel.Stems g.readChannels := by
    intro id n hn channel hop
    have hadmits := (hordered.node hn).admits
    rw [hop] at hadmits
    exact hadmits.1
  have hwrites : ∀ id n, (Compiler.compile config g).2.node? id = some n → ∀ channel source,
      n.op = .output channel source → channel.Stems g.writtenChannels := by
    intro id n hn channel source hop
    have hadmits := (hordered.node hn).admits
    rw [hop] at hadmits
    exact hadmits
  rw [hinputs, houtputs]
  refine ⟨.of_keyed hsparse.inputs ?_, .of_keyed hsparse.outputs ?_, fun hbuilt => ⟨?_, ?_⟩⟩
  · intro id n hn name hname
    obtain ⟨channel, hop, rfl⟩ := inputName?_eq_some hname
    exact ⟨channel, hreads id n hn channel hop, rfl⟩
  · intro id n hn name hname
    obtain ⟨channel, source, hop, rfl⟩ := outputName?_eq_some hname
    exact ⟨channel, hwrites id n hn channel source hop, rfl⟩
  · intro slot hslot
    obtain ⟨step, hstep, n, hn, hname⟩ := hsparse.inputs.exists_node hslot
    obtain ⟨channel, hop, hname⟩ := inputName?_eq_some hname
    rw [← hname]
    have hscalar := (Compiler.compile_scalar hbuilt hcompile hschedule hstep hn).1 channel hop
    exact (hreads _ n hn channel hop).served hscalar
  · intro slot hslot
    obtain ⟨step, hstep, n, hn, hname⟩ := hsparse.outputs.exists_node hslot
    obtain ⟨channel, source, hop, hname⟩ := outputName?_eq_some hname
    rw [← hname]
    have hscalar :=
      (Compiler.compile_scalar hbuilt hcompile hschedule hstep hn).2 channel source hop
    exact (hwrites _ n hn channel source hop).served hscalar

namespace Copying

/-- A stream with two components is read. -/
def vector : Graph := ((Build.input ⟨"a", .of .float 2⟩).runOn {}).2

/-- A scalar stream of some name is read. -/
def scalar (name : String) : Graph := ((Build.input ⟨name, .of .float 1⟩).runOn vector).2

/-- The vector is written. -/
def first (name : String) : Graph :=
  ((Build.output ⟨"o", .of .float 2⟩ 0).runOn (scalar name)).2

/-- The scalar is written. -/
def graph (name : String) : Graph :=
  ((Build.output ⟨"p", .of .float 1⟩ 1).runOn (first name)).2

/-- The program copies three scalar streams. -/
def apart : Program where
  code := [93, 0, 0, 95, 0, 0, 93, 0, 1, 95, 1, 0, 93, 0, 2, 95, 2, 0]
  inputs := [⟨"a.x", .of .float 1⟩, ⟨"a.y", .of .float 1⟩, ⟨"b", .of .float 1⟩]
  outputs := [⟨"o.x", .of .float 1⟩, ⟨"o.y", .of .float 1⟩, ⟨"p", .of .float 1⟩]
  instructionCount := 6
  registerCount := 1

/-- The program reads two scalar streams only, and writes one of them twice. -/
def shared : Program where
  code := [93, 0, 0, 95, 0, 0, 93, 1, 1, 95, 1, 1, 95, 2, 0]
  inputs := [⟨"a.x", .of .float 1⟩, ⟨"a.y", .of .float 1⟩]
  outputs := [⟨"o.x", .of .float 1⟩, ⟨"o.y", .of .float 1⟩, ⟨"p", .of .float 1⟩]
  instructionCount := 5
  registerCount := 2

/-- The graph is made by four factories. -/
theorem built {name : String} (h : name = "b" ∨ name = "a.x") : (graph name).Built := by
  have hvector : vector.Built := .made .empty (.input "a" .float 2) rfl
  have hscalar : (scalar name).Built := by
    rcases h with rfl | rfl
    · exact .made hvector (.input "b" .float 1) rfl
    · exact .made hvector (.input "a.x" .float 1) rfl
  have hfirst : (first name).Built := by
    rcases h with rfl | rfl <;>
      exact .made hscalar (.output "o" .float 2 (x := 0) (by decide)) rfl
  rcases h with rfl | rfl <;> exact .made hfirst (.output "p" .float 1 (x := 1) (by decide)) rfl

/-- The graph is compiled. -/
theorem compiled : (Compiler.compile {} (graph "b")).1 = .ok apart := by
  unfold Compiler.compile Compiler.allocate Allocation.ofIntervals
  rw [Allocation.byStart_eq]
  decide +kernel

end Copying

/-- A vector and a scalar stream are served by slots of their own. -/
theorem compile_keeps_slots_apart_paired :
    ((Copying.graph "b").Made ∧ (Compiler.compile {} (Copying.graph "b")).1 = .ok Copying.apart) ∧
    SlotsApart Copying.apart.inputs (Copying.graph "b").readChannels ∧
    SlotsApart Copying.apart.outputs (Copying.graph "b").writtenChannels ∧
    SlotsServe Copying.apart.inputs (Copying.graph "b").readChannels ∧
    SlotsServe Copying.apart.outputs (Copying.graph "b").writtenChannels := by
  have hbuilt := Copying.built (.inl rfl : "b" = "b" ∨ "b" = "a.x")
  have hmade := Graph.Made.of_built hbuilt
  obtain ⟨hinputs, houtputs, hserve⟩ :=
    compile_keeps_slots_apart {} (Copying.graph "b") hmade Copying.apart Copying.compiled
  exact ⟨⟨hmade, Copying.compiled⟩, hinputs, houtputs, hserve hbuilt⟩

/-- A scalar stream that is named like a component of a vector stream shares its slot
with it. -/
theorem compile_shares_part :
    (Copying.graph "a.x").Built ∧
    (Compiler.compile {} (Copying.graph "a.x")).1 = .ok Copying.shared ∧
    ∃ a ∈ (Copying.graph "a.x").readChannels, ∃ b ∈ (Copying.graph "a.x").readChannels,
      a.name ≠ b.name ∧
      ∃ slot ∈ Copying.shared.inputs, slot.name ∈ a.slotNames ∧ slot.name ∈ b.slotNames :=
  ⟨Copying.built (.inr rfl), by cbv, ⟨"a", .of .float 2⟩, by decide, ⟨"a.x", .of .float 1⟩,
    by decide, by decide, ⟨"a.x", .of .float 1⟩, by decide, by decide, by decide⟩

end LaneGraph
