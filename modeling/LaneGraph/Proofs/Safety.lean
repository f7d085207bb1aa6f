import LaneGraph.Proofs.Binding
import LaneGraph.Proofs.Steps

/-!
# Any program is executed safely

Code words, tables and operands may be anything: an execution ends, and if
something is wrong it says so. Reading instructions, binding and every single
step either report a cause or go on; the streams keep their lengths on the way,
so what was in bounds when the slots were bound stays in bounds. The registers
have to be few enough to be addressed at all.
-/

namespace LaneGraph

/-- A computation gives a result with a property, or reports why there is none. -/
def Reports {α : Type} (x : Except MachineError α) (post : α → Prop) : Prop :=
  match x with
  | .ok a => post a
  | .error e => e.isFault = false

/-- What is reported is no fault. -/
theorem Reports.iff_returns {α : Type} {x : Except MachineError α} {post : α → Prop} :
    Reports x post ↔ Returns (fun e => e.isFault = false) post x := by
  cases x with
  | error e => exact ⟨fun h => .of_error h, fun h => h.error e rfl⟩
  | ok a => exact ⟨fun h => .of_ok h, fun h => h.ok a rfl⟩

/-! ## Binding -/

/-- The cause is found while binding, and no instruction is read. It is no fault unless
something cannot be addressed. -/
def MachineError.FoundByBinding (addressed : Prop) (e : MachineError) : Prop :=
  e.isMalformed = false ∧ (addressed → e.isFault = false)

/-- A cause that is reported is found. -/
theorem MachineError.FoundByBinding.of_reported {addressed : Prop} {e : MachineError}
    (hfault : e.isFault = false) (hmalformed : e.isMalformed = false) :
    e.FoundByBinding addressed :=
  ⟨hmalformed, fun _ => hfault⟩

namespace Binding

/-- Places are found, or their number is reported. -/
theorem places_returns (addressed : Prop) (side : Side) (flags : ExecuteFlags)
    (allowMissing : Bool) (streams slots : List Channel) :
    Returns (MachineError.FoundByBinding addressed)
      (fun found => ∀ p, some p ∈ found → p.Fits streams)
      (places side flags allowMissing streams slots) := by
  refine ⟨fun found hfound => places_fit hfound, fun e he => ?_⟩
  unfold places at he
  split at he
  · cases he
  · dsimp only at he
    by_cases hfits : (if allowMissing = true then streams.length ≤ slots.length
        else streams.length = slots.length)
    · rw [if_pos hfits] at he
      cases he
    · rw [if_neg hfits] at he
      cases he
      exact .of_reported rfl rfl

/-- A view is found, or what is wrong with the stream is reported. Only a stream that
leaves the address space makes binding break off. -/
theorem view_returns {component : Option Component} {s : Stream} (slot : Channel)
    (instances : Nat) (hfits : ∀ c, component = some c → c.index < s.channel.format.count) :
    Returns (MachineError.FoundByBinding (s.extent instances < addressSpace)) (fun _ => True)
      (view .faults slot component s instances) := by
  unfold view
  dsimp only
  split
  · exact .of_error (.of_reported rfl rfl)
  · rename_i hkind
    rw [not_or, not_and, Decidable.not_not, Decidable.not_not] at hkind
    split
    · rename_i hoverflow
      refine .of_error ⟨rfl, fun haddressed => ?_⟩
      have hserves := serves_of_fits
        (fun hnone => hkind.2 (by rw [hnone]; rfl)) hfits
      have hreach := Nat.lt_of_le_of_lt (hserves.reach_le instances) haddressed
      have hpos : 1 ≤ instances := by
        by_contra hzero
        rw [requiredBytes?, if_pos (by omega)] at hoverflow
        cases hoverflow
      have hrequired := (ElementView.requiredBytes?_eq _ .faults hpos).trans
        (Overflow.faults.address?_of_lt hreach)
      cases hoverflow.symm.trans hrequired
    · split
      · exact .of_error (.of_reported rfl rfl)
      · exact .of_ok trivial

section

variable {streams : List Stream} {place : Option Place}

/-- An input slot is bound, or the cause is found. -/
theorem bindInput_returns (instances : Nat) (slot : Channel)
    (hfits : ∀ p, place = some p → p.Fits (streams.map (·.channel))) :
    Returns (MachineError.FoundByBinding (Addressed streams instances)) (fun _ => True)
      (bindInput streams instances slot place) := by
  unfold bindInput
  split
  · exact .of_error (.of_reported rfl rfl)
  · rename_i p s hplace
    obtain ⟨hp, hs⟩ := place_eq_some hplace
    refine ((view_returns slot instances ((hfits p hp).component hs)).mono fun e he =>
      ⟨he.1, fun haddressed => he.2 (haddressed s (List.mem_of_getElem? hs))⟩).bind fun _ _ =>
        .of_ok trivial

/-- An output slot is bound, or the cause is found. -/
theorem bindOutput_returns (flags : ExecuteFlags) (instances : Nat) (slot : Channel)
    (hfits : ∀ p, place = some p → p.Fits (streams.map (·.channel))) :
    Returns (MachineError.FoundByBinding (Addressed streams instances)) (fun _ => True)
      (bindOutput flags streams instances slot place) := by
  unfold bindOutput
  split
  · split
    · exact .of_ok trivial
    · exact .of_error (.of_reported rfl rfl)
  · rename_i p s hplace
    obtain ⟨hp, hs⟩ := place_eq_some hplace
    refine ((view_returns slot instances ((hfits p hp).component hs)).mono fun e he =>
      ⟨he.1, fun haddressed => he.2 (haddressed s (List.mem_of_getElem? hs))⟩).bind fun _ _ =>
        .of_ok trivial

end

/-- A function is found, or the cause is reported. -/
theorem bindFunction_returns (addressed : Prop) (functions : List Function) (slot : Signature) :
    Returns (MachineError.FoundByBinding addressed) (fun _ => True)
      (bindFunction functions slot) := by
  unfold bindFunction
  split
  · exact .of_error (.of_reported rfl rfl)
  · split
    · exact .of_ok trivial
    · exact .of_error (.of_reported rfl rfl)

end Binding

/-- A program is bound, or the cause is found. -/
theorem Machine.bind_returns (m : Machine) (p : Program) (inputs outputs : List Stream)
    (instances : Nat) (globals : Globals) :
    Returns (MachineError.FoundByBinding (Addressed inputs instances ∧ Addressed outputs instances))
      (fun _ => True) (m.bind p inputs outputs instances globals) := by
  have hinputs : Returns (MachineError.FoundByBinding (Addressed inputs instances))
      (fun _ => True) (Binding.bindInputs m.flags p inputs instances) :=
    (Binding.places_returns _ _ _ _ _ _).bind fun _ hfits =>
      .mapM fun _ hmem => Binding.bindInput_returns _ _ fun q hq =>
        hfits q (hq ▸ (List.of_mem_zip hmem).2)
  have houtputs : Returns (MachineError.FoundByBinding (Addressed outputs instances))
      (fun _ => True) (Binding.bindOutputs m.flags p outputs instances) :=
    (Binding.places_returns _ _ _ _ _ _).bind fun _ hfits =>
      .mapM fun _ hmem => Binding.bindOutput_returns _ _ _ fun q hq =>
        hfits q (hq ▸ (List.of_mem_zip hmem).2)
  have hfunctions : Returns
      (MachineError.FoundByBinding (Addressed inputs instances ∧ Addressed outputs instances))
      (fun _ => True) (Binding.bindFunctions m.functions p) :=
    .mapM fun _ _ => Binding.bindFunction_returns _ _ _
  exact (hinputs.mono fun _ he => ⟨he.1, fun h => he.2 h.1⟩).bind fun _ _ =>
    (houtputs.mono fun _ he => ⟨he.1, fun h => he.2 h.2⟩).bind fun _ _ =>
      hfunctions.bind fun _ _ => .of_ok trivial

/-- A program is bound to streams within the address space, or the cause is reported. -/
theorem Machine.bind_reports (m : Machine) (p : Program) {inputs outputs : List Stream}
    {instances : Nat} (globals : Globals) (hin : Addressed inputs instances)
    (hout : Addressed outputs instances) :
    Reports (m.bind p inputs outputs instances globals) fun _ => True :=
  Reports.iff_returns.mpr
    ((m.bind_returns p inputs outputs instances globals).mono fun _ he => he.2 ⟨hin, hout⟩)

/-! ## Runs -/

/-- Slots that are served stay in bounds. -/
theorem Context.Served.inBounds {c : Context} {inputs outputs : List Stream}
    (h : c.Served inputs outputs) : c.InBounds outputs where
  input b hb := by
    obtain ⟨s, hs, v, -, hreaches, rfl⟩ := h.input b hb
    exact hreaches.skipped.allInBounds
  output b hb := by
    obtain ⟨s, hs, -, hreaches⟩ := h.output b hb
    exact ⟨s, hs, hreaches.allInBounds⟩

/-- A run over instructions that are read ends without a fault. -/
theorem Context.run_reports {batches : Nat} {c : Context} {streams : List Stream}
    (h : c.InBounds streams) (entries : List (Except MachineError Encoded))
    (hentries : ∀ e, .error e ∈ entries → e.isMalformed = true) {st : State batches}
    (hst : st.SameLengths streams) :
    ∀ e, (c.run st entries).2 = some e → e.isFault = false := fun e he =>
  MachineError.not_fault_of_malformed
    ((c.run_returns entries hentries st).2 e he (h.of_sameLengths hst))

/-- Any program is executed safely, whatever its code words, tables and flags:
if the values of all instances lie within the address space and the registers can
be addressed, the execution either succeeds or reports what is wrong. No access
leaves a buffer, a table or the registers. -/
theorem execute_reports_errors (m : Machine) (p : Program) (inputs outputs : List Stream)
    (instances : Nat) (globals : Globals) (hin : Addressed inputs instances)
    (hout : Addressed outputs instances)
    (hregisters : p.registerCount * batchCount instances < Machine.cellLimit) :
    ∀ e, (m.execute p inputs outputs instances globals).1.error = some e → e.isFault = false := by
  intro e he
  by_cases hzero : instances = 0
  · subst hzero
    cases he
  · have hbind := m.bind_reports p globals hin hout
    cases hc : m.bind p inputs outputs instances globals with
    | error e' =>
      unfold Machine.execute at he
      rw [if_neg hzero, hc] at he
      rw [hc] at hbind
      cases he
      exact hbind
    | ok c =>
      rw [Machine.execute_of_bind (by omega) hc hregisters] at he
      refine Context.run_reports (Machine.bind_served hc).inBounds _ (Encoded.readFrom_malformed _ _ _) ?_ e he
      intro k
      unfold Program.start
      rw [List.getElem?_toArray]

/-- A call of a random number whose argument register is missing is reported,
after a constant was stored. -/
theorem execute_reports_errors_call :
    let p : Program :=
      { code := [98, 0, 7, 99, 0, 0, 1, 5], outputs := [⟨"o", .of .int 1⟩],
        functions := [Function.random.signature], instructionCount := 9, registerCount := 1 }
    let output := Stream.ofBytes ⟨"o", .of .int 1⟩ (Array.replicate 8 1)
    (({} : Machine).execute p [] [output] 2 []).1.error =
        some (.malformed 3 (.registerOutOfRange 5 1)) ∧
      ∀ e, (({} : Machine).execute p [] [output] 2 []).1.error = some e → e.isFault = false :=
  ⟨by decide, execute_reports_errors {} _ _ _ 2 [] (fun s hs => (nomatch hs))
    (fun s hs => by cases List.mem_singleton.mp hs; decide) (by decide)⟩

/-- Registers for very many instances cannot be addressed, although the program
does nothing and reads no stream. -/
theorem execute_registersTooLarge :
    ∃ e, (({} : Machine).execute { registerCount := 1 } [] [] (2 ^ 63) []).1.error = some e ∧
      e.isFault = true :=
  ⟨.registersTooLarge, rfl, rfl⟩

end LaneGraph
