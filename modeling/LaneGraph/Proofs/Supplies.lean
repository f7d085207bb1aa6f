import LaneGraph.Proofs.Safety
import LaneGraph.Proofs.WellFormed

/-!
# Instructions that find what they need

An instruction is malformed if a register or a slot that it names is missing, or
if it loads a stream of the wrong kind. A program whose instructions find what
they need may fail when its streams are bound, or when a stream turns out to be
too short, but no instruction of it is malformed.
-/

namespace LaneGraph

/-- A computation does not fail because of an instruction. -/
def NotMalformed {α : Type} (x : Except MachineError α) : Prop :=
  ∀ e, x = .error e → e.isMalformed = false

namespace NotMalformed

variable {α β : Type}

/-- A result is no failure. -/
theorem of_ok (a : α) : NotMalformed (.ok a) := fun _ h => (nomatch h)

/-- A failure with another cause. -/
theorem of_error {e : MachineError} (h : e.isMalformed = false) :
    NotMalformed (.error e : Except MachineError α) := by
  intro e' he'
  cases he'
  exact h

/-- A computation that goes on with its result. -/
theorem bind {x : Except MachineError α} {f : α → Except MachineError β} (hx : NotMalformed x)
    (hf : ∀ a, NotMalformed (f a)) : NotMalformed (x >>= f) :=
  ((Returns.of_cause hx).bind fun a _ => .of_cause (hf a)).error

/-- Computations for the entries of a list. -/
theorem mapM {f : α → Except MachineError β} {xs : List α} (hf : ∀ x ∈ xs, NotMalformed (f x)) :
    NotMalformed (xs.mapM f) :=
  (Returns.mapM fun x hx => .of_cause (hf x hx)).error

end NotMalformed

/-! ## Binding -/

namespace Binding

/-- As many places are found as there are slots. -/
theorem length_places {side : Side} {flags : ExecuteFlags} {allowMissing : Bool}
    {streams slots : List Channel} {found : List (Option Place)}
    (h : places side flags allowMissing streams slots = .ok found) :
    found.length = slots.length := by
  unfold places at h
  split at h
  · cases h
    exact List.length_map _
  · dsimp only at h
    by_cases hfits : (if allowMissing = true then streams.length ≤ slots.length
        else streams.length = slots.length)
    · rw [if_pos hfits] at h
      cases h
      rw [List.length_map, List.length_range]
    · rw [if_neg hfits] at h
      cases h

/-- Every input slot is bound to values of its kind. -/
theorem bindInputs_kind {flags : ExecuteFlags} {p : Program} {streams : List Stream}
    {instances : Nat} {bound : List BoundInput}
    (h : bindInputs flags p streams instances = .ok bound) {k : Nat} {slot : Channel}
    (hslot : p.inputs[k]? = some slot) :
    ∃ b, bound[k]? = some b ∧ b.view.encoding.kind = slot.format.encoding.kind := by
  obtain ⟨found, hfound, hmap⟩ := bind_eq_ok.mp h
  have hlt : k < found.length := by
    rw [length_places hfound]
    exact (List.getElem?_eq_some_iff.mp hslot).1
  have hzip : (p.inputs.zip found)[k]? = some (slot, found[k]) :=
    List.getElem?_zip_eq_some.mpr ⟨hslot, List.getElem?_eq_getElem hlt⟩
  obtain ⟨b, hb, hget⟩ := mapM_eq_ok_get hmap hzip
  refine ⟨b, hget, ?_⟩
  dsimp only at hb
  unfold bindInput at hb
  split at hb
  · cases hb
  · obtain ⟨v, hv, hb⟩ := bind_eq_ok.mp hb
    cases hb
    obtain ⟨rfl, hkind, -⟩ := view_elements hv
    exact hkind

/-- There are as many bound outputs as output slots. -/
theorem length_bindOutputs {flags : ExecuteFlags} {p : Program} {streams : List Stream}
    {instances : Nat} {bound : List (Option BoundOutput)}
    (h : bindOutputs flags p streams instances = .ok bound) :
    bound.length = p.outputs.length := by
  obtain ⟨found, hfound, hmap⟩ := bind_eq_ok.mp h
  rw [length_of_mapM_eq_ok hmap, List.length_zip, length_places hfound, Nat.min_self]

end Binding

/-- No instruction is met when a program is bound. -/
theorem Machine.bind_notMalformed (m : Machine) (p : Program) (inputs outputs : List Stream)
    (instances : Nat) (globals : Globals) :
    NotMalformed (m.bind p inputs outputs instances globals) := fun e he =>
  ((m.bind_returns p inputs outputs instances globals).error e he).1

/-! ## Steps and runs -/

/-- The slot that an instruction refers to is bound, and a stream that it loads is
of its kind. -/
def Instruction.Bound (c : Context) : Instruction → Prop
  | load transfer _ slot => ∃ input, c.inputs[slot.toNat]? = some input ∧
      input.view.encoding.kind = transfer.kind
  | store _ slot _ | storeConst _ slot _ => slot.toNat < c.outputs.length
  | call slot _ _ => slot.toNat < c.functions.length
  | _ => True

/-- An instruction finds its registers, and what its slot is bound to. -/
structure Instruction.Supplied (c : Context) (count : Nat) (i : Instruction) : Prop where
  reads : ∀ r ∈ i.reads, r.toNat < count
  result : ∀ r, i.result? = some r → r.toNat < count
  slot : i.Bound c

section

variable {batches : Nat} {c : Context} {st : State batches}

/-- A register that is there is read. -/
theorem State.register_notMalformed {r : UInt32} (h : r.toNat < st.registers.size)
    (offset : Nat) : NotMalformed (st.register offset r) := by
  unfold State.register
  rw [Array.getElem?_eq_getElem h]
  exact .of_ok _

/-- Replacing a value keeps the number of registers. -/
theorem State.size_setRegister (st : State batches) (r : UInt32) (column : Column batches) :
    (st.setRegister r column).registers.size = st.registers.size :=
  Array.size_setIfInBounds

namespace Context

/-- A store to a slot that is there is not malformed. -/
theorem store_notMalformed {slot : UInt32} (h : slot.toNat < c.outputs.length) (offset : Nat)
    (bits : Nat → UInt32) : NotMalformed (c.store st offset slot bits) := by
  unfold store
  rw [List.getElem?_eq_getElem h]
  split
  · rename_i hnone
    cases hnone
  · exact .of_ok _
  · split
    · exact .of_error rfl
    · split
      · exact .of_ok _
      · exact .of_error rfl

/-- A load of a stream of the right kind is not malformed. -/
theorem load_notMalformed {t : Transfer} {r slot : UInt32} (hr : r.toNat < st.registers.size)
    (h : (Instruction.load t r slot).Bound c) (offset : Nat) :
    NotMalformed (c.load st offset t r slot) := by
  obtain ⟨input, hinput, hkind⟩ := h
  refine (State.register_notMalformed hr offset).bind fun _ => ?_
  rw [hinput]
  dsimp only
  rw [if_neg (not_not_intro hkind)]
  split
  · exact .of_ok _
  · exact .of_error rfl

/-- An instruction that finds what it needs is not malformed. -/
theorem step_notMalformed {i : Instruction} (h : i.Supplied c st.registers.size) (offset : Nat) :
    NotMalformed (c.step st offset i) := by
  obtain ⟨hreads, hresult, hslot⟩ := h
  have hread : ∀ r ∈ i.reads, NotMalformed (st.register offset r) :=
    fun r hr => State.register_notMalformed (hreads r hr) offset
  have hwrite : ∀ r, i.result? = some r → NotMalformed (st.register offset r) :=
    fun r hr => State.register_notMalformed (hresult r hr) offset
  cases i with
  | apply f r a =>
    exact (hwrite r rfl).bind fun _ => (hread a (by simp [Instruction.reads])).bind fun _ =>
      .of_ok _
  | combine o r a b =>
    exact (hwrite r rfl).bind fun _ => (hread a (by simp [Instruction.reads])).bind fun _ =>
      (hread b (by simp [Instruction.reads])).bind fun _ => .of_ok _
  | combineConst o r a constant =>
    exact (hwrite r rfl).bind fun _ => (hread a (by simp [Instruction.reads])).bind fun _ =>
      .of_ok _
  | select k r a b d =>
    exact (hwrite r rfl).bind fun _ => (hread a (by simp [Instruction.reads])).bind fun _ =>
      (hread b (by simp [Instruction.reads])).bind fun _ =>
        (hread d (by simp [Instruction.reads])).bind fun _ => .of_ok _
  | move r constant => exact (hwrite r rfl).bind fun _ => .of_ok _
  | load t r slot => exact load_notMalformed (hresult r rfl) hslot offset
  | store t slot r =>
    exact (hread r (by simp [Instruction.reads])).bind fun _ => store_notMalformed hslot offset _
  | storeConst t slot constant => exact store_notMalformed hslot offset _
  | call function r arguments =>
    rw [step, List.getElem?_eq_getElem hslot]
    exact (hwrite r rfl).bind fun _ => (NotMalformed.mapM hread).bind fun _ => .of_ok _

/-- An instruction keeps the number of registers. -/
theorem size_step {i : Instruction} {offset : Nat} {st' : State batches}
    (h : c.step st offset i = .ok st') : st'.registers.size = st.registers.size := by
  cases i with
  | apply f r a | combineConst o r a constant =>
    obtain ⟨_, -, h⟩ := bind_eq_ok.mp h
    obtain ⟨_, -, h⟩ := bind_eq_ok.mp h
    cases h
    exact st.size_setRegister _ _
  | combine o r a b =>
    obtain ⟨_, -, h⟩ := bind_eq_ok.mp h
    obtain ⟨_, -, h⟩ := bind_eq_ok.mp h
    obtain ⟨_, -, h⟩ := bind_eq_ok.mp h
    cases h
    exact st.size_setRegister _ _
  | select k r a b d =>
    obtain ⟨_, -, h⟩ := bind_eq_ok.mp h
    obtain ⟨_, -, h⟩ := bind_eq_ok.mp h
    obtain ⟨_, -, h⟩ := bind_eq_ok.mp h
    obtain ⟨_, -, h⟩ := bind_eq_ok.mp h
    cases h
    exact st.size_setRegister _ _
  | move r constant =>
    obtain ⟨_, -, h⟩ := bind_eq_ok.mp h
    cases h
    exact st.size_setRegister _ _
  | load t r slot =>
    obtain ⟨_, -, h⟩ := bind_eq_ok.mp h
    split at h
    · cases h
    · split at h
      · cases h
      · split at h
        · cases h
          exact st.size_setRegister _ _
        · cases h
  | store t slot r =>
    obtain ⟨_, -, h⟩ := bind_eq_ok.mp h
    rw [registers_store h]
  | storeConst t slot constant => rw [registers_store h]
  | call function r arguments =>
    rw [step] at h
    split at h
    · cases h
    · obtain ⟨_, -, h⟩ := bind_eq_ok.mp h
      obtain ⟨_, -, h⟩ := bind_eq_ok.mp h
      cases h
      exact st.size_setRegister _ _

/-- No instruction of a run is malformed if all of them find what they need. -/
theorem run_notMalformed {es : List Encoded} {is : List Instruction}
    (hdecoded : es.map Encoded.instruction = is.map .ok)
    (h : ∀ i ∈ is, i.Supplied c st.registers.size) :
    ∀ e, (c.run st (es.map .ok)).2 = some e → e.isMalformed = false := by
  induction es generalizing is st with
  | nil => exact fun e he => (nomatch he)
  | cons encoded rest ih =>
    cases is with
    | nil => cases hdecoded
    | cons i later =>
      obtain ⟨hfirst, hrest⟩ := List.cons.inj hdecoded
      have hstep := step_notMalformed (h i List.mem_cons_self) encoded.offset
      rw [List.map_cons]
      unfold run
      rw [hfirst]
      dsimp only [Except.bind]
      cases hst : c.step st encoded.offset i with
      | error e =>
        intro e' he'
        cases he'
        exact hstep e hst
      | ok st' =>
        refine ih hrest fun j hj => ?_
        rw [size_step hst]
        exact h j (List.mem_cons_of_mem _ hj)

end Context

end

/-- A program that consists of instructions is not malformed if they find what they
need wherever it is bound. -/
theorem Program.Consists.execute_notMalformed {p : Program} {is : List Instruction}
    (h : p.Consists is) {m : Machine} {inputs outputs : List Stream} {instances : Nat}
    {globals : Globals}
    (hbound : ∀ c, m.bind p inputs outputs instances globals = .ok c → ∀ i ∈ is, i.Bound c)
    {e : MachineError} (he : (m.execute p inputs outputs instances globals).1.error = some e) :
    e.isMalformed = false := by
  obtain ⟨es, hes, -⟩ := h.code
  have hdecoded := h.decoded
  rw [hes, List.map_map] at hdecoded
  unfold Machine.execute at he
  split at he
  · cases he
  · cases hbind : m.bind p inputs outputs instances globals with
    | error e' =>
      rw [hbind] at he
      cases he
      exact m.bind_notMalformed p inputs outputs instances globals e hbind
    | ok c =>
      rw [hbind] at he
      dsimp only at he
      split at he
      · cases he
        rfl
      · rw [hes] at he
        refine Context.run_notMalformed hdecoded (fun i hi => ⟨?_, ?_, hbound c hbind i hi⟩) e he
        · intro r hr
          rw [Array.size_replicate]
          exact h.reads i hi r hr
        · intro r hr
          rw [Array.size_replicate]
          exact h.writes i hi r hr

end LaneGraph
