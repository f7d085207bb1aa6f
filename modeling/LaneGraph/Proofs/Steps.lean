import LaneGraph.Proofs.Decoding
import LaneGraph.Proofs.Stores

/-!
# What steps and runs may do

Reading an instruction either succeeds or finds it malformed. Carrying it out replaces
bytes that its slot owns, and nothing else in the output streams; it fails where the
instruction is malformed, or where an access leaves its stream. Streams keep their lengths
on the way, so what is in bounds at the start of a run stays in bounds.
-/

namespace LaneGraph

/-- The cause is an instruction. -/
def MachineError.isMalformed : MachineError → Bool
  | malformed _ _ => true
  | _ => false

/-- A malformed instruction is reported. -/
theorem MachineError.not_fault_of_malformed {e : MachineError} (h : e.isMalformed = true) :
    e.isFault = false := by
  cases e with
  | malformed _ _ => rfl
  | _ => cases h

/-! ## Reading instructions -/

namespace Encoded

/-- The words at the front of a code stream are an instruction, or malformed. -/
theorem ofWords_returns (offset : Nat) (code : List UInt32) :
    Returns (·.isMalformed = true) (fun _ => True) (ofWords offset code) := by
  refine .of_cause fun e he => ?_
  obtain ⟨cause, rfl⟩ := (ofWords_divides offset code).error e he
  rfl

/-- Whatever the words of a code stream are, each entry that is read is an
instruction or malformed. -/
theorem readFrom_malformed (steps offset : Nat) (code : List UInt32) :
    ∀ e, .error e ∈ readFrom steps offset code → e.isMalformed = true := by
  induction steps generalizing offset code with
  | zero =>
    intro e he
    rw [readFrom] at he
    exact absurd he List.not_mem_nil
  | succ steps ih =>
    intro e he
    cases code with
    | nil =>
      rw [readFrom] at he
      · exact absurd he List.not_mem_nil
      · exact Nat.succ_ne_zero _
    | cons word rest =>
      have hfirst := ofWords_returns offset (word :: rest)
      rw [readFrom] at he
      · cases hread : ofWords offset (word :: rest) with
        | error e' =>
          rw [hread] at he
          cases List.mem_singleton.mp he
          exact hfirst.error e hread
        | ok i =>
          rw [hread] at he
          rcases List.mem_cons.mp he with heq | hlater
          · cases heq
          · exact ih _ _ e hlater
      · exact List.cons_ne_nil _ _

/-- The operands of an instruction are in their roles, or it is malformed. -/
theorem instruction_returns (e : Encoded) :
    Returns (·.isMalformed = true) (fun _ => True) e.instruction := by
  unfold Encoded.instruction
  dsimp only
  split <;> first | exact .of_ok trivial | exact .of_error rfl

end Encoded

/-! ## Stores -/

/-- Two streams differ in nothing but some bytes. -/
structure Stream.SameOutside (s s' : Stream) (owned : Nat → Prop) : Prop where
  channel : s'.channel = s.channel
  start : s'.start = s.start
  stride : s'.stride = s.stride
  size : s'.bytes.size = s.bytes.size
  byte : ∀ j, ¬ owned j → s'.bytes[j]? = s.bytes[j]?

namespace Stream.SameOutside

variable {s s' s'' : Stream} {owned owned' : Nat → Prop}

/-- Nothing differs. -/
theorem refl (s : Stream) (owned : Nat → Prop) : s.SameOutside s owned :=
  ⟨rfl, rfl, rfl, rfl, fun _ _ => rfl⟩

/-- One change after another. -/
theorem trans (h : s.SameOutside s' owned) (h' : s'.SameOutside s'' owned) :
    s.SameOutside s'' owned where
  channel := h'.channel.trans h.channel
  start := h'.start.trans h.start
  stride := h'.stride.trans h.stride
  size := h'.size.trans h.size
  byte j hj := (h'.byte j hj).trans (h.byte j hj)

/-- More bytes may differ. -/
theorem mono (h : s.SameOutside s' owned) (himp : ∀ j, owned j → owned' j) :
    s.SameOutside s' owned' :=
  { h with byte := fun j hj => h.byte j fun howned => hj (himp j howned) }

end Stream.SameOutside

/-- A byte of the buffer of a stream is read or written for one of the instances. -/
def ElementView.Accesses (v : ElementView) (s : Stream) (instances byte : Nat) : Prop :=
  ∃ i < instances, s.start + v.position i ≤ byte ∧
    byte < s.start + v.position i + v.encoding.size

/-- Storing for all instances replaces bytes of their elements only. -/
theorem storeAll_sameOutside {v : ElementView} {s : Stream} (count : Nat) (bits : Nat → UInt32)
    (hbounds : ∀ i < count, v.inBounds s.length i = true) :
    s.SameOutside (storeAll v count bits s) (v.Accesses s count) := by
  induction count with
  | zero => exact .refl s _
  | succ count ih =>
    have hbefore : s.SameOutside (storeAll v count bits s) (v.Accesses s (count + 1)) :=
      (ih fun i hi => hbounds i (by omega)).mono fun j ⟨i, hi, hin⟩ => ⟨i, by omega, hin⟩
    have hfits : s.start + v.position count + (v.encoding.encode (bits count)).length ≤
        (storeAll v count bits s).bytes.size :=
      hbefore.size ▸ ElementView.end_le_size _ (hbounds count (Nat.lt_succ_self _))
    rw [storeAll_succ]
    refine hbefore.trans ⟨rfl, rfl, rfl, size_writeBytes _ _ _, fun j hj => ?_⟩
    unfold ElementView.write
    dsimp only
    rw [hbefore.start, getElem?_writeBytes _ _ _ hfits, if_neg fun hin => ?_]
    rw [Encoding.length_encode] at hin
    exact hj ⟨count, Nat.lt_succ_self _, hin⟩

/-- A byte of an output stream is written through one of the bound slots. -/
def Context.Owns (c : Context) (k : Nat) (s : Stream) (byte : Nat) : Prop :=
  ∃ b, some b ∈ c.outputs ∧ b.stream = k ∧ b.view.Accesses s c.instances byte

section

variable {batches : Nat} {c : Context}

/-- The output streams of two states differ in nothing but bytes that the bound slots
own. -/
def State.SameOutside (c : Context) (st st' : State batches) : Prop :=
  ∀ k : Nat, Option.Rel (fun s s' => s.SameOutside s' (c.Owns k s)) st.outputs[k]? st'.outputs[k]?

namespace State.SameOutside

/-- No output was changed. -/
theorem of_outputs {st st' : State batches} (h : st'.outputs = st.outputs) :
    State.SameOutside c st st' := by
  intro k
  rw [h]
  cases st.outputs[k]? with
  | none => exact .none
  | some s => exact .some (.refl s _)

/-- One change after another. -/
theorem trans {st st' st'' : State batches} (h : State.SameOutside c st st')
    (h' : State.SameOutside c st' st'') : State.SameOutside c st st'' := by
  intro k
  have hfirst := h k
  have hsecond := h' k
  generalize st.outputs[k]? = before at hfirst ⊢
  generalize st'.outputs[k]? = between at hfirst hsecond
  generalize st''.outputs[k]? = after at hsecond ⊢
  cases hfirst with
  | none => cases hsecond; exact .none
  | some hsame =>
    cases hsecond with
    | some hsame' =>
      -- the elements have their places behind the same start
      refine .some (hsame.trans (hsame'.mono fun j howns => ?_))
      unfold Context.Owns ElementView.Accesses at howns ⊢
      rwa [hsame.start] at howns

end State.SameOutside

/-- The output streams of a state are as long as the given ones. -/
def State.SameLengths (st : State batches) (streams : List Stream) : Prop :=
  ∀ k : Nat, (st.outputs[k]?).map Stream.length = (streams[k]?).map Stream.length

/-- Streams keep their lengths. -/
theorem State.SameOutside.sameLengths {st st' : State batches}
    (h : State.SameOutside c st st') : st'.SameLengths st.outputs.toList := by
  intro k
  have hk := h k
  rw [Array.getElem?_toList]
  generalize st.outputs[k]? = before at hk ⊢
  generalize st'.outputs[k]? = after at hk ⊢
  cases hk with
  | none => rfl
  | some hsame =>
    refine congrArg some ?_
    unfold Stream.length
    rw [hsame.size, hsame.start]

/-- The bound slots of an execution stay within streams of the lengths that the
given ones have. -/
structure Context.InBounds (c : Context) (streams : List Stream) : Prop where
  input : ∀ b ∈ c.inputs, b.view.allInBounds b.stream.length c.instances = true
  output : ∀ b, some b ∈ c.outputs → ∃ s, streams[b.stream]? = some s ∧
    b.view.allInBounds s.length c.instances = true

/-- Slots stay in bounds while streams keep their lengths. -/
theorem Context.InBounds.of_sameLengths {streams : List Stream} {st : State batches}
    (h : c.InBounds streams) (hst : st.SameLengths streams) : c.InBounds st.outputs.toList where
  input := h.input
  output b hb := by
    obtain ⟨s, hs, hall⟩ := h.output b hb
    have hlength := hst b.stream
    rw [hs] at hlength
    obtain ⟨s', hs', hsame⟩ := Option.map_eq_some_iff.mp hlength
    exact ⟨s', by rw [Array.getElem?_toList, hs'], hsame ▸ hall⟩

/-- An error is that of a malformed instruction if the slots are in bounds. -/
def Context.Refuses (c : Context) (st : State batches) (e : MachineError) : Prop :=
  c.InBounds st.outputs.toList → e.isMalformed = true

namespace Context

variable {st : State batches}

/-- A store replaces bytes that its slot owns. -/
theorem store_returns (st : State batches) (offset : Nat) (slot : UInt32) (bits : Nat → UInt32) :
    Returns (c.Refuses st) (State.SameOutside c st) (c.store st offset slot bits) where
  ok st' h := by
    rcases store_eq_ok h with ⟨-, rfl⟩ | ⟨b, s, hb, hs, hall, rfl⟩
    · exact .of_outputs rfl
    · intro k
      dsimp only
      rw [Array.getElem?_setIfInBounds]
      split
      · rename_i heq
        subst heq
        rw [if_pos (Array.getElem?_eq_some_iff.mp hs).1, hs]
        refine .some ((storeAll_sameOutside c.instances bits fun i hi =>
          ElementView.inBounds_of_all hall hi).mono fun j haccess => ?_)
        exact ⟨b, List.mem_of_getElem? hb, rfl, haccess⟩
      · exact State.SameOutside.of_outputs rfl k
  error e h hbounds := by
    unfold store at h
    split at h
    · cases h
      rfl
    · cases h
    · rename_i b hb
      obtain ⟨s, hs, hall⟩ := hbounds.output b (List.mem_of_getElem? hb)
      rw [Array.getElem?_toList] at hs
      rw [hs] at h
      dsimp only at h
      rw [if_pos hall] at h
      cases h

/-- A register is read, or an instruction is malformed. -/
theorem register_returns (st : State batches) (offset : Nat) (r : UInt32) :
    Returns (c.Refuses st) (fun _ => True) (st.register offset r) := by
  unfold State.register
  split
  · exact .of_ok trivial
  · exact .of_error fun _ => rfl

/-- A load changes no output. -/
theorem load_returns (st : State batches) (offset : Nat) (t : Transfer) (r slot : UInt32) :
    Returns (c.Refuses st) (State.SameOutside c st) (c.load st offset t r slot) := by
  refine (register_returns st offset r).bind fun _ _ => ?_
  split
  · exact .of_error fun _ => rfl
  · rename_i input hinput
    split
    · exact .of_error fun _ => rfl
    · split
      · exact .of_ok (.of_outputs rfl)
      · rename_i houtside
        exact .of_error fun hbounds =>
          absurd (hbounds.input input (List.mem_of_getElem? hinput)) houtside

/-- Every instruction replaces nothing but bytes that its slot owns. -/
theorem step_returns (st : State batches) (offset : Nat) (i : Instruction) :
    Returns (c.Refuses st) (State.SameOutside c st) (c.step st offset i) := by
  have hread := register_returns (c := c) st offset
  have hsame : ∀ r (column : Column batches), Returns (c.Refuses st)
      (State.SameOutside c st) (.ok (st.setRegister r column)) :=
    fun _ _ => .of_ok (.of_outputs rfl)
  cases i with
  | apply f r a => exact (hread r).bind fun _ _ => (hread a).bind fun _ _ => hsame _ _
  | combine o r a b =>
    exact (hread r).bind fun _ _ => (hread a).bind fun _ _ => (hread b).bind fun _ _ => hsame _ _
  | combineConst o r a constant =>
    exact (hread r).bind fun _ _ => (hread a).bind fun _ _ => hsame _ _
  | select k r a b d =>
    exact (hread r).bind fun _ _ => (hread a).bind fun _ _ => (hread b).bind fun _ _ =>
      (hread d).bind fun _ _ => hsame _ _
  | move r constant => exact (hread r).bind fun _ _ => hsame _ _
  | load t r slot => exact load_returns st offset t r slot
  | store t slot r => exact (hread r).bind fun x _ => store_returns st offset slot _
  | storeConst t slot constant => exact store_returns st offset slot _
  | call function r arguments =>
    rw [step]
    split
    · exact .of_error fun _ => rfl
    · exact (hread r).bind fun _ _ => (Returns.mapM fun a _ => hread a).bind fun _ _ => hsame _ _

/-- A run replaces nothing but bytes that the bound slots own. Where it ends early although
the slots are in bounds, an instruction is malformed. -/
theorem run_returns (entries : List (Except MachineError Encoded))
    (hentries : ∀ e, .error e ∈ entries → e.isMalformed = true) (st : State batches) :
    State.SameOutside c st (c.run st entries).1 ∧
      ∀ e, (c.run st entries).2 = some e → c.Refuses st e := by
  induction entries generalizing st with
  | nil => exact ⟨.of_outputs rfl, fun e he => (nomatch he)⟩
  | cons entry rest ih =>
    cases entry with
    | error e =>
      refine ⟨.of_outputs rfl, fun e' he' _ => ?_⟩
      cases he'
      exact hentries _ List.mem_cons_self
    | ok encoded =>
      have hstep : Returns (c.Refuses st) (State.SameOutside c st)
          (encoded.instruction.bind (c.step st encoded.offset)) :=
        (encoded.instruction_returns.mono fun _ hmalformed _ => hmalformed).bind fun i _ =>
          step_returns st encoded.offset i
      unfold run
      cases heq : encoded.instruction.bind (c.step st encoded.offset) with
      | error e =>
        refine ⟨.of_outputs rfl, fun e' he' => ?_⟩
        cases he'
        exact hstep.error e heq
      | ok st' =>
        have hsame := hstep.ok st' heq
        obtain ⟨hrest, hcause⟩ := ih (fun e he => hentries e (List.mem_cons_of_mem _ he)) st'
        exact ⟨hsame.trans hrest, fun e he hbounds =>
          hcause e he (hbounds.of_sameLengths hsame.sameLengths)⟩

end Context

end

end LaneGraph
