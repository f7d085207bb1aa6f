import LaneGraph.Proofs.Execution
import LaneGraph.Proofs.Patterns

/-!
# Folding and execution agree

An operator that has an instruction has a value on every literal of the kind that
the instruction is for, and the pattern of that value is what the instruction
leaves in every lane. The two sides are written down apart, operator by operator;
both go through the function of patterns that an operator stands for. Nothing is
used about the arithmetic of numbers.
-/

namespace LaneGraph

/-! ## Values and patterns -/

/-- An operator that stands for a function of patterns has a value, whose pattern
the function gives. -/
theorem UnaryOp.eval?_of_pattern? {op : UnaryOp} {result : Kind} {v : Scalar}
    {f : UInt32 → UInt32} (h : op.pattern? v.kind result = some f) :
    ∃ w, op.eval? result v = some w ∧ w.bits = f v.bits := by
  by_cases hconvert : op = .convert
  · subst hconvert
    cases v <;> cases result <;> cases h
    all_goals exact ⟨_, rfl, rfl⟩
  cases v with
  | bool b =>
    have hbool : op.onBool?.map Pattern.ofBool = some f := by
      cases op <;> first | exact absurd rfl hconvert | exact h
    obtain ⟨f', hf', rfl⟩ := Option.map_eq_some_iff.mp hbool
    have heval : op.eval? result (.bool b) = op.onBool?.map fun f => .bool (f b) := by
      cases op <;> first | exact absurd rfl hconvert | rfl
    refine ⟨.bool (f' b), by rw [heval, hf']; rfl, ?_⟩
    show boolBits (f' b) = boolBits (f' (bitsBool (boolBits b)))
    rw [Scalar.bitsBool_boolBits]
  | int n =>
    have hint : op.onInt?.map Pattern.ofInt = some f := by
      cases op <;> first | exact absurd rfl hconvert | exact h
    obtain ⟨f', hf', rfl⟩ := Option.map_eq_some_iff.mp hint
    have heval : op.eval? result (.int n) = op.onInt?.map fun f => .int (f n) := by
      cases op <;> first | exact absurd rfl hconvert | rfl
    exact ⟨.int (f' n), by rw [heval, hf']; rfl, rfl⟩
  | float x =>
    have hfloat : op.onFloat?.map Pattern.ofFloat = some f := by
      cases op <;> first | exact absurd rfl hconvert | exact h
    obtain ⟨f', hf', rfl⟩ := Option.map_eq_some_iff.mp hfloat
    have heval : op.eval? result (.float x) = op.onFloat?.map fun f => .float (f x) := by
      cases op <;> first | exact absurd rfl hconvert | rfl
    exact ⟨.float (f' x), by rw [heval, hf']; rfl, rfl⟩

/-- An operator that stands for an operation on patterns has a value, whose pattern
the operation gives. -/
theorem BinaryOp.eval?_of_pattern? {op : BinaryOp} {x y : Scalar}
    {f : UInt32 → UInt32 → UInt32} (hkind : y.kind = x.kind) (h : op.pattern? x.kind = some f) :
    ∃ w, op.eval? x y = some w ∧ w.bits = f x.bits y.bits := by
  cases x with
  | bool a =>
    cases y with
    | int _ => cases hkind
    | float _ => cases hkind
    | bool b =>
      obtain ⟨f', hf', rfl⟩ := Option.map_eq_some_iff.mp h
      refine ⟨.bool (f' a b), by rw [eval?, hf']; rfl, ?_⟩
      show boolBits (f' a b) = boolBits (f' (bitsBool (boolBits a)) (bitsBool (boolBits b)))
      rw [Scalar.bitsBool_boolBits, Scalar.bitsBool_boolBits]
  | int a =>
    cases y with
    | bool _ => cases hkind
    | float _ => cases hkind
    | int b =>
      rcases Option.or_eq_some_iff.mp h with hvalue | ⟨hnone, htest⟩
      · obtain ⟨f', hf', rfl⟩ := Option.map_eq_some_iff.mp hvalue
        exact ⟨.int (f' a b), by rw [eval?, hf']; rfl, rfl⟩
      · obtain ⟨f', hf', rfl⟩ := Option.map_eq_some_iff.mp htest
        rw [Option.map_eq_none_iff] at hnone
        exact ⟨.bool (f' a b), by rw [eval?, hnone, hf']; rfl, rfl⟩
  | float a =>
    cases y with
    | bool _ => cases hkind
    | int _ => cases hkind
    | float b =>
      rcases Option.or_eq_some_iff.mp h with hvalue | ⟨hnone, htest⟩
      · obtain ⟨f', hf', rfl⟩ := Option.map_eq_some_iff.mp hvalue
        exact ⟨.float (f' a b), by rw [eval?, hf']; rfl, rfl⟩
      · obtain ⟨f', hf', rfl⟩ := Option.map_eq_some_iff.mp htest
        rw [Option.map_eq_none_iff] at hnone
        exact ⟨.bool (f' a b), by rw [eval?, hnone, hf']; rfl, rfl⟩

/-! ## Instructions on the same pattern in every lane -/

namespace Lanes

/-- A function of the same pattern in every lane. -/
theorem map_splat (f : UInt32 → UInt32) (w : UInt32) : (splat w).map f = splat (f w) := by
  unfold map splat
  rw [Vector.map_replicate]

/-- An operation on the same patterns in every lane. -/
theorem zip_splat (f : UInt32 → UInt32 → UInt32) (v w : UInt32) :
    zip f (splat v) (splat w) = splat (f v w) := by
  unfold zip splat
  rw [Vector.zipWith_replicate]

end Lanes

/-- The same pattern in every lane of every batch. -/
def Column.splat (batches : Nat) (w : UInt32) : Column batches :=
  Vector.replicate batches (Lanes.splat w)

/-- A register holds the same pattern in every lane of every batch. -/
def State.Holds {batches : Nat} (st : State batches) (r : UInt32) (w : UInt32) : Prop :=
  st.registers[r.toNat]? = some (Column.splat batches w)

/-- The words of an instruction, read and carried out, put the same pattern in every
lane of every batch of a register and change nothing else. -/
def Context.Fills {batches : Nat} (c : Context) (st : State batches) (i : Instruction)
    (r : UInt32) (w : UInt32) : Prop :=
  c.run st (Encoded.readAll i.encode) = (st.setRegister r (Column.splat batches w), none)

namespace Context

variable {batches : Nat} {c : Context} {st : State batches} {r a b v w : UInt32}

/-- An instruction whose step succeeds is read from its words and carried out. -/
theorem run_encode {i : Instruction} (hcount : i.Countable) {st' : State batches}
    (hstep : c.step st 0 i = .ok st') : c.run st (Encoded.readAll i.encode) = (st', none) := by
  have hread : Encoded.readAll i.encode = Instruction.placed 0 [i] := by
    have hall := Instruction.readAll_encode [i] (by simpa using hcount)
    rwa [List.flatMap_singleton] at hall
  rw [hread, Instruction.placed, Instruction.placed, run, Instruction.instruction_encoded]
  dsimp only [Except.bind]
  rw [hstep]
  rfl

/-- A register that is there can be looked at. -/
theorem register_of_lt (hr : r.toNat < st.registers.size) (offset : Nat) :
    ∃ x, st.register offset r = .ok x := by
  refine ⟨st.registers[r.toNat], ?_⟩
  unfold State.register
  rw [Array.getElem?_eq_getElem hr]

/-- A register that holds a pattern is found. -/
theorem register_of_holds (h : st.Holds a v) (offset : Nat) :
    st.register offset a = .ok (Column.splat batches v) := by
  unfold State.register
  rw [h]

/-- A function fills its register with its value. -/
theorem fills_apply (f : LaneFunction) (hr : r.toNat < st.registers.size) (ha : st.Holds a v) :
    c.Fills st (.apply f r a) r (f.eval v) := by
  obtain ⟨x, hx⟩ := register_of_lt hr 0
  refine run_encode (i := .apply f r a) trivial ?_
  rw [step, hx, register_of_holds ha]
  unfold Column.splat
  dsimp only [bind, Except.bind]
  rw [Vector.map_replicate, Lanes.map_splat]
  rfl

/-- An operation on two registers fills its register with its value. -/
theorem fills_combine (o : LaneOperation) (hr : r.toNat < st.registers.size) (ha : st.Holds a v)
    (hb : st.Holds b w) : c.Fills st (.combine o r a b) r (o.eval v w) := by
  obtain ⟨x, hx⟩ := register_of_lt hr 0
  refine run_encode (i := .combine o r a b) trivial ?_
  rw [step, hx, register_of_holds ha, register_of_holds hb]
  unfold Column.splat zipColumns
  dsimp only [bind, Except.bind]
  rw [Vector.zipWith_replicate, Lanes.zip_splat]
  rfl

/-- An operation on a register and a constant fills its register with its value. -/
theorem fills_combineConst (o : LaneOperation) (hr : r.toNat < st.registers.size)
    (ha : st.Holds a v) : c.Fills st (.combineConst o r a w) r (o.eval v w) := by
  obtain ⟨x, hx⟩ := register_of_lt hr 0
  refine run_encode (i := .combineConst o r a w) trivial ?_
  rw [step, hx, register_of_holds ha]
  unfold Column.splat
  dsimp only [bind, Except.bind]
  rw [Vector.map_replicate, Lanes.zip_splat]
  rfl

end Context

/-- Folding and execution agree. An operator with one operand that is given an
instruction for the kinds of its operand and result has a value on every literal of
that kind, and the instruction fills its register with the pattern of that value. An
operator with two operands that is given an instruction has a value on any two
literals of the kind, and both the instruction on two registers and the one with the
right literal as its constant fill their register with the pattern of that value. -/
theorem folding_agrees_with_execution {batches : Nat} (c : Context) (st : State batches)
    (r a b : UInt32) (hr : r.toNat < st.registers.size) :
    (∀ (op : UnaryOp) (result : Kind) (v : Scalar) (f : LaneFunction),
      op.laneFunction? v.kind result = some f → st.Holds a v.bits →
      ∃ w, op.eval? result v = some w ∧ c.Fills st (.apply f r a) r w.bits) ∧
    ∀ (op : BinaryOp) (x y : Scalar) (o : LaneOperation), y.kind = x.kind →
      op.laneOperation? x.kind = some o → st.Holds a x.bits →
      ∃ w, op.eval? x y = some w ∧
        (st.Holds b y.bits → c.Fills st (.combine o r a b) r w.bits) ∧
        c.Fills st (.combineConst o r a y.bits) r w.bits := by
  constructor
  · intro op result v f hf ha
    obtain ⟨w, hw, hbits⟩ := UnaryOp.eval?_of_pattern? (UnaryOp.pattern?_of_laneFunction? hf)
    refine ⟨w, hw, ?_⟩
    rw [hbits]
    exact Context.fills_apply f hr ha
  · intro op x y o hkind ho ha
    obtain ⟨w, hw, hbits⟩ :=
      BinaryOp.eval?_of_pattern? hkind (BinaryOp.pattern?_of_laneOperation? ho)
    refine ⟨w, hw, ?_, ?_⟩
    · intro hb
      rw [hbits]
      exact Context.fills_combine o hr ha hb
    · rw [hbits]
      exact Context.fills_combineConst o hr ha

namespace Divided

/-- A machine without streams and functions. -/
def context : Context := ⟨5, [], [], [], []⟩

/-- Two batches; the first register holds a dividend, the second one a divisor. -/
def state : State 2 where
  registers := #[Column.splat 2 (Scalar.int (-7)).bits, Column.splat 2 (Scalar.int 2).bits]
  outputs := #[]

end Divided

/-- The quotient of minus seven and two is minus three, folded or computed. -/
theorem folding_agrees_with_execution_quotient :
    (BinaryOp.divide.laneOperation? .int = some .divI ∧
      Divided.state.Holds 0 (Scalar.int (-7)).bits ∧
      Divided.state.Holds 1 (Scalar.int 2).bits) ∧
    BinaryOp.divide.eval? (.int (-7)) (.int 2) = some (.int (-3)) ∧
    ∃ w, BinaryOp.divide.eval? (.int (-7)) (.int 2) = some w ∧
      (Divided.state.Holds 1 (Scalar.int 2).bits →
        Divided.context.Fills Divided.state (.combine .divI 0 0 1) 0 w.bits) ∧
      Divided.context.Fills Divided.state (.combineConst .divI 0 0 (Scalar.int 2).bits) 0
        w.bits :=
  ⟨⟨rfl, rfl, rfl⟩, by decide,
    (folding_agrees_with_execution Divided.context Divided.state 0 0 1 (by decide)).2
      .divide (.int (-7)) (.int 2) .divI rfl rfl rfl⟩

end LaneGraph
