import LaneGraph.Proofs.Substitutes
import Mathlib

/-!
# Identities that folding uses

An operator with a literal operand is one of its operands, a literal, or other
operators with the literal on the right. Each identity holds for integers and
booleans, where arithmetic wraps around. A quotient by a power of two is a shift
to the right after a bias, which makes negative dividends round toward zero.
-/

namespace LaneGraph

open Build

/-- The operands may change places, under the operator itself or under the comparison
that turns it around. -/
def BinaryOp.turns (op : BinaryOp) : Bool := op.isCommutative || op.turned?.isSome

namespace Folding

/-! ## Quotients by powers of two -/

/-- Shifting an integer to the right divides it, rounding down. -/
theorem toInt_shiftRight (x : Int32) {k : Nat} (hk : k < 32) :
    (x >>> Int32.ofNat k).toInt = x.toInt / 2 ^ k := by
  have hcount : ∀ k < 32, ((Int32.ofNat k).toBitVec.smod 32).toNat = k := by decide
  rw [← Int32.toInt_toBitVec, Int32.toBitVec_shiftRight, BitVec.sshiftRight', hcount k hk,
    BitVec.toInt_sshiftRight, Int32.toInt_toBitVec, Int.shiftRight_eq_div_pow]
  norm_cast

/-- Negative integers have the sign minus one, all others zero. -/
theorem sign_eq (x : Int32) : x >>> 31 = if x.toInt < 0 then -1 else 0 := by
  have hdiv : (x >>> 31).toInt = x.toInt / 2 ^ 31 := toInt_shiftRight x (k := 31) (by decide)
  have hlow := x.le_toInt
  have hhigh := x.toInt_lt
  rw [← Int32.toInt_inj, hdiv]
  split
  · show _ = (-1 : Int)
    omega
  · show _ = (0 : Int)
    omega

/-- A power of two above one is given by its exponent. -/
theorem toInt_of_powerOfTwo? {c : Int32} {k : Nat} (h : powerOfTwo? c = some k) :
    k < 31 ∧ c.toInt = 2 ^ k := by
  unfold powerOfTwo? at h
  dsimp only at h
  split at h
  · rename_i hn
    obtain ⟨hlarge, hpower⟩ := hn
    cases h
    have hhigh := c.toInt_lt
    have hlt : 2 ^ c.toInt.toNat.log2 < 2 ^ 31 := by omega
    refine ⟨(Nat.pow_lt_pow_iff_right (by decide)).mp hlt, ?_⟩
    calc c.toInt = (c.toInt.toNat : Int) := by omega
      _ = ((2 ^ c.toInt.toNat.log2 : Nat) : Int) := by rw [hpower]
      _ = 2 ^ c.toInt.toNat.log2 := by norm_cast
  · cases h

/-- Dividing toward zero is dividing down, after a bias for negative integers. -/
theorem tdiv_eq_bias (x d : Int) (hd : 0 < d) :
    x.tdiv d = (x + if x < 0 then d - 1 else 0) / d := by
  split
  · rename_i hneg
    obtain ⟨y, rfl⟩ : ∃ y, x = -y := ⟨-x, by omega⟩
    rw [Int.neg_tdiv, Int.tdiv_eq_ediv_of_nonneg (by omega)]
    have hr := Int.emod_nonneg y hd.ne'
    have hlt := Int.emod_lt_of_pos y hd
    have hy := Int.emod_add_mul_ediv y d
    have hsplit : d - 1 - y % d + d * -(y / d) = -y + (d - 1) := by
      rw [Int.mul_neg]
      omega
    exact ((Int.ediv_emod_unique hd).mpr ⟨hsplit, by omega, by omega⟩).1.symm
  · rename_i hneg
    rw [Int.add_zero, Int.tdiv_eq_ediv_of_nonneg (by omega)]

/-- An integer is divided by a power of two by a shift after a bias. -/
theorem shift_eq_div {c : Int32} {k : Nat} (h : powerOfTwo? c = some k) (x : Int32) :
    (x + ((x >>> 31) &&& ((1 <<< Int32.ofNat k) - 1))) >>> Int32.ofNat k = x / c := by
  obtain ⟨hk, hc⟩ := toInt_of_powerOfTwo? h
  have hmask : ∀ k < 31, ((1 <<< Int32.ofNat k) - 1).toInt = 2 ^ k - 1 := by decide
  have hlow := x.le_toInt
  have hhigh := x.toInt_lt
  have hpos : (0 : Int) < 2 ^ k := by positivity
  have hsmall : (2 : Int) ^ k ≤ 2 ^ 30 := pow_le_pow_right₀ (by decide) (by omega)
  have hbias : ((x >>> 31) &&& ((1 <<< Int32.ofNat k) - 1)).toInt =
      if x.toInt < 0 then 2 ^ k - 1 else 0 := by
    rw [sign_eq]
    split
    · rw [Int32.neg_one_and]
      exact hmask k hk
    · rw [Int32.zero_and]
      rfl
  have hdiv := tdiv_eq_bias x.toInt (2 ^ k) hpos
  have hbound : ∀ y : Int, -2 ^ 31 ≤ y → y < 2 ^ 31 → y.bmod (2 ^ 32) = y :=
    fun y hle hlt => Int.bmod_eq_of_le (by omega) (by omega)
  rw [← Int32.toInt_inj, toInt_shiftRight _ (by omega), Int32.toInt_div, Int32.toInt_add, hbias, hc,
    hdiv]
  generalize hbiased : (x.toInt + if x.toInt < 0 then 2 ^ k - 1 else 0) = y
  have hy : -2 ^ 31 ≤ y ∧ y < 2 ^ 31 := by
    split at hbiased <;> omega
  rw [hbound y hy.1 hy.2, hbound]
  · exact Int.le_ediv_of_mul_le hpos (by omega)
  · exact Int.ediv_lt_of_lt_mul hpos (by omega)

/-! ## What a literal on the right leads to -/

/-- What becomes of an operator whose right operand is a literal. -/
inductive RightFold where
  /-- The node stays. -/
  | keep
  /-- The left operand is the value. -/
  | left
  /-- The literal is the value. -/
  | right
  /-- Lines are made from both operands. -/
  | lines (lines : List Line)

/-- The lines of a biased shift. -/
def shiftLines (signShift mask count : Int32) : List Line :=
  [.literal (.int signShift), .binary .shiftRight 0 2, .literal (.int mask),
   .binary .bitwiseAnd 3 4, .binary .add 0 5, .literal (.int count), .binary .shiftRight 6 7]

/-- The lines of a quotient by a power of two. -/
def quotientLines (shift : Nat) : List Line :=
  shiftLines 31 ((1 <<< Int32.ofNat shift) - 1) (Int32.ofNat shift)

/-- The lines of a product with a factor. -/
def productLines (factor : Single) : List Line := [.literal (.float factor), .binary .multiply 0 2]

/-- Decide on an operator whose right operand is a literal. -/
def rightFold : Scalar → BinaryOp → RightFold
  | .bool b, .logicalAnd => if b then .keep else .right
  | .bool b, .logicalOr => if b then .right else .keep
  | .bool _, _ => .keep
  | .int n, .add | .int n, .subtract | .int n, .shiftLeft | .int n, .shiftRight =>
    if n = 0 then .left else .keep
  | .int n, .multiply => if n = 0 then .right else if n = 1 then .left else .keep
  | .int n, .pow => if n = 1 then .left else .keep
  | .int n, .divide =>
    if n = 1 then .left
    else match powerOfTwo? n with
      | some shift => .lines (quotientLines shift)
      | none => .keep
  | .int _, _ => .keep
  | .float x, .add | .float x, .subtract => if x.eq 0 then .left else .keep
  | .float x, .multiply => if x.eq 0 then .right else if x.eq 1 then .left else .keep
  | .float x, .pow => if x.eq 1 then .left else .keep
  | .float x, .divide => if x.eq 1 then .left else .lines (productLines (Single.div 1 x))
  | .float _, _ => .keep

/-- The steps for an operator with a literal on the right follow the decision. -/
theorem foldRight_eq (id : NodeId) (op : BinaryOp) (left right : NodeId) (c : Scalar) :
    foldRight id op left right c =
      match rightFold c op with
      | .keep => pure id
      | .left => pure left
      | .right => pure right
      | .lines lines => Line.make [left, right] lines := by
  cases c with
  | bool b => cases op <;> cases b <;> rfl
  | int n =>
    cases op
    case divide =>
      unfold foldRight rightFold
      dsimp only
      split_ifs
      · rfl
      · cases powerOfTwo? n with
        | none => rfl
        | some shift =>
          simp [divideByPowerOfTwo, quotientLines, shiftLines, Line.make, Line.run, Line.build, int]
    all_goals
      unfold foldRight rightFold
      dsimp only
      try split_ifs
      all_goals rfl
  | float x =>
    cases op
    case divide =>
      unfold foldRight rightFold
      dsimp only
      split_ifs
      · rfl
      · simp [productLines, Line.make, Line.run, Line.build, float]
    all_goals
      unfold foldRight rightFold
      dsimp only
      try split_ifs
      all_goals rfl

/-- Operators whose left operand may be their value. -/
theorem rightFold_left {c : Scalar} {op : BinaryOp} (h : rightFold c op = .left) :
    op ∈ [.add, .subtract, .multiply, .divide, .pow, .shiftLeft, .shiftRight] := by
  unfold rightFold at h
  split at h
  all_goals first | decide | cases h | (split at h <;> cases h)

/-- Operators whose right operand may be their value. -/
theorem rightFold_right {c : Scalar} {op : BinaryOp} (h : rightFold c op = .right) :
    op ∈ [.multiply, .logicalAnd, .logicalOr] := by
  unfold rightFold at h
  split at h
  all_goals first
    | decide
    | cases h
    | (split at h <;> first | cases h | (split at h <;> cases h))

/-- Operators that may be made of lines: an integer quotient by a power of two and a
quotient of numbers. -/
theorem rightFold_lines {c : Scalar} {op : BinaryOp} {lines : List Line}
    (h : rightFold c op = .lines lines) : op = .divide ∧
      ((∃ n k, c = .int n ∧ powerOfTwo? n = some k ∧ lines = quotientLines k) ∨
        ∃ x, c = .float x ∧ lines = productLines (Single.div 1 x)) := by
  cases c with
  | bool b => cases op <;> cases b <;> cases h
  | int n =>
    cases op
    case divide =>
      unfold rightFold at h
      dsimp only at h
      split at h
      · cases h
      · split at h
        · rename_i k hk
          cases h
          exact ⟨rfl, .inl ⟨n, k, rfl, hk, rfl⟩⟩
        · cases h
    all_goals
      unfold rightFold at h
      dsimp only at h
      first | cases h | (split at h <;> first | cases h | (split at h <;> cases h))
  | float x =>
    cases op
    case divide =>
      unfold rightFold at h
      dsimp only at h
      split at h
      · cases h
      · cases h
        exact ⟨rfl, .inr ⟨x, rfl, rfl⟩⟩
    all_goals
      unfold rightFold at h
      dsimp only at h
      first | cases h | (split at h <;> first | cases h | (split at h <;> cases h))

/-- The first power of an integer is the integer. -/
theorem pow_one (m : Int32) : Integer.pow m 1 = m := by
  unfold Integer.pow
  split
  · rename_i htwo
    rw [htwo]
    rfl
  · exact if_pos rfl

/-- The left operand is the value where it is said to be. -/
theorem eval_left {a c : Scalar} {op : BinaryOp} (h : rightFold c op = .left)
    (hfloat : c.kind ≠ .float) (hkind : a.kind = c.kind) : op.eval? a c = some a := by
  cases c with
  | bool b => cases op <;> cases b <;> cases h
  | float x => exact absurd rfl hfloat
  | int n =>
    cases a with
    | bool | float => cases hkind
    | int m =>
      cases op
      all_goals
        unfold rightFold at h
        dsimp only at h
        first | cases h | skip
      case pow =>
        split at h
        · rename_i hn
          subst hn
          simp [BinaryOp.eval?, BinaryOp.onInts?, pow_one]
        · cases h
      case add | subtract | shiftLeft | shiftRight =>
        split at h
        · rename_i hn
          subst hn
          simp [BinaryOp.eval?, BinaryOp.onInts?]
        · cases h
      case multiply =>
        split at h
        · cases h
        · split at h
          · rename_i hn
            subst hn
            simp [BinaryOp.eval?, BinaryOp.onInts?]
          · cases h
      case divide =>
        split at h
        · rename_i hn
          subst hn
          simp [BinaryOp.eval?, BinaryOp.onInts?]
        · split at h <;> cases h

/-- The literal is the value where it is said to be. -/
theorem eval_right {a c : Scalar} {op : BinaryOp} (h : rightFold c op = .right)
    (hfloat : c.kind ≠ .float) (hkind : a.kind = c.kind) : op.eval? a c = some c := by
  have hop := rightFold_right h
  simp only [List.mem_cons, List.not_mem_nil, or_false] at hop
  cases c with
  | float x => exact absurd rfl hfloat
  | int n =>
    cases a with
    | bool | float => cases hkind
    | int m =>
      rcases hop with rfl | rfl | rfl
      · unfold rightFold at h
        dsimp only at h
        split at h
        · rename_i hn
          subst hn
          simp [BinaryOp.eval?, BinaryOp.onInts?]
        · split at h <;> cases h
      · cases h
      · cases h
  | bool b =>
    cases a with
    | int | float => cases hkind
    | bool v => rcases hop with rfl | rfl | rfl <;> cases b <;> cases v <;> first | rfl | cases h

/-- The operators under which operands change places. -/
def swaps : List (BinaryOp × BinaryOp) :=
  [(.add, .add), (.multiply, .multiply), (.min, .min), (.max, .max), (.bitwiseAnd, .bitwiseAnd),
   (.bitwiseXor, .bitwiseXor), (.bitwiseOr, .bitwiseOr), (.equal, .equal), (.notEqual, .notEqual),
   (.logicalAnd, .logicalAnd), (.logicalOr, .logicalOr), (.less, .greater),
   (.lessEqual, .greaterEqual), (.greater, .less), (.greaterEqual, .lessEqual)]

/-- Which operators a decision on a literal on the left is about. -/
theorem leftFold_cases (c : Scalar) (op : BinaryOp) :
    match leftFold c op with
    | .keep => True
    | .literal => op ∈ [.multiply, .logicalAnd, .logicalOr]
    | .other => op ∈ [.add, .multiply]
    | .swap swapped => (op, swapped) ∈ swaps := by
  cases c with
  | bool b => cases op <;> cases b <;> simp [leftFold, swaps]
  | int n =>
    cases op <;> simp only [leftFold, BinaryOp.turned?] <;> (try split_ifs) <;> simp [swaps]
  | float x =>
    cases op <;> simp only [leftFold, BinaryOp.turned?] <;> (try split_ifs) <;> simp [swaps]

/-- Where a literal on the left stays, operands may not change places. -/
theorem leftFold_keep {c : Scalar} {op : BinaryOp} {t : OperatorType} (ht : t ∈ op.types)
    (hkind : t.operands.head? = some c.kind) (h : leftFold c op = .keep) : op.turns = false := by
  cases c with
  | bool b =>
    cases op
    case equal | notEqual | logicalAnd | logicalOr => cases b <;> cases h
    -- The other operators do not turn, or they have no type on booleans.
    all_goals first
      | rfl
      | (simp only [BinaryOp.types, uniformType, List.mem_cons, List.not_mem_nil, or_false] at ht
         rcases ht with rfl | rfl <;> cases hkind)
  | int n | float x =>
    cases op
    case add | multiply =>
      simp only [leftFold] at h
      split_ifs at h
    case logicalAnd | logicalOr =>
      cases List.mem_singleton.mp ht
      cases hkind
    all_goals first
      | rfl
      | cases h

/-- The literal is the value where it is said to be. -/
theorem eval_literal {c b : Scalar} {op : BinaryOp} (h : leftFold c op = .literal)
    (hfloat : c.kind ≠ .float) (hkind : b.kind = c.kind) : op.eval? c b = some c := by
  cases c with
  | float x => exact absurd rfl hfloat
  | bool v =>
    cases b with
    | int | float => cases hkind
    | bool v' => cases op <;> cases v <;> cases v' <;> first | rfl | cases h
  | int n =>
    cases b with
    | bool | float => cases hkind
    | int m =>
      have hop := leftFold_cases (.int n) op
      rw [h] at hop
      simp only [List.mem_cons, List.not_mem_nil, or_false] at hop
      rcases hop with rfl | rfl | rfl
      · simp only [leftFold] at h
        split at h
        · rename_i hzero
          simp only [Scalar.isZero, beq_iff_eq] at hzero
          subst hzero
          simp [BinaryOp.eval?, BinaryOp.onInts?]
        · split at h <;> cases h
      · cases h
      · cases h

/-- The right operand is the value where it is said to be. -/
theorem eval_other {c b : Scalar} {op : BinaryOp} (h : leftFold c op = .other)
    (hfloat : c.kind ≠ .float) (hkind : b.kind = c.kind) : op.eval? c b = some b := by
  have hop := leftFold_cases c op
  rw [h] at hop
  cases c with
  | float x => exact absurd rfl hfloat
  | bool v => rcases List.mem_pair.mp hop with rfl | rfl <;> cases v <;> cases h
  | int n =>
    cases b with
    | bool | float => cases hkind
    | int m =>
      rcases List.mem_pair.mp hop with rfl | rfl
      · simp only [leftFold] at h
        split at h
        · rename_i hzero
          simp only [Scalar.isZero, beq_iff_eq] at hzero
          subst hzero
          simp [BinaryOp.eval?, BinaryOp.onInts?]
        · cases h
      · simp only [leftFold] at h
        split at h
        · cases h
        · split at h
          · rename_i hone
            simp only [Scalar.isOne, beq_iff_eq] at hone
            subst hone
            simp [BinaryOp.eval?, BinaryOp.onInts?]
          · cases h

/-- The smaller operand does not depend on the order. -/
theorem min_comm (a b : Int32) : Integer.min a b = Integer.min b a := by
  unfold Integer.min
  split_ifs with h h' h'
  · exact absurd (Int32.lt_trans h h') (Int32.lt_irrefl)
  · rfl
  · rfl
  · exact Int32.le_antisymm (Int32.not_lt.mp h) (Int32.not_lt.mp h')

/-- The larger operand does not depend on the order. -/
theorem max_comm (a b : Int32) : Integer.max a b = Integer.max b a := by
  unfold Integer.max
  split_ifs with h h' h'
  · exact absurd (Int32.lt_trans h h') (Int32.lt_irrefl)
  · rfl
  · rfl
  · exact Int32.le_antisymm (Int32.not_lt.mp h') (Int32.not_lt.mp h)

/-- Operands may change places. -/
theorem eval_swap {a b : Scalar} {op swapped : BinaryOp} (h : (op, swapped) ∈ swaps)
    (hfloat : a.kind ≠ .float) (hkind : b.kind = a.kind) : swapped.eval? b a = op.eval? a b := by
  simp only [swaps, List.mem_cons, List.not_mem_nil, or_false, Prod.mk.injEq] at h
  cases a with
  | float x => exact absurd rfl hfloat
  | bool v =>
    cases b with
    | int | float => cases hkind
    | bool v' =>
      rcases h with ⟨rfl, rfl⟩ | ⟨rfl, rfl⟩ | ⟨rfl, rfl⟩ | ⟨rfl, rfl⟩ | ⟨rfl, rfl⟩ | ⟨rfl, rfl⟩ |
        ⟨rfl, rfl⟩ | ⟨rfl, rfl⟩ | ⟨rfl, rfl⟩ | ⟨rfl, rfl⟩ | ⟨rfl, rfl⟩ | ⟨rfl, rfl⟩ | ⟨rfl, rfl⟩ |
        ⟨rfl, rfl⟩ | ⟨rfl, rfl⟩
      all_goals cases v <;> cases v' <;> rfl
  | int n =>
    cases b with
    | bool | float => cases hkind
    | int m =>
      rcases h with ⟨rfl, rfl⟩ | ⟨rfl, rfl⟩ | ⟨rfl, rfl⟩ | ⟨rfl, rfl⟩ | ⟨rfl, rfl⟩ | ⟨rfl, rfl⟩ |
        ⟨rfl, rfl⟩ | ⟨rfl, rfl⟩ | ⟨rfl, rfl⟩ | ⟨rfl, rfl⟩ | ⟨rfl, rfl⟩ | ⟨rfl, rfl⟩ | ⟨rfl, rfl⟩ |
        ⟨rfl, rfl⟩ | ⟨rfl, rfl⟩
      all_goals
        simp [BinaryOp.eval?, BinaryOp.onInts?, BinaryOp.testInts?, Int32.add_comm, Int32.mul_comm]
      all_goals first
        | exact min_comm m n
        | exact max_comm m n
        | exact Int32.and_comm m n
        | exact Int32.xor_comm m n
        | exact Int32.or_comm m n
        | exact eq_comm
        | exact bne_comm

/-! ## Lines -/

/-- The form of nodes: scalar, and with an instruction once they are lowered. -/
def form (lowered : Bool) (n : Node) (shapes : List Shape) : Bool :=
  n.narrow && (!lowered || n.encodable shapes)

/-- The rules under which constants are folded in any graph of scalars. -/
def rules (tracked simple : Prop) (read : String → UInt32) (lowered : Bool) : TypedRules :=
  { tracked, simple, semantics := .literal read, form := form lowered, need := fun _ => 1 }

/-- The rules under which constants are folded where nodes have a form. -/
def rulesFor (tracked simple : Prop) (A : Interpretation) (form : Node → Bool) (lowered : Bool) :
    TypedRules :=
  { tracked, simple, semantics := A.semantics
    form := fun n shapes => form n && (!lowered || n.encodable shapes), need := fun _ => 1 }

/-- Any graph of scalars is over the literals of the program. -/
theorem rules_eq (tracked simple : Prop) (read : String → UInt32) (lowered : Bool) :
    rules tracked simple read lowered =
      rulesFor tracked simple (.literal read) Node.narrow lowered := by
  unfold rules rulesFor
  rw [Semantics.literal_eq]
  rfl

/-- A form of nodes under which constants are folded: if a node has it, so has every
basic node of the same kind. Where values are followed, none is a number, and the
values of calls are there. -/
structure Admits (tracked simple : Prop) (A : Interpretation) (form : Node → Bool) : Prop where
  frame : ∀ n, form n.frame = form n
  narrow : ∀ n, form n = true → n.narrow = true
  like : ∀ m n, form m = true → n.narrow = true → n.basic = true →
    n.shape.kind = m.shape.kind → form n = true
  literals : A.OnLiterals
  total : A.Total
  followed : tracked → simple ∨ (∀ n, form n = true → n.shape.kind ≠ .float) ∧
    ∃ outputs, A.Answers outputs ∧ ∀ n, form n = true → n.answered outputs = true

/-- In every graph of scalars constants may be folded. -/
theorem Admits.scalars {tracked simple : Prop} (htracked : tracked → simple)
    (read : String → UInt32) : Admits tracked simple (.literal read) Node.narrow where
  frame := Node.narrow_frame
  narrow _ h := h
  like _ _ _ h _ _ := h
  literals := ⟨rfl, rfl, rfl⟩
  total := by
    rw [← Environment.interpretation_literal]
    exact Processor.total
  followed h := .inl (htracked h)

/-- The form of a scalar that is no number and whose result is there. -/
def integral (outputs : FunctionId → Kind) (n : Node) : Bool :=
  n.narrow && n.shape.kind ≠ .float && n.answered outputs

/-- Graphs of integers and booleans may be followed, powers and calls included. -/
theorem Admits.integral {tracked simple : Prop} {read : Channel → Nat → UInt32} {calls : Calls}
    {outputs : FunctionId → Kind}
    (h : (Processor.program.interpretation read calls).Answers outputs) :
    Admits tracked simple (Processor.program.interpretation read calls) (Folding.integral outputs) where
  frame n := by
    unfold Folding.integral
    rw [n.narrow_frame, n.answered_frame, n.shape_frame]
  narrow n hn := by
    unfold Folding.integral at hn
    simp only [Bool.and_eq_true] at hn
    exact hn.1.1
  like m n hm hnarrow hbasic hkind := by
    unfold Folding.integral at hm ⊢
    simp only [Bool.and_eq_true] at hm
    rw [hnarrow, hkind, hm.1.2, Node.answered_of_not_call outputs (Node.of_basic hbasic).2]
    rfl
  literals := Processor.interpretation_onLiterals
  total := Processor.total
  followed _ := by
    refine .inr ⟨fun n hn => ?_, outputs, h, fun n hn => ?_⟩
    all_goals
      unfold Folding.integral at hn
      simp only [Bool.and_eq_true, decide_eq_true_eq] at hn
    · exact hn.1.2
    · exact hn.2

/-- Lines of scalars of one kind that fit an operator. -/
abbrev fit (lowered : Bool) (shapes : List Shape) (lines : List Line) (kind : Kind) : Bool :=
  Line.fit (fun n shapes => (n.narrow && n.basic && n.shape.kind = kind) &&
    (!lowered || n.encodable shapes)) (fun _ => 1) shapes lines ⟨kind, 1⟩ 16

/-- A literal fits. -/
theorem literal_fit (lowered : Bool) (v : Scalar) : fit lowered [] [.literal v] v.kind = true := by
  cases lowered <;> cases v <;> rfl

/-- The lines of a biased shift fit. -/
theorem shift_fit (lowered : Bool) (signShift mask count : Int32) :
    fit lowered [⟨.int, 1⟩, ⟨.int, 1⟩] (shiftLines signShift mask count) .int = true := by
  cases lowered <;> cbv

/-- The lines of a product with a factor fit. -/
theorem product_fit (lowered : Bool) (factor : Single) :
    fit lowered [⟨.float, 1⟩, ⟨.float, 1⟩] (productLines factor) .float = true := by
  cases lowered <;> rfl

/-- Operators with swapped operands fit. -/
theorem swap_fits : ∀ lowered, ∀ p ∈ swaps, ∀ t ∈ p.1.types,
    fit lowered (shapesOf t.operands 1) [.binary p.2 1 0] t.result = true := by
  decide

/-- A literal is plain unless it is a number. -/
theorem literal_plain {v : Scalar} (h : v.kind ≠ .float) : Line.plain [] [.literal v] = true := by
  cases v with
  | float x => exact absurd rfl h
  | bool | int => rfl

/-- The lines of a biased shift make plain nodes. -/
theorem shift_plain (signShift mask count : Int32) :
    Line.plain [⟨.int, 1⟩, ⟨.int, 1⟩] (shiftLines signShift mask count) = true := by
  cbv

/-- Operators with swapped operands are plain unless they are about numbers. -/
theorem swap_plain : ∀ p ∈ swaps, ∀ t ∈ p.1.types, t.result ≠ .float →
    Line.plain (shapesOf t.operands 1) [.binary p.2 1 0] = true := by
  decide

section

variable {tracked simple : Prop} {A : Interpretation} {form : Node → Bool} {lowered : Bool}
  {x y : Value} {ns : List Node}

/-- The value of a literal. -/
theorem literal_value {v : Scalar} (h : Line.frames [] [.literal v] = some ns) :
    (Line.result (rulesFor tracked simple A form lowered) [] [.literal v] ns).value 0 = some v := by
  cases h
  exact Scalar.ofBits?_bits v

/-- The value of the lines of a biased shift. -/
theorem shift_value {signShift mask count : Int32}
    (h : Line.frames [⟨.int, 1⟩, ⟨.int, 1⟩] (shiftLines signShift mask count) = some ns) :
    (Line.result (rulesFor tracked simple A form lowered)
      (Entry.operands [⟨.int, 1⟩, ⟨.int, 1⟩] [x, y]) (shiftLines signShift mask count) ns).value 0 =
      A.binary .shiftRight
        (A.binary .add (x 0) (A.binary .bitwiseAnd
          (A.binary .shiftRight (x 0) (some (.int signShift))) (some (.int mask))))
        (some (.int count)) := by
  conv at h => lhs; cbv
  cases h
  cbv

/-- The value of an operator with swapped operands. -/
theorem swap_value {p : BinaryOp × BinaryOp} (hp : p ∈ swaps) {t : OperatorType}
    (ht : t ∈ p.1.types) (h : Line.frames (shapesOf t.operands 1) [.binary p.2 1 0] = some ns) :
    (Line.result (rulesFor tracked simple A form lowered)
      (Entry.operands (shapesOf t.operands 1) [x, y]) [.binary p.2 1 0] ns).value 0 =
      A.binary p.2 (y 0) (x 0) := by
  simp only [swaps, List.mem_cons, List.not_mem_nil, or_false] at hp
  rcases hp with rfl | rfl | rfl | rfl | rfl | rfl | rfl | rfl | rfl | rfl | rfl | rfl | rfl | rfl |
    rfl
  all_goals
    simp only [BinaryOp.types, List.mem_cons, List.not_mem_nil, or_false] at ht
    rcases ht with rfl | rfl | rfl
    all_goals
      obtain rfl := Line.getD_frames h
      rfl

end

end Folding

end LaneGraph
