import LaneGraph.Proofs.Interpretation

/-!
# Operators over a processor

A processor says what the basic operations do to numbers. The other operators on
numbers are composed of these, always in the same order, so that their results
depend on the basic operations alone and on no law of these. Integers and booleans
are computed as they are. What functions return is left open, except for its kind.
-/

namespace LaneGraph

/-- What the basic operations do to numbers. -/
structure Processor where
  /-- The sum. -/
  add : Single → Single → Single
  /-- The difference. -/
  subtract : Single → Single → Single
  /-- The product. -/
  multiply : Single → Single → Single
  /-- The quotient. -/
  divide : Single → Single → Single
  /-- The smaller number. -/
  min : Single → Single → Single
  /-- The larger number. -/
  max : Single → Single → Single
  /-- Whether numbers are equal. -/
  equal : Single → Single → Bool
  /-- Whether the first number is smaller. -/
  less : Single → Single → Bool
  /-- Whether the first number is not larger. -/
  lessEqual : Single → Single → Bool
  /-- The magnitude. -/
  absolute : Single → Single
  /-- The square root. -/
  sqrt : Single → Single
  /-- The exponential. -/
  exp : Single → Single
  /-- The natural logarithm. -/
  ln : Single → Single
  /-- The logarithm to base two. -/
  log2 : Single → Single
  /-- The logarithm to base ten. -/
  log10 : Single → Single
  /-- The power of two. -/
  exp2 : Single → Single
  /-- The sine. -/
  sin : Single → Single
  /-- The cosine. -/
  cos : Single → Single
  /-- The tangent. -/
  tan : Single → Single
  /-- The arc sine. -/
  asin : Single → Single
  /-- The arc cosine. -/
  acos : Single → Single
  /-- The arc tangent. -/
  atan : Single → Single
  /-- The nearest whole number. -/
  round : Single → Single
  /-- The largest whole number that is not larger. -/
  floor : Single → Single
  /-- The smallest whole number that is not smaller. -/
  ceil : Single → Single
  /-- The number without what stands after the point. -/
  trunc : Single → Single
  /-- The number with the value of an integer. -/
  ofInt : Int32 → Single
  /-- The integer that a number is converted to. -/
  toInt : Single → Int32

namespace Processor

/-- The operations of the program. -/
def program : Processor where
  add := Single.add
  subtract := Single.sub
  multiply := Single.mul
  divide := Single.div
  min := Single.min
  max := Single.max
  equal := Single.eq
  less := Single.lt
  lessEqual := Single.le
  absolute := Single.abs
  sqrt := Single.sqrt
  exp := Single.exp
  ln := Single.ln
  log2 := Single.log2
  log10 := Single.log10
  exp2 := Single.exp2
  sin := Single.sin
  cos := Single.cos
  tan := Single.tan
  asin := Single.asin
  acos := Single.acos
  atan := Single.atan
  round := Single.round
  floor := Single.floor
  ceil := Single.ceil
  trunc := Single.trunc
  ofInt := Single.ofInt32
  toInt := Single.toInt32

variable (P : Processor)

/-! ## Composite operations -/

/-- Difference from zero. -/
def neg (a : Single) : Single := P.subtract 0 a

/-- Clamp to zero and one. -/
def saturate (a : Single) : Single := P.max 0 (P.min 1 a)

/-- The part after the point, with the sign of the number. -/
def frac (a : Single) : Single := P.subtract a (P.trunc a)

/-- Radians to degrees. -/
def radToDeg (a : Single) : Single := P.multiply a Single.degreesPerRadian

/-- Degrees to radians. -/
def degToRad (a : Single) : Single := P.multiply a Single.radiansPerDegree

/-- Remainder of the truncated quotient. -/
def modulo (a b : Single) : Single := P.subtract a (P.multiply b (P.trunc (P.divide a b)))

/-- Clamp to the given bounds; the lower bound wins if they cross. -/
def clamp (value low high : Single) : Single := P.max low (P.min high value)

/-- Straight-line interpolation from `a` to `b`. -/
def lerp (a b s : Single) : Single := P.add a (P.multiply s (P.subtract b a))

/-- Position of `x` between two edges, clamped to zero and one. -/
def stepParameter (edge0 edge1 x : Single) : Single :=
  P.saturate (P.divide (P.subtract x edge0) (P.subtract edge1 edge0))

/-- Cubic step between two edges. -/
def smoothStep (edge0 edge1 x : Single) : Single :=
  let t := P.stepParameter edge0 edge1 x
  P.multiply (P.multiply t t) (P.subtract 3 (P.multiply 2 t))

/-- Quintic step between two edges. -/
def smootherStep (edge0 edge1 x : Single) : Single :=
  let t := P.stepParameter edge0 edge1 x
  let inner := P.add (P.multiply t (P.subtract (P.multiply t 6) 15)) 10
  P.multiply (P.multiply (P.multiply t t) t) inner

/-- Logarithm of `value` to `base`. -/
def log (base value : Single) : Single :=
  if P.equal base 2 then P.log2 value else P.multiply (P.log2 value) (P.divide 1 (P.log2 base))

/-- The exponent as an integer, if it is whole and has a multiplication chain. -/
def wholeExponent? (exponent : Single) : Option Int32 :=
  if P.equal (P.subtract exponent (P.trunc exponent)) 0 && P.lessEqual 2 exponent &&
      P.lessEqual exponent 16 then some (P.toInt exponent)
  else none

/-- Power by way of logarithms. -/
def powByLog (base exponent : Single) : Single := P.exp2 (P.multiply exponent (P.log2 base))

/-- Power. -/
def pow (base exponent : Single) : Single :=
  if P.equal base 2 then P.exp2 exponent
  else if P.equal exponent 1 then base
  else match (P.wholeExponent? exponent).bind Power.chain? with
    | some chain => Power.eval P.multiply base chain
    | none => P.powByLog base exponent

/-- Power of integers by way of logarithms. -/
def intPowByLog (base exponent : Int32) : Int32 :=
  P.toInt (P.round (P.powByLog (P.ofInt base) (P.ofInt exponent)))

/-- Power of integers. -/
def intPow (base exponent : Int32) : Int32 :=
  if base = 2 then Integer.pow2 exponent
  else if exponent = 1 then base
  else match Power.chain? exponent with
    | some chain => Power.eval (· * ·) base chain
    | none => P.intPowByLog base exponent

/-! ## Operators on literals -/

/-- Convert to another kind. -/
def convert? : Scalar → Kind → Option Scalar
  | .int n, .float => some (.float (P.ofInt n))
  | .float x, .int => some (.int (P.toInt x))
  | .float x, .bool => some (.bool (!P.equal x 0))
  | s, kind => s.convert? kind

/-- The function of numbers that an operator stands for. -/
def onFloat? : UnaryOp → Option (Single → Single)
  | .negate => some P.neg
  | .absolute => some P.absolute
  | .saturate => some P.saturate
  | .sqrt => some P.sqrt
  | .exp => some P.exp
  | .ln => some P.ln
  | .log2 => some P.log2
  | .log10 => some P.log10
  | .pow2 => some P.exp2
  | .sin => some P.sin
  | .cos => some P.cos
  | .tan => some P.tan
  | .asin => some P.asin
  | .acos => some P.acos
  | .atan => some P.atan
  | .radToDeg => some P.radToDeg
  | .degToRad => some P.degToRad
  | .round => some P.round
  | .floor => some P.floor
  | .ceil => some P.ceil
  | .trunc => some P.trunc
  | .frac => some P.frac
  | _ => none

/-- The operation on numbers that an operator stands for. -/
def onFloats? : BinaryOp → Option (Single → Single → Single)
  | .add => some P.add
  | .subtract => some P.subtract
  | .multiply => some P.multiply
  | .divide => some P.divide
  | .modulo => some P.modulo
  | .log => some P.log
  | .pow => some P.pow
  | .min => some P.min
  | .max => some P.max
  | _ => none

/-- The comparison of numbers that an operator stands for. -/
def testFloats? : BinaryOp → Option (Single → Single → Bool)
  | .equal => some P.equal
  | .notEqual => some fun a b => !P.equal a b
  | .less => some P.less
  | .lessEqual => some P.lessEqual
  | .greater => some fun a b => P.less b a
  | .greaterEqual => some fun a b => P.lessEqual b a
  | _ => none

/-- The value of an operator; `target` is the kind a conversion leads to. -/
def unary? (op : UnaryOp) (target : Kind) (v : Scalar) : Option Scalar :=
  match op, v with
  | .convert, v => P.convert? v target
  | op, .float x => (P.onFloat? op).map fun f => .float (f x)
  | op, v => op.eval? target v

/-- The value of an operator on two literals of one kind. -/
def binary? (op : BinaryOp) (a b : Scalar) : Option Scalar :=
  match op, a, b with
  | .pow, .int a, .int b => some (.int (P.intPow a b))
  | op, .float a, .float b =>
    ((P.onFloats? op).map fun f => .float (f a b)).or ((P.testFloats? op).map fun f => .bool (f a b))
  | op, a, b => op.eval? a b

/-- The value of an operator on three literals. -/
def ternary? (op : TernaryOp) (a b c : Scalar) : Option Scalar :=
  match op, a, b, c with
  | .clamp, .float v, .float low, .float high => some (.float (P.clamp v low high))
  | .lerp, .float a, .float b, .float s => some (.float (P.lerp a b s))
  | .smoothStep, .float e0, .float e1, .float x => some (.float (P.smoothStep e0 e1 x))
  | .smootherStep, .float e0, .float e1, .float x => some (.float (P.smootherStep e0 e1 x))
  | op, a, b, c => op.eval? a b c

/-- With the operations of the program, operators have their values. -/
theorem program_unary : program.unary? = UnaryOp.eval? := by
  funext op target v
  cases op <;> cases v <;> first | rfl | (cases target <;> rfl)

/-- With the operations of the program, operators have their values. -/
theorem program_binary : program.binary? = BinaryOp.eval? := by
  funext op a b
  cases op <;> cases a <;> cases b <;> rfl

/-- With the operations of the program, operators have their values. -/
theorem program_ternary : program.ternary? = TernaryOp.eval? := by
  funext op a b c
  cases op <;> cases a <;> cases b <;> cases c <;> rfl

/-! ## Values are there -/

variable {P}

/-- Every literal converts to every known kind. -/
theorem convert?_total (s : Scalar) {kind : Kind} (h : kind ≠ .unknown) :
    ∃ r, P.convert? s kind = some r ∧ r.kind = kind := by
  cases kind with
  | unknown => exact absurd rfl h
  | _ => cases s <;> exact ⟨_, rfl, rfl⟩

/-- An operator has a value on an operand of one of its types, unless it exists
for vectors alone. -/
theorem unary?_total {op : UnaryOp} {t : OperatorType} {s : Scalar} (ht : t ∈ op.types)
    (hs : t.operands = [s.kind]) (hop : op ≠ .length ∧ op ≠ .normalize) (target : Kind) :
    ∃ r, P.unary? op target s = some r ∧ r.kind = t.result := by
  cases op
  case length => exact absurd rfl hop.1
  case normalize => exact absurd rfl hop.2
  case convert => cases ht
  all_goals
    simp only [UnaryOp.types, List.mem_cons, List.not_mem_nil, or_false] at ht
    rcases ht with rfl | rfl
    all_goals
      cases s <;> first | exact ⟨_, rfl, rfl⟩ | cases hs

/-- An operator has a value on operands of one of its types, unless it exists for
vectors alone. -/
theorem binary?_total {op : BinaryOp} {t : OperatorType} {a b : Scalar} (ht : t ∈ op.types)
    (hs : t.operands = [a.kind, b.kind]) (hop : op ≠ .dot ∧ op ≠ .cross ∧ op ≠ .reflect) :
    ∃ r, P.binary? op a b = some r ∧ r.kind = t.result := by
  cases op
  case dot => exact absurd rfl hop.1
  case cross => exact absurd rfl hop.2.1
  case reflect => exact absurd rfl hop.2.2
  all_goals
    simp only [BinaryOp.types, List.mem_cons, List.not_mem_nil, or_false] at ht
    rcases ht with rfl | rfl | rfl
    all_goals
      cases a <;> cases b <;> first | exact ⟨_, rfl, rfl⟩ | cases hs

/-- An operator other than a choice has a value on operands of one of its types. -/
theorem ternary?_total {op : TernaryOp} {t : OperatorType} {a b c : Scalar} (ht : t ∈ op.types)
    (hs : t.operands = [a.kind, b.kind, c.kind]) (hop : op ≠ .select) :
    ∃ r, P.ternary? op a b c = some r ∧ r.kind = t.result := by
  cases op
  case select => exact absurd rfl hop
  all_goals
    simp only [TernaryOp.types, List.mem_cons, List.not_mem_nil, or_false] at ht
    rcases ht with rfl | rfl
    all_goals
      cases a <;> cases b <;> cases c <;> first | exact ⟨_, rfl, rfl⟩ | cases hs

end Processor

/-- A choice has a value if its condition is there and so are both alternatives. -/
theorem TernaryOp.select_total {t : OperatorType} {a b c : Scalar} (ht : t ∈ select.types)
    (hs : t.operands = [a.kind, b.kind, c.kind]) :
    ∃ r, select.lift (some a) (some b) (some c) = some r ∧ r.kind = t.result := by
  have hkinds : a.kind = .bool ∧ b.kind = t.result ∧ c.kind = t.result := by
    simp only [types, List.mem_cons, List.not_mem_nil, or_false] at ht
    rcases ht with rfl | rfl | rfl
    all_goals
      injection hs with ha hs
      injection hs with hb hs
      injection hs with hc _
      exact ⟨ha.symm, hb.symm, hc.symm⟩
  cases a with
  | bool v => cases v <;> exact ⟨_, rfl, by simp only [hkinds]⟩
  | int | float => cases hkinds.1

/-! ## Interpretations -/

/-- What functions return. What they return from arguments that are there does not
change when others turn up. -/
structure Calls where
  /-- The result of a function. -/
  result : FunctionId → List (Option Scalar) → Option Scalar
  mono : ∀ f {xs xs'}, List.Forall₂ Scalar.Within xs xs' →
    Scalar.Within (result f xs) (result f xs')

namespace Calls

/-- What returns nothing stays within what it returns from more arguments. -/
theorem none_mono (_ : FunctionId) {xs xs' : List (Option Scalar)}
    (_ : List.Forall₂ Scalar.Within xs xs') : Scalar.Within none none :=
  .none _

/-- No function returns anything. -/
def none : Calls where
  result _ _ := Option.none
  mono := none_mono

/-- Functions return patterns of the kind that their signature names. -/
def native (functions : List Signature) (returned : FunctionId → List Scalar → UInt32) : Calls where
  result f xs := (functions[f]?).bind fun s =>
    (xs.mapM id).bind fun arguments => Scalar.ofBits? s.output (returned f arguments)
  mono f _ _ h := by
    cases functions[f]? with
    | none => exact .none _
    | some s => exact Interpretation.bind_mapM_within _ h

end Calls

namespace Interpretation

/-- Operators have values on literals of their types, and these are of the right
kind. So are the components of streams. -/
structure Total (A : Interpretation) : Prop where
  input : ∀ channel k, ∃ s, A.input channel k = some s ∧ s.kind = channel.format.encoding.kind
  convert : ∀ s {kind}, kind ≠ .unknown →
    ∃ r, A.unary .convert kind (some s) = some r ∧ r.kind = kind
  unary : ∀ {op : UnaryOp} {t s}, t ∈ op.types → t.operands = [s.kind] →
    op ≠ .length ∧ op ≠ .normalize → ∀ target,
      ∃ r, A.unary op target (some s) = some r ∧ r.kind = t.result
  binary : ∀ {op : BinaryOp} {t a b}, t ∈ op.types → t.operands = [a.kind, b.kind] →
    op ≠ .dot ∧ op ≠ .cross ∧ op ≠ .reflect →
      ∃ r, A.binary op (some a) (some b) = some r ∧ r.kind = t.result
  ternary : ∀ {op : TernaryOp} {t a b c}, t ∈ op.types → t.operands = [a.kind, b.kind, c.kind] →
    ∃ r, A.ternary op (some a) (some b) (some c) = some r ∧ r.kind = t.result

/-- Operators have their values on literals. -/
structure OnLiterals (A : Interpretation) : Prop where
  unary : A.unary = UnaryOp.lift
  binary : A.binary = BinaryOp.lift
  ternary : A.ternary = TernaryOp.lift

/-- Functions return literals of the given kinds. -/
def Answers (A : Interpretation) (outputs : FunctionId → Kind) : Prop :=
  ∀ f (arguments : List Scalar), outputs f ≠ .unknown →
    ∃ r, A.call f (arguments.map some) = some r ∧ r.kind = outputs f

end Interpretation

namespace Processor

/-- Operators over a processor, where streams hold patterns. -/
def interpretation (P : Processor) (read : Channel → Nat → UInt32) (calls : Calls) : Interpretation where
  input channel k := Scalar.ofBits? channel.format.encoding.kind (read channel k)
  unary op kind x := x.bind (P.unary? op kind)
  binary op x y := x.bind fun a => y.bind (P.binary? op a)
  ternary op x y z :=
    match op with
    | .select => TernaryOp.select.lift x y z
    | op => x.bind fun a => y.bind fun b => z.bind (P.ternary? op a b)
  call := calls.result
  unary_mono _ _ _ _ h := h.bind fun _ => .refl _
  binary_mono _ _ _ _ _ hx hy := hx.bind fun _ => hy.bind fun _ => .refl _
  ternary_mono op _ _ _ _ _ _ hx hy hz := by
    cases op with
    | select => exact (Interpretation.literal fun _ => 0).ternary_mono .select hx hy hz
    | _ => exact hx.bind fun _ => hy.bind fun _ => hz.bind fun _ => .refl _
  call_mono := calls.mono

variable {P : Processor} {read : Channel → Nat → UInt32} {calls : Calls}

/-- Operators over a processor have values. -/
theorem total : (P.interpretation read calls).Total where
  input channel k := by
    show ∃ s, Scalar.ofBits? channel.format.encoding.kind _ = some s ∧ _
    cases channel.format.encoding <;> exact ⟨_, rfl, rfl⟩
  convert s kind h := convert?_total s h
  unary := unary?_total
  binary := binary?_total
  ternary {op} _ _ _ _ ht hs := by
    by_cases hop : op = .select
    · subst hop
      exact TernaryOp.select_total ht hs
    · obtain ⟨r, hr, hkind⟩ := ternary?_total (P := P) ht hs hop
      refine ⟨r, ?_, hkind⟩
      cases op <;> first | exact hr | exact absurd rfl hop

/-- With the operations of the program, operators have their values on literals. -/
theorem interpretation_onLiterals : (program.interpretation read calls).OnLiterals where
  unary := by
    funext op kind x
    exact congrArg x.bind (congrFun (congrFun program_unary op) kind)
  binary := by
    funext op x y
    show x.bind (fun a => y.bind (program.binary? op a)) = x.bind fun a => y.bind (op.eval? a)
    rw [program_binary]
  ternary := by
    funext op x y z
    have hstrict : x.bind (fun a => y.bind fun b => z.bind (program.ternary? op a b)) =
        x.bind fun a => y.bind fun b => z.bind (op.eval? a b) := by rw [program_ternary]
    cases op <;> first | rfl | exact hstrict

/-- Without functions, the operations of the program are the literals of the program. -/
theorem interpretation_program (read : String → UInt32) :
    program.interpretation (fun channel k => read (channel.scalarName k)) .none =
      Interpretation.literal read := by
  obtain ⟨hunary, hbinary, hternary⟩ : (program.interpretation
      (fun channel k => read (channel.scalarName k)) .none).OnLiterals := interpretation_onLiterals
  have hinput : (program.interpretation (fun channel k => read (channel.scalarName k)) .none).input =
      (Interpretation.literal read).input := rfl
  have hcall : (program.interpretation (fun channel k => read (channel.scalarName k)) .none).call =
      (Interpretation.literal read).call := rfl
  generalize program.interpretation (fun channel k => read (channel.scalarName k)) .none = A at *
  cases A
  dsimp only at hinput hcall hunary hbinary hternary
  subst hinput hcall hunary hbinary hternary
  rfl

end Processor

/-- What the values of a graph depend on. -/
structure Environment where
  /-- The operations on numbers. -/
  processor : Processor
  /-- The patterns that streams hold, by component. -/
  read : Channel → Nat → UInt32
  /-- What functions return. -/
  calls : Calls

namespace Environment

/-- What operators, streams and functions mean. -/
def interpretation (E : Environment) : Interpretation := E.processor.interpretation E.read E.calls

/-- The operations of the program, without functions, where components are found by
their names. -/
def literal (read : String → UInt32) : Environment :=
  ⟨.program, fun channel k => read (channel.scalarName k), .none⟩

/-- The operations of the program have their values on literals. -/
theorem interpretation_literal (read : String → UInt32) :
    (literal read).interpretation = Interpretation.literal read :=
  Processor.interpretation_program read

end Environment

end LaneGraph
