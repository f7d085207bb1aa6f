import LaneGraph.Proofs.Narrow
import LaneGraph.Schedule.Emission

/-!
# Lines for operators without instructions

Each operator that has no instruction is replaced by lines of operators that have
one, or that are lowered further. Lines do what the definition of an operator does,
in its order, so that they have its value over every processor. Powers and logarithms
are an exception: what they are lowered to depends on which of their operands are
literals.
-/

namespace LaneGraph

open Build

/-- There is an instruction for the node, given the shapes of its operands. -/
def Node.encodable (n : Node) (shapes : List Shape) : Bool :=
  let kind := (shapes.getD 0 Shape.unknown).kind
  match n.op with
  | .unary op _ => (op.laneFunction? kind n.shape.kind).isSome
  | .binary op _ _ => (op.laneOperation? kind).isSome
  | .ternary .select _ _ _ => n.shape.kind.choice?.isSome
  | .ternary _ _ _ _ | .swizzle _ _ | .construct _ => false
  | _ => true

/-- Whether there is an instruction is seen in the frame of a node. -/
theorem Node.encodable_frame (n : Node) (shapes : List Shape) :
    n.frame.encodable shapes = n.encodable shapes := by
  unfold encodable frame
  cases n.op with
  | ternary op a b c => cases op <;> rfl
  | _ => rfl

/-- Powers and logarithms have no instruction. -/
theorem Node.not_power_of_encodable {n : Node} {shapes : List Shape}
    (h : n.encodable shapes = true) : n.isPower = false := by
  unfold encodable at h
  unfold isPower
  split
  case h_1 hop | h_2 hop =>
    rw [hop] at h
    dsimp only at h
    cases hkind : (shapes.getD 0 Shape.unknown).kind <;> rw [hkind] at h <;> cases h
  case h_3 => rfl

/-- The literal of a node is in its frame. -/
theorem Node.scalar?_frame (n : Node) : n.frame.scalar? = n.scalar? := by
  unfold scalar? constant? frame
  cases n.op <;> rfl

/-- The literal at a position. -/
def Graph.literalAt (g : Graph) (id : NodeId) : Option Scalar := (g.node? id).bind Node.scalar?

/-- The literal of a node. -/
theorem Graph.literalAt_eq {g : Graph} {id : NodeId} {n : Node} (h : g.node? id = some n) :
    g.literalAt id = n.scalar? := by
  unfold literalAt
  rw [h]
  rfl

namespace Lowering

/-- The zero of a kind. -/
def zeroOf : Kind → Scalar
  | .bool => .bool false
  | .int => .int 0
  | _ => .float 0

/-- The one of a kind. -/
def oneOf : Kind → Scalar
  | .bool => .bool true
  | .int => .int 1
  | _ => .float 1

/-- A whole number of a kind. -/
def wholeOf (kind : Kind) (n : Nat) : Scalar :=
  match kind with
  | .int => .int (Int32.ofNat n)
  | _ => .float (Single.ofNat n)

/-- A zero is a literal. -/
theorem zero_eq (kind : Kind) : zero kind = scalar (zeroOf kind) := by cases kind <;> rfl

/-- A one is a literal. -/
theorem one_eq (kind : Kind) : one kind = scalar (oneOf kind) := by cases kind <;> rfl

/-- A whole number is a literal. -/
theorem whole_eq (kind : Kind) (n : Nat) : whole kind n = scalar (wholeOf kind n) := by
  cases kind <;> rfl

/-- A whole number. -/
theorem wholeOf_float (n : Nat) : wholeOf .float n = .float (OfNat.ofNat n) := rfl

/-- The lines of a product with a factor. -/
def scaleLines (factor : Single) : List Line := [.literal (.float factor), .binary .multiply 0 1]

/-- The lines of an operator with one operand. -/
def unaryLines (op : UnaryOp) (kind : Kind) : List Line :=
  match op with
  | .negate => [.literal (zeroOf kind), .binary .subtract 1 0]
  | .saturate =>
    [.literal (zeroOf kind), .literal (oneOf kind), .binary .min 2 0, .binary .max 1 3]
  | .pow2 => [.literal (.int 1), .binary .shiftLeft 1 0]
  | .radToDeg => scaleLines Single.degreesPerRadian
  | .degToRad => scaleLines Single.radiansPerDegree
  | .frac => [.unary .trunc 0, .binary .subtract 0 1]
  | _ => []

/-- The lines of a remainder. -/
def moduloLines (kind : Kind) : List Line :=
  if kind = .float then
    [.binary .divide 0 1, .unary .trunc 2, .binary .multiply 1 3, .binary .subtract 0 4]
  else [.binary .divide 0 1, .binary .multiply 1 2, .binary .subtract 0 3]

/-- The lines of an operator with three operands. -/
def ternaryLines (op : TernaryOp) (kind : Kind) : List Line :=
  match op with
  | .clamp => [.binary .min 2 0, .binary .max 1 3]
  | .lerp => [.binary .subtract 1 0, .binary .multiply 2 3, .binary .add 0 4]
  | .smoothStep =>
    [.binary .subtract 2 0, .binary .subtract 1 0, .binary .divide 3 4, .unary .saturate 5,
     .binary .multiply 6 6, .literal (wholeOf kind 2), .literal (wholeOf kind 3),
     .binary .multiply 8 6, .binary .subtract 9 10, .binary .multiply 7 11]
  | .smootherStep =>
    [.binary .subtract 2 0, .binary .subtract 1 0, .binary .divide 3 4, .unary .saturate 5,
     .binary .multiply 6 6, .literal (wholeOf kind 6), .literal (wholeOf kind 15),
     .literal (wholeOf kind 10), .binary .multiply 6 8, .binary .subtract 11 9,
     .binary .multiply 6 12, .binary .add 13 10, .binary .multiply 7 6, .binary .multiply 15 14]
  | .select => []

/-- The lines of a conversion to booleans. -/
def toBoolLines (source : Kind) : List Line :=
  [.literal (zeroOf source), .binary .notEqual 0 1]

/-- The lines of a conversion from booleans. -/
def ofBoolLines (kind : Kind) : List Line :=
  [.literal (oneOf kind), .literal (zeroOf kind), .ternary .select 0 1 2]

/-- The lines of a power by way of logarithms. -/
def powLines (kind : Kind) : List Line :=
  if kind = .int then
    [.convert 0 .float, .convert 1 .float, .unary .log2 2, .binary .multiply 3 4, .unary .pow2 5,
     .unary .round 6, .convert 7 .int]
  else [.unary .log2 0, .binary .multiply 1 2, .unary .pow2 3]

/-- The place of an entry of a multiplication chain whose exponent is the second
operand. -/
def chainPlace (i : Nat) : Nat := if i = 0 then 0 else i + 1

/-- The lines of a multiplication chain. -/
def chainLines (chain : List Power.Product) : List Line :=
  chain.map fun (a, b) => .binary .multiply (chainPlace a) (chainPlace b)

/-- The lines of a power other than its base, given the literals of its operands. -/
def powerLines? (kind : Kind) (base exponent : Option Scalar) : Option (List Line) :=
  if base.any (·.isValue 2) then some [.unary .pow2 1]
  else
    match exponent with
    | none => some (powLines kind)
    | some e =>
      if e.isOne then none
      else
        match literalChain? e with
        | some chain => some (chainLines chain)
        | none => some (powLines kind)

/-- The lines of a logarithm, given the literal of its base. -/
def logLines : Option Scalar → List Line
  | some (.float b) =>
    if b.eq 2 then [.unary .log2 1]
    else [.unary .log2 1, .literal (.float (Single.div 1 b.log2)), .binary .multiply 2 3]
  | _ => [.unary .log2 1, .unary .log2 0, .binary .divide 2 3]

/-- Room for what an operator is lowered to. -/
def need : Operation → Nat
  | .unary .negate _ | .unary .pow2 _ | .unary .radToDeg _ | .unary .degToRad _
  | .unary .convert _ => 2
  | .unary .saturate _ | .unary .frac _ => 3
  | .binary .modulo _ _ => 5
  | .binary .log _ _ => 3
  | .binary .pow _ _ => 10
  | .ternary .clamp _ _ _ => 3
  | .ternary .lerp _ _ _ => 4
  | .ternary .smoothStep _ _ _ => 9
  | .ternary .smootherStep _ _ _ => 11
  | _ => 1

/-- The rules under which operators are lowered where nodes have a form. -/
def rulesFor (tracked simple : Prop) (A : Interpretation) (form : Node → Bool) : TypedRules :=
  { tracked, simple, semantics := A.semantics, form := fun n _ => form n, need }

/-- The rules under which operators are lowered in any graph of scalars. -/
def rules (tracked simple : Prop) (read : String → UInt32) : TypedRules :=
  { tracked, simple, semantics := .literal read, form := fun n _ => n.narrow, need }

/-- Any graph of scalars is over the operations of the program. -/
theorem rules_eq (tracked simple : Prop) (read : String → UInt32) :
    rules tracked simple read =
      rulesFor tracked simple (Environment.literal read).interpretation Node.narrow := by
  unfold rules rulesFor
  rw [Environment.interpretation_literal, Semantics.literal_eq]

/-- A form of nodes under which operators are lowered: every basic node has it. Where
values are followed, those of calls are there. -/
structure Admits (tracked simple : Prop) (E : Environment) (form : Node → Bool) : Prop where
  frame : ∀ n, form n.frame = form n
  narrow : ∀ n, form n = true → n.narrow = true
  basic : ∀ n, n.narrow = true → n.basic = true → form n = true
  followed : tracked → simple ∨
    ∃ outputs, E.interpretation.Answers outputs ∧ ∀ n, form n = true → n.answered outputs = true

/-- Every graph of scalars may be lowered. -/
theorem Admits.scalars {tracked simple : Prop} (htracked : tracked → simple) (E : Environment) :
    Admits tracked simple E Node.narrow where
  frame := Node.narrow_frame
  narrow _ h := h
  basic _ h _ := h
  followed h := .inl (htracked h)

/-- The form of a node whose result is there. -/
def answering (outputs : FunctionId → Kind) (n : Node) : Bool := n.narrow && n.answered outputs

/-- Graphs whose calls have results may be followed over every processor. -/
theorem Admits.answering {tracked simple : Prop} {E : Environment} {outputs : FunctionId → Kind}
    (h : E.interpretation.Answers outputs) : Admits tracked simple E (Lowering.answering outputs) where
  frame n := by
    unfold Lowering.answering
    rw [n.narrow_frame, n.answered_frame]
  narrow n hn := (Bool.and_eq_true_iff.mp hn).1
  basic n hnarrow hbasic := by
    unfold Lowering.answering
    rw [hnarrow, Node.answered_of_not_call outputs (Node.of_basic hbasic).2]
    rfl
  followed _ := .inr ⟨outputs, h, fun n hn => (Bool.and_eq_true_iff.mp hn).2⟩

/-- Lines of scalars that fit an operator, its shape being that of its operands. -/
abbrev fit (kinds : List Kind) (lines : List Line) (kind : Kind) (op : Operation) : Bool :=
  Line.fit (fun n _ => n.narrow && n.basic) need (shapesOf kinds 1) lines ⟨kind, 1⟩ (need op)

/-- The lines of operators with one operand fit all their types. -/
theorem unary_fits : ∀ op ∈ [UnaryOp.negate, .saturate, .radToDeg, .degToRad, .frac],
    ∀ t ∈ op.types, fit t.operands (unaryLines op t.result) t.result (.unary op 0) = true := by
  decide

/-- The lines of an integer power of two fit. -/
theorem pow2_fit : fit [.int] (unaryLines .pow2 .int) .int (.unary .pow2 0) = true := by
  decide

/-- The lines of a remainder fit all its types. -/
theorem modulo_fits : ∀ t ∈ BinaryOp.modulo.types,
    fit t.operands (moduloLines t.result) t.result (.binary .modulo 0 0) = true := by
  decide

/-- The lines of a power fit all its types, whichever way is taken. -/
theorem pow_fits : ∀ t ∈ BinaryOp.pow.types, ∀ lines ∈
    powLines t.result :: [.unary .pow2 1] :: Power.chains.map chainLines,
    fit t.operands lines t.result (.binary .pow 0 0) = true := by
  decide

/-- The lines of operators with three operands fit all their types. -/
theorem ternary_fits : ∀ op ∈ [TernaryOp.clamp, .lerp, .smoothStep, .smootherStep],
    ∀ t ∈ op.types,
      fit t.operands (ternaryLines op t.result) t.result (.ternary op 0 0 0) = true := by
  decide

/-- The lines of conversions to and from booleans fit. -/
theorem convert_fits : ∀ kind ∈ [Kind.float, .int],
    fit [.bool] (ofBoolLines kind) kind (.unary .convert 0) = true ∧
    fit [kind] (toBoolLines kind) .bool (.unary .convert 0) = true := by
  decide

/-- The lines of a logarithm fit. -/
theorem log_fits : ∀ lines ∈ [[Line.unary .log2 1],
      [.unary .log2 1, .unary .log2 0, .binary .divide 2 3]],
    fit [.float, .float] lines .float (.binary .log 0 0) = true := by
  decide

/-- The lines of a logarithm to a literal base fit, whatever the literal. -/
theorem fit_log (v : Single) : fit [.float, .float]
    [.unary .log2 1, .literal (.float v), .binary .multiply 2 3] .float (.binary .log 0 0) = true := by
  rfl

/-- The lines of a logarithm fit. -/
theorem fit_logLines (v : Option Scalar) :
    logLines v ≠ [] ∧ fit [.float, .float] (logLines v) .float (.binary .log 0 0) = true := by
  unfold logLines
  split
  · split
    · exact ⟨List.cons_ne_nil _ _, log_fits _ (by decide)⟩
    · exact ⟨List.cons_ne_nil _ _, fit_log _⟩
  · exact ⟨List.cons_ne_nil _ _, log_fits _ (by decide)⟩

/-- A literal exponent with a chain has one of the chains. -/
theorem mem_chains {e : Scalar} {chain : List Power.Product} (h : literalChain? e = some chain) :
    chain ∈ Power.chains := by
  have hchain : ∀ n, Power.chain? n = some chain → chain ∈ Power.chains := by
    intro n hn
    unfold Power.chain? at hn
    split at hn
    · exact List.mem_of_getElem? hn
    · cases hn
  cases e with
  | bool b => cases h
  | int n => exact hchain n h
  | float x =>
    obtain ⟨n, -, hn⟩ := Option.bind_eq_some_iff.mp h
    exact hchain n hn

/-- The lines of a power are among those that fit. -/
theorem powerLines?_mem {kind : Kind} {base exponent : Option Scalar} {lines : List Line}
    (h : powerLines? kind base exponent = some lines) :
    lines ∈ powLines kind :: [.unary .pow2 1] :: Power.chains.map chainLines := by
  unfold powerLines? at h
  split at h
  · cases h
    exact List.mem_cons_of_mem _ List.mem_cons_self
  · split at h
    · cases h
      exact List.mem_cons_self
    · split at h
      · cases h
      · split at h
        · rename_i hchain
          cases h
          exact List.mem_cons_of_mem _ (List.mem_cons_of_mem _
            (List.mem_map_of_mem (mem_chains hchain)))
        · cases h
          exact List.mem_cons_self

/-- The lines of integer and boolean operators make plain nodes. -/
theorem plain_lines :
    Line.plain [⟨.int, 1⟩] (unaryLines .negate .int) = true ∧
    Line.plain [⟨.int, 1⟩] (unaryLines .saturate .int) = true ∧
    Line.plain [⟨.int, 1⟩] (unaryLines .pow2 .int) = true ∧
    Line.plain [⟨.int, 1⟩, ⟨.int, 1⟩] (moduloLines .int) = true ∧
    Line.plain [⟨.int, 1⟩, ⟨.int, 1⟩, ⟨.int, 1⟩] (ternaryLines .clamp .int) = true ∧
    Line.plain [⟨.bool, 1⟩] (ofBoolLines .int) = true ∧
    Line.plain [⟨.int, 1⟩] (toBoolLines .int) = true := by
  decide

/-! ## What lines compute -/

section

variable {tracked simple : Prop} {A : Interpretation} {form : Node → Bool} {x y z : Value}
  {ns : List Node}

/-- What the lines of an operator with one operand compute. -/
def unaryValue (A : Interpretation) (op : UnaryOp) (kind : Kind) (x : Option Scalar) :
    Option Scalar :=
  match op with
  | .negate => A.binary .subtract (some (zeroOf kind)) x
  | .saturate =>
    A.binary .max (some (zeroOf kind)) (A.binary .min (some (oneOf kind)) x)
  | .pow2 => A.binary .shiftLeft (some (.int 1)) x
  | .radToDeg => A.binary .multiply x (some (.float Single.degreesPerRadian))
  | .degToRad => A.binary .multiply x (some (.float Single.radiansPerDegree))
  | .frac => A.binary .subtract x (A.unary .trunc .float x)
  | _ => none

/-- What the lines of a remainder compute. -/
def moduloValue (A : Interpretation) (kind : Kind) (x y : Option Scalar) : Option Scalar :=
  let quotient := A.binary .divide x y
  let whole := if kind = .float then A.unary .trunc .float quotient else quotient
  A.binary .subtract x (A.binary .multiply y whole)

/-- Where the lines of a step between two edges are, clamped to zero and one. -/
def stepValue (A : Interpretation) (edge0 edge1 x : Option Scalar) : Option Scalar :=
  A.unary .saturate .float
    (A.binary .divide (A.binary .subtract x edge0) (A.binary .subtract edge1 edge0))

/-- What the lines of an operator with three operands compute. -/
def ternaryValue (A : Interpretation) (op : TernaryOp) (kind : Kind) (x y z : Option Scalar) :
    Option Scalar :=
  let t := stepValue A x y z
  let square := A.binary .multiply t t
  match op with
  | .clamp => A.binary .max y (A.binary .min z x)
  | .lerp => A.binary .add x (A.binary .multiply z (A.binary .subtract y x))
  | .smoothStep =>
    A.binary .multiply square (A.binary .subtract (some (wholeOf kind 3))
      (A.binary .multiply (some (wholeOf kind 2)) t))
  | .smootherStep =>
    let a := A.binary .multiply t (some (wholeOf kind 6))
    let b := A.binary .subtract a (some (wholeOf kind 15))
    let inner := A.binary .add (A.binary .multiply t b) (some (wholeOf kind 10))
    A.binary .multiply (A.binary .multiply square t) inner
  | .select => none

/-- The value of the lines of a product with a factor. -/
theorem scale_value {factor : Single} (h : Line.frames [⟨.float, 1⟩] (scaleLines factor) = some ns) :
    (Line.result (rulesFor tracked simple A form) (Entry.operands [⟨.float, 1⟩] [x])
      (scaleLines factor) ns).value 0 = A.binary .multiply (x 0) (some (.float factor)) := by
  obtain rfl := Line.getD_frames h
  rfl

/-- The value of the lines of an operator with one operand. -/
theorem unary_value {op : UnaryOp} {t : OperatorType} (ht : t ∈ op.types)
    (hop : op ∈ [.negate, .saturate, .radToDeg, .degToRad, .frac] ∨ op = .pow2 ∧ t.result = .int)
    (h : Line.frames (shapesOf t.operands 1) (unaryLines op t.result) = some ns) :
    (Line.result (rulesFor tracked simple A form) (Entry.operands (shapesOf t.operands 1) [x])
      (unaryLines op t.result) ns).value 0 = unaryValue A op t.result (x 0) := by
  rcases hop with hop | ⟨rfl, hint⟩
  · simp only [List.mem_cons, List.not_mem_nil, or_false] at hop
    rcases hop with rfl | rfl | rfl | rfl | rfl
    case inr.inr.inl | inr.inr.inr.inl =>
      cases List.mem_singleton.mp ht
      exact scale_value h
    all_goals
      simp only [UnaryOp.types, List.mem_cons, List.not_mem_nil, or_false] at ht
      rcases ht with rfl | rfl
      all_goals
        obtain rfl := Line.getD_frames h
        rfl
  · simp only [UnaryOp.types, List.mem_cons, List.not_mem_nil, or_false] at ht
    rcases ht with rfl | rfl
    · cases hint
    · obtain rfl := Line.getD_frames h
      rfl

/-- The value of the lines of a remainder. -/
theorem modulo_value {t : OperatorType} (ht : t ∈ BinaryOp.modulo.types)
    (h : Line.frames (shapesOf t.operands 1) (moduloLines t.result) = some ns) :
    (Line.result (rulesFor tracked simple A form) (Entry.operands (shapesOf t.operands 1) [x, y])
      (moduloLines t.result) ns).value 0 = moduloValue A t.result (x 0) (y 0) := by
  rcases List.mem_pair.mp ht with rfl | rfl
  all_goals
    obtain rfl := Line.getD_frames h
    rfl

/-- The value of the lines of an operator with three operands. -/
theorem ternary_value {op : TernaryOp} {t : OperatorType} (ht : t ∈ op.types) (hop : op ≠ .select)
    (h : Line.frames (shapesOf t.operands 1) (ternaryLines op t.result) = some ns) :
    (Line.result (rulesFor tracked simple A form) (Entry.operands (shapesOf t.operands 1) [x, y, z])
      (ternaryLines op t.result) ns).value 0 = ternaryValue A op t.result (x 0) (y 0) (z 0) := by
  cases op
  case select => exact absurd rfl hop
  all_goals
    simp only [TernaryOp.types, List.mem_cons, List.not_mem_nil, or_false] at ht
    rcases ht with rfl | rfl
    all_goals
      conv at h => lhs; cbv
      cases h
      cbv

/-- The value of the lines of a conversion from booleans. -/
theorem ofBool_value {kind : Kind} (hkind : kind = .float ∨ kind = .int)
    (h : Line.frames [⟨.bool, 1⟩] (ofBoolLines kind) = some ns) :
    (Line.result (rulesFor tracked simple A form) (Entry.operands [⟨.bool, 1⟩] [x])
      (ofBoolLines kind) ns).value 0 =
      A.ternary .select (x 0) (some (oneOf kind)) (some (zeroOf kind)) := by
  rcases hkind with rfl | rfl
  all_goals
    obtain rfl := Line.getD_frames h
    rfl

/-- The value of the lines of a conversion to booleans. -/
theorem toBool_value {kind : Kind} (hkind : kind = .float ∨ kind = .int)
    (h : Line.frames [⟨kind, 1⟩] (toBoolLines kind) = some ns) :
    (Line.result (rulesFor tracked simple A form) (Entry.operands [⟨kind, 1⟩] [x])
      (toBoolLines kind) ns).value 0 = A.binary .notEqual (x 0) (some (zeroOf kind)) := by
  rcases hkind with rfl | rfl
  all_goals
    obtain rfl := Line.getD_frames h
    rfl

/-- What the lines of a power by way of logarithms compute. -/
def powByLogValue (A : Interpretation) (kind : Kind) (x y : Option Scalar) : Option Scalar :=
  if kind = .int then
    A.unary .convert .int (A.unary .round .float (A.unary .pow2 .float
      (A.binary .multiply (A.unary .convert .float y)
        (A.unary .log2 .float (A.unary .convert .float x)))))
  else A.unary .pow2 .float (A.binary .multiply y (A.unary .log2 .float x))

/-- What a power is lowered to, given the literals of its operands. -/
def powValue (A : Interpretation) (kind : Kind) (base exponent x y : Option Scalar) :
    Option Scalar :=
  if base.any (·.isValue 2) then A.unary .pow2 kind y
  else
    match exponent with
    | none => powByLogValue A kind x y
    | some e =>
      if e.isOne then x
      else
        match literalChain? e with
        | some chain => Power.eval (A.binary .multiply) x chain
        | none => powByLogValue A kind x y

/-- What a logarithm is lowered to, given the literal of its base. -/
def logValue (A : Interpretation) (base x y : Option Scalar) : Option Scalar :=
  match base with
  | some (.float b) =>
    if b.eq 2 then A.unary .log2 .float y
    else A.binary .multiply (A.unary .log2 .float y) (some (.float (Single.div 1 b.log2)))
  | _ => A.binary .divide (A.unary .log2 .float y) (A.unary .log2 .float x)

/-- The value of the lines of a power by way of logarithms. -/
theorem powByLog_value {t : OperatorType} (ht : t ∈ BinaryOp.pow.types)
    (h : Line.frames (shapesOf t.operands 1) (powLines t.result) = some ns) :
    (Line.result (rulesFor tracked simple A form) (Entry.operands (shapesOf t.operands 1) [x, y])
      (powLines t.result) ns).value 0 = powByLogValue A t.result (x 0) (y 0) := by
  rcases List.mem_pair.mp ht with rfl | rfl
  all_goals
    obtain rfl := Line.getD_frames h
    rfl

/-- The value of the line of a power of two. -/
theorem pow2_value {t : OperatorType} (ht : t ∈ BinaryOp.pow.types)
    (h : Line.frames (shapesOf t.operands 1) [.unary .pow2 1] = some ns) :
    (Line.result (rulesFor tracked simple A form) (Entry.operands (shapesOf t.operands 1) [x, y])
      [.unary .pow2 1] ns).value 0 = A.unary .pow2 t.result (y 0) := by
  rcases List.mem_pair.mp ht with rfl | rfl
  all_goals
    obtain rfl := Line.getD_frames h
    rfl

/-- The value of the lines of a multiplication chain. -/
theorem chain_value {t : OperatorType} (ht : t ∈ BinaryOp.pow.types) {chain : List Power.Product}
    (hchain : chain ∈ Power.chains)
    (h : Line.frames (shapesOf t.operands 1) (chainLines chain) = some ns) :
    (Line.result (rulesFor tracked simple A form) (Entry.operands (shapesOf t.operands 1) [x, y])
      (chainLines chain) ns).value 0 = Power.eval (A.binary .multiply) (x 0) chain := by
  simp only [Power.chains, List.mem_cons, List.not_mem_nil, or_false] at hchain
  rcases List.mem_pair.mp ht with rfl | rfl
  all_goals
    rcases hchain with rfl | rfl | rfl | rfl | rfl | rfl | rfl | rfl | rfl | rfl | rfl | rfl |
      rfl | rfl | rfl
    all_goals
      conv at h => lhs; cbv
      cases h
      cbv

/-- The value of the lines of a power other than its base. -/
theorem powerLines?_value {t : OperatorType} (ht : t ∈ BinaryOp.pow.types)
    {base exponent : Option Scalar} {lines : List Line}
    (hlines : powerLines? t.result base exponent = some lines)
    (h : Line.frames (shapesOf t.operands 1) lines = some ns) :
    (Line.result (rulesFor tracked simple A form) (Entry.operands (shapesOf t.operands 1) [x, y])
      lines ns).value 0 = powValue A t.result base exponent (x 0) (y 0) := by
  unfold powerLines? at hlines
  unfold powValue
  split_ifs at hlines ⊢ with htwo
  · cases hlines
    exact pow2_value ht h
  · cases exponent with
    | none =>
      cases hlines
      exact powByLog_value ht h
    | some e =>
      dsimp only at hlines ⊢
      split_ifs at hlines ⊢ with hone
      cases hchain : literalChain? e with
      | none =>
        rw [hchain] at hlines
        cases hlines
        exact powByLog_value ht h
      | some chain =>
        rw [hchain] at hlines
        cases hlines
        exact chain_value ht (mem_chains hchain) h

/-- A power without lines has the value of its base. -/
theorem powValue_base {kind : Kind} {base exponent v v' : Option Scalar}
    (h : powerLines? kind base exponent = none) : powValue A kind base exponent v v' = v := by
  unfold powerLines? at h
  unfold powValue
  split_ifs at h ⊢ with htwo
  cases exponent with
  | none => cases h
  | some e =>
    dsimp only at h ⊢
    split_ifs at h ⊢ with hone
    · rfl
    · cases hchain : literalChain? e <;> rw [hchain] at h <;> cases h

/-- The value of the lines of a logarithm. -/
theorem log_value {base : Option Scalar}
    (h : Line.frames [⟨.float, 1⟩, ⟨.float, 1⟩] (logLines base) = some ns) :
    (Line.result (rulesFor tracked simple A form) (Entry.operands [⟨.float, 1⟩, ⟨.float, 1⟩] [x, y])
      (logLines base) ns).value 0 = logValue A base (x 0) (y 0) := by
  unfold logLines at h ⊢
  unfold logValue
  split at h
  · -- The factor is taken out, so that it is not computed.
    rename_i b
    split_ifs at h ⊢ with htwo
    · obtain rfl := Line.getD_frames h
      rfl
    · generalize Single.div 1 b.log2 = factor at h ⊢
      obtain rfl := Line.getD_frames h
      rfl
  · obtain rfl := Line.getD_frames h
    rfl

end

section

variable {E : Environment}

/-- The lines of an operator with one operand compute its value. -/
theorem unaryValue_eq {op : UnaryOp} {t : OperatorType} (ht : t ∈ op.types)
    (hop : op ∈ [.negate, .saturate, .radToDeg, .degToRad, .frac] ∨ op = .pow2 ∧ t.result = .int)
    {v : Scalar} (hv : t.operands = [v.kind]) :
    unaryValue E.interpretation op t.result (some v) =
      E.interpretation.unary op t.result (some v) := by
  rcases hop with hop | ⟨rfl, hint⟩
  · simp only [List.mem_cons, List.not_mem_nil, or_false] at hop
    rcases hop with rfl | rfl | rfl | rfl | rfl
    all_goals
      simp only [UnaryOp.types, List.mem_cons, List.not_mem_nil, or_false] at ht
      rcases ht with rfl | rfl
      all_goals cases v <;> first | rfl | cases hv
  · simp only [UnaryOp.types, List.mem_cons, List.not_mem_nil, or_false] at ht
    rcases ht with rfl | rfl
    · cases hint
    · cases v <;> first | rfl | cases hv

/-- The lines of a remainder compute it. -/
theorem moduloValue_eq {t : OperatorType} (ht : t ∈ BinaryOp.modulo.types) {v v' : Scalar}
    (hv : t.operands = [v.kind, v'.kind]) :
    moduloValue E.interpretation t.result (some v) (some v') =
      E.interpretation.binary .modulo (some v) (some v') := by
  rcases List.mem_pair.mp ht with rfl | rfl
  all_goals cases v <;> cases v' <;> first | rfl | cases hv

/-- A clamp is a minimum followed by a maximum. -/
theorem clamp_eq (v low high : Int32) :
    E.interpretation.binary .max (some (.int low))
        (E.interpretation.binary .min (some (.int high)) (some (.int v))) =
      E.interpretation.ternary .clamp (some (.int v)) (some (.int low)) (some (.int high)) := by
  have hmin : E.interpretation.binary .min (some (.int high)) (some (.int v)) =
      some (.int (Integer.min high v)) := rfl
  have hmax : E.interpretation.binary .max (some (.int low)) (some (.int (Integer.min high v))) =
      some (.int (Integer.max low (Integer.min high v))) := rfl
  rw [hmin, hmax]
  rfl

/-- The lines of an operator with three operands compute its value. -/
theorem ternaryValue_eq {op : TernaryOp} {t : OperatorType} (ht : t ∈ op.types) (hop : op ≠ .select)
    {v v' v'' : Scalar} (hv : t.operands = [v.kind, v'.kind, v''.kind]) :
    ternaryValue E.interpretation op t.result (some v) (some v') (some v'') =
      E.interpretation.ternary op (some v) (some v') (some v'') := by
  cases op
  case select => exact absurd rfl hop
  case clamp =>
    rcases List.mem_pair.mp ht with rfl | rfl
    all_goals cases v <;> cases v' <;> cases v'' <;> cases hv
    case inl => rfl
    case inr => exact clamp_eq _ _ _
  all_goals
    cases List.mem_singleton.mp ht
    cases v <;> cases v' <;> cases v'' <;> cases hv
  case lerp => rfl
  -- The factors are taken out, so that they are not computed.
  case smoothStep =>
    rename_i e e' x
    show ternaryValue _ _ .float _ _ _ = some (Scalar.float (E.processor.smoothStep e e' x))
    simp only [Processor.smoothStep, ternaryValue]
    rw [wholeOf_float 2, wholeOf_float 3]
    generalize (2 : Single) = two
    generalize (3 : Single) = three
    rfl
  case smootherStep =>
    rename_i e e' x
    show ternaryValue _ _ .float _ _ _ = some (Scalar.float (E.processor.smootherStep e e' x))
    simp only [Processor.smootherStep, ternaryValue]
    rw [wholeOf_float 6, wholeOf_float 15, wholeOf_float 10]
    generalize (6 : Single) = six
    generalize (15 : Single) = fifteen
    generalize (10 : Single) = ten
    rfl

/-- A choice between one and zero converts a boolean. -/
theorem ofBoolValue_eq {kind : Kind} (hkind : kind = .float ∨ kind = .int) {v : Scalar}
    (hv : v.kind = .bool) :
    E.interpretation.ternary .select (some v) (some (oneOf kind)) (some (zeroOf kind)) =
      E.interpretation.unary .convert kind (some v) := by
  cases v with
  | int | float => cases hv
  | bool b => rcases hkind with rfl | rfl <;> cases b <;> rfl

/-- A comparison with zero converts to a boolean. -/
theorem toBoolValue_eq {v : Scalar} (hv : v.kind = .float ∨ v.kind = .int) :
    E.interpretation.binary .notEqual (some v) (some (zeroOf v.kind)) =
      E.interpretation.unary .convert .bool (some v) := by
  cases v with
  | bool => rcases hv with hv | hv <;> cases hv
  | int | float => rfl

end

end Lowering

end LaneGraph
