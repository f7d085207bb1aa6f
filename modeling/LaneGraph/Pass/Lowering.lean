import LaneGraph.Pass.Folding

/-!
# Lowering

Operators without an instruction are replaced by the sequence of operators that
defines them. The order of operands and operations is that of the definitions on
literals, so that folding and execution agree bit by bit.
-/

namespace LaneGraph.Lowering

/-- A zero literal; false for booleans. -/
def zero : Kind → Build NodeId
  | .bool => Build.bool false
  | .int => Build.int 0
  | _ => Build.float 0

/-- A one literal; true for booleans. -/
def one : Kind → Build NodeId
  | .bool => Build.bool true
  | .int => Build.int 1
  | _ => Build.float 1

/-- A whole number as a literal, an integer or else a number. -/
def whole (kind : Kind) (n : Nat) : Build NodeId :=
  match kind with
  | .int => Build.int (Int32.ofNat n)
  | _ => Build.float (Single.ofNat n)

/-- The kind of a node. -/
def kindOf (id : NodeId) : Build Kind := return (← Build.shape id).kind

/-- Convert to a number unless it is one. -/
def toFloat (id : NodeId) : Build NodeId := do
  if (← kindOf id) = .float then return id else Build.convert id .float

/-- Lower an operator with one operand. -/
def lowerUnary (id : NodeId) (kind : Kind) (op : UnaryOp) (x : NodeId) : Build NodeId := do
  match op with
  | .negate =>
    let z ← zero kind
    Build.binary .subtract z x
  | .saturate =>
    let low ← zero kind
    let high ← one kind
    let upper ← Build.binary .min high x
    Build.binary .max low upper
  | .pow2 =>
    if kind = .int then
      let unit ← Build.int 1
      Build.binary .shiftLeft unit x
    else return id
  | .radToDeg =>
    let factor ← Build.float Single.degreesPerRadian
    Build.binary .multiply x factor
  | .degToRad =>
    let factor ← Build.float Single.radiansPerDegree
    Build.binary .multiply x factor
  | .frac =>
    let whole ← Build.unary .trunc x
    Build.binary .subtract x whole
  | .all | .any => return x
  | .convert =>
    let source ← kindOf x
    if source = kind then return x
    else if kind = .bool then
      let z ← zero source
      Build.binary .notEqual x z
    else if source = .bool then
      let t ← one kind
      let f ← zero kind
      Build.ternary .select x t f
    else return id
  | _ => return id

/-- Multiply nodes along a chain; the last product is the power. -/
def powerChain (base : NodeId) : List NodeId → List Power.Product → Build NodeId
  | values, [] => return values.getLastD base
  | values, (a, b) :: rest => do
    let product ← Build.binary .multiply (values.getD a base) (values.getD b base)
    powerChain base (values ++ [product]) rest

/-- The multiplication chain of a literal exponent. -/
def literalChain? : Scalar → Option (List Power.Product)
  | .int n => Power.chain? n
  | .float x => x.wholeExponent?.bind Power.chain?
  | .bool _ => none

/-- Lower a power by way of logarithms. -/
def lowerPowByLog (kind : Kind) (base exponent : NodeId) : Build NodeId := do
  let base ← toFloat base
  let exponent ← toFloat exponent
  let log ← Build.unary .log2 base
  let scaled ← Build.binary .multiply exponent log
  let result ← Build.unary .pow2 scaled
  if kind = .int then
    let rounded ← Build.unary .round result
    Build.convert rounded .int
  else return result

/-- Lower a power. Literal operands take the short ways. -/
def lowerPow (kind : Kind) (base exponent : NodeId) : Build NodeId := do
  let b ← Folding.scalarAt? base
  if b.any (·.isValue 2) then Build.unary .pow2 exponent
  else
    match ← Folding.scalarAt? exponent with
    | none => lowerPowByLog kind base exponent
    | some e =>
      if e.isOne then return base
      else
        match literalChain? e with
        | some chain => powerChain base [base] chain
        | none => lowerPowByLog kind base exponent

/-- Lower a logarithm to a given base. -/
def lowerLog (base value : NodeId) : Build NodeId := do
  let logValue ← Build.unary .log2 value
  match ← Folding.scalarAt? base with
  | some (.float b) =>
    if b.eq 2 then return logValue
    else
      let factor ← Build.float (Single.div 1 b.log2)
      Build.binary .multiply logValue factor
  | _ =>
    let logBase ← Build.unary .log2 base
    Build.binary .divide logValue logBase

/-- Lower an operator with two operands. -/
def lowerBinary (id : NodeId) (kind : Kind) (op : BinaryOp) (left right : NodeId) :
    Build NodeId := do
  match op with
  | .modulo =>
    let quotient ← Build.binary .divide left right
    let quotient ←
      if (← kindOf quotient) = .float then Build.unary .trunc quotient else pure quotient
    let product ← Build.binary .multiply right quotient
    Build.binary .subtract left product
  | .log => lowerLog left right
  | .pow => lowerPow kind left right
  | _ => return id

/-- The cubic polynomial of a smooth step, from `t` and its square. -/
def smoothTail (kind : Kind) (t square : NodeId) : Build NodeId := do
  let two ← whole kind 2
  let three ← whole kind 3
  let twice ← Build.binary .multiply two t
  let tail ← Build.binary .subtract three twice
  Build.binary .multiply square tail

/-- The quintic polynomial of a smoother step, from `t` and its square. -/
def smootherTail (kind : Kind) (t square : NodeId) : Build NodeId := do
  let six ← whole kind 6
  let fifteen ← whole kind 15
  let ten ← whole kind 10
  let a ← Build.binary .multiply t six
  let b ← Build.binary .subtract a fifteen
  let c ← Build.binary .multiply t b
  let inner ← Build.binary .add c ten
  let cube ← Build.binary .multiply square t
  Build.binary .multiply cube inner

/-- The position between two edges, clamped, and its square. -/
def stepParameter (edge0 edge1 x : NodeId) : Build (NodeId × NodeId) := do
  let offset ← Build.binary .subtract x edge0
  let range ← Build.binary .subtract edge1 edge0
  let ratio ← Build.binary .divide offset range
  let t ← Build.unary .saturate ratio
  let square ← Build.binary .multiply t t
  return (t, square)

/-- Lower an operator with three operands. -/
def lowerTernary (id : NodeId) (kind : Kind) (op : TernaryOp) (a b c : NodeId) :
    Build NodeId := do
  match op with
  | .clamp =>
    let upper ← Build.binary .min c a
    Build.binary .max b upper
  | .lerp =>
    let delta ← Build.binary .subtract b a
    let scaled ← Build.binary .multiply c delta
    Build.binary .add a scaled
  | .smoothStep =>
    let (t, square) ← stepParameter a b c
    smoothTail kind t square
  | .smootherStep =>
    let (t, square) ← stepParameter a b c
    smootherTail kind t square
  | .select => return id

/-- Lower one node. A constructor of one scalar is that scalar. -/
def replace (id : NodeId) : Build NodeId := do
  let n ← Build.node id
  match n.op with
  | .unary op x => lowerUnary id n.shape.kind op x
  | .binary op left right => lowerBinary id n.shape.kind op left right
  | .ternary op a b c => lowerTernary id n.shape.kind op a b c
  | .construct [argument] => return argument
  | .construct arguments => throw (.constructorTooManyArguments n.shape arguments.length)
  | _ => return id

/-- The pass that lowers operators without an instruction. -/
def pass : Pass := ⟨"ReplaceUnsupportedInstructions", .downward, replace⟩

end LaneGraph.Lowering
