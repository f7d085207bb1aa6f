import LaneGraph.Proofs.Meaning
import Mathlib.Data.List.Forall2

/-!
# Interpretations of operators

What passes over a graph keep does not depend on what the operators do to
literals. An interpretation says what streams hold and what operators and
functions make of literals, some of which may be missing. From these the vector
operators are put together: inner products are sums of products, lengths their
roots, and so on. The literals of the program itself are one interpretation.
-/

namespace LaneGraph

/-- A literal that is there is the other one. -/
def Scalar.Within (x y : Option Scalar) : Prop := ∀ s, x = some s → y = some s

namespace Scalar.Within

variable {x y z : Option Scalar}

/-- Every literal is itself. -/
theorem refl (x : Option Scalar) : Within x x := fun _ h => h

/-- A missing literal is within any. -/
theorem none (y : Option Scalar) : Within Option.none y := fun _ h => (nomatch h)

/-- Within what is within another. -/
theorem trans (h : Within x y) (h' : Within y z) : Within x z := fun s hs => h' s (h s hs)

/-- What is computed from literals that are there. -/
theorem bind (h : Within x y) {f f' : Scalar → Option Scalar} (hf : ∀ s, Within (f s) (f' s)) :
    Within (x.bind f) (y.bind f') := by
  intro s hs
  obtain ⟨a, ha, hfa⟩ := Option.bind_eq_some_iff.mp hs
  rw [h a ha]
  exact hf a s hfa

end Scalar.Within

/-- The components that are there are those of the other value. -/
def Value.Within (u v : Value) : Prop := ∀ k, Scalar.Within (u k) (v k)

namespace Value.Within

variable {u v x : Value}

/-- Every value is itself. -/
theorem refl (v : Value) : v.Within v := fun k => .refl (v k)

/-- Within what is within another. -/
theorem trans (h : u.Within v) (h' : v.Within x) : u.Within x := fun k => (h k).trans (h' k)

end Value.Within

/-- What streams hold, and what operators and functions make of literals. Operators
work on one component of each operand. What they make of literals that are there
does not change when others turn up. -/
structure Interpretation where
  /-- A component of the value that is read from a stream. -/
  input : Channel → Nat → Option Scalar
  /-- Operators with one operand; a conversion leads to the kind. -/
  unary : UnaryOp → Kind → Option Scalar → Option Scalar
  /-- Operators with two operands. -/
  binary : BinaryOp → Option Scalar → Option Scalar → Option Scalar
  /-- Operators with three operands. -/
  ternary : TernaryOp → Option Scalar → Option Scalar → Option Scalar → Option Scalar
  /-- Functions. -/
  call : FunctionId → List (Option Scalar) → Option Scalar
  unary_mono : ∀ op kind {x x'}, Scalar.Within x x' →
    Scalar.Within (unary op kind x) (unary op kind x')
  binary_mono : ∀ op {x x' y y'}, Scalar.Within x x' → Scalar.Within y y' →
    Scalar.Within (binary op x y) (binary op x' y')
  ternary_mono : ∀ op {x x' y y' z z'}, Scalar.Within x x' → Scalar.Within y y' →
    Scalar.Within z z' → Scalar.Within (ternary op x y z) (ternary op x' y' z')
  call_mono : ∀ f {xs xs'}, List.Forall₂ Scalar.Within xs xs' →
    Scalar.Within (call f xs) (call f xs')

namespace Interpretation

/-- The literals of the program: streams hold patterns, operators have their values
on literals, and calls have none. -/
def literal (read : String → UInt32) : Interpretation where
  input channel k := Scalar.ofBits? channel.format.encoding.kind (read (channel.scalarName k))
  unary := UnaryOp.lift
  binary := BinaryOp.lift
  ternary := TernaryOp.lift
  call _ _ := none
  unary_mono op kind _ _ h := h.bind fun _ => .refl _
  binary_mono op _ _ _ _ hx hy := hx.bind fun _ => hy.bind fun _ => .refl _
  ternary_mono op x x' y y' z z' hx hy hz := by
    cases op with
    | select =>
      cases x with
      | none => exact .none _
      | some s =>
        rw [hx s rfl]
        cases s with
        | bool b => cases b <;> assumption
        | _ => exact .none _
    | _ => exact hx.bind fun _ => hy.bind fun _ => hz.bind fun _ => .refl _
  call_mono _ _ _ _ := .none _

/-- What is computed from literals that are all there. -/
theorem bind_mapM_within (call : List Scalar → Option Scalar) {xs xs' : List (Option Scalar)}
    (h : List.Forall₂ Scalar.Within xs xs') :
    Scalar.Within ((xs.mapM id).bind call) ((xs'.mapM id).bind call) := by
  have hall : ∀ as, xs.mapM id = some as → xs'.mapM id = some as := by
    induction h with
    | nil => exact fun _ has => has
    | @cons x x' xs xs' hx _ ih =>
      intro as has
      rw [List.mapM_cons] at has ⊢
      cases x with
      | none => cases has
      | some s =>
        rw [hx s rfl]
        cases hrest : xs.mapM id with
        | none =>
          rw [hrest] at has
          cases has
        | some rest =>
          rw [hrest] at has
          rw [ih rest hrest]
          exact has
  intro s hs
  obtain ⟨as, has, hcall⟩ := Option.bind_eq_some_iff.mp hs
  rw [hall as has]
  exact hcall

/-- Functions of literals that are there. Where an operand is missing, so is the
result. -/
def strict (input : Channel → Nat → Option Scalar) (unary : UnaryOp → Kind → Scalar → Scalar)
    (binary : BinaryOp → Scalar → Scalar → Scalar)
    (ternary : TernaryOp → Scalar → Scalar → Scalar → Scalar)
    (call : FunctionId → List Scalar → Scalar) : Interpretation where
  input := input
  unary op kind x := x.map (unary op kind)
  binary op x y := x.bind fun a => y.map (binary op a)
  ternary op x y z := x.bind fun a => y.bind fun b => z.map (ternary op a b)
  call f xs := (xs.mapM id).map (call f)
  unary_mono op kind x x' h := by
    rw [Option.map_eq_bind, Option.map_eq_bind]
    exact h.bind fun _ => .refl _
  binary_mono op x x' y y' hx hy := by
    simp only [Option.map_eq_bind]
    exact hx.bind fun _ => hy.bind fun _ => .refl _
  ternary_mono op x x' y y' z z' hx hy hz := by
    simp only [Option.map_eq_bind]
    exact hx.bind fun _ => hy.bind fun _ => hz.bind fun _ => .refl _
  call_mono f xs xs' h := by
    rw [Option.map_eq_bind, Option.map_eq_bind]
    exact bind_mapM_within _ h

variable (A : Interpretation)

/-- The inner product of the first components, from the first to the last. -/
def dot (x y : Value) (width : Nat) : Option Scalar :=
  (List.range (width - 1)).foldl (fun sum i =>
    A.binary .add sum (A.binary .multiply (x (i + 1)) (y (i + 1)))) (A.binary .multiply (x 0) (y 0))

/-- All components joined by an operator, from the first to the last. -/
def join (op : BinaryOp) (x : Value) (width : Nat) : Option Scalar :=
  (List.range (width - 1)).foldl (fun joined i => A.binary op joined (x (i + 1))) (x 0)

/-- The root of the inner product with itself. -/
def length (x : Value) (width : Nat) : Option Scalar := A.unary .sqrt .float (A.dot x x width)

/-- One component of the cross product of two three-component vectors. -/
def cross (x y : Value) (k : Nat) : Option Scalar :=
  A.binary .subtract
    (A.binary .multiply (x ((k + 1) % 3)) (y ((k + 2) % 3)))
    (A.binary .multiply (x ((k + 2) % 3)) (y ((k + 1) % 3)))

/-- One component of the reflection of a vector at a normal. -/
def reflect (x : Value) (kind : Kind) (normal : Value) (width k : Nat) : Option Scalar :=
  let scaled := A.binary .multiply (A.dot x normal width) (some (Value.two kind))
  A.binary .subtract (x k) (A.binary .multiply (normal k) scaled)

/-- One component of the value of an operator with one operand, whose width is
given. -/
def unaryComponent (op : UnaryOp) (kind : Kind) (width : Nat) (x : Value) (k : Nat) :
    Option Scalar :=
  match op with
  | .length => A.length x width
  | .normalize => A.binary .divide (x k) (A.length x width)
  | .all => if width ≤ 1 then A.unary .all kind (x k) else A.join .logicalAnd x width
  | .any => if width ≤ 1 then A.unary .any kind (x k) else A.join .logicalOr x width
  | op => A.unary op kind (x k)

/-- One component of the value of an operator with two operands, whose width is
given. -/
def binaryComponent (op : BinaryOp) (kind : Kind) (width : Nat) (x y : Value) (k : Nat) :
    Option Scalar :=
  match op with
  | .dot => A.dot x y width
  | .cross => A.cross x y k
  | .reflect => A.reflect x kind y width k
  | op => A.binary op (x k) (y k)

/-- One component of the value of a node from the values of its operands. -/
def component (n : Node) (values : List Value) (k : Nat) : Option Scalar :=
  let x := values.getD 0 Value.absent
  let y := values.getD 1 Value.absent
  let z := values.getD 2 Value.absent
  match n.op with
  | .constant c => (c.bits[k]?).bind (Scalar.ofBits? c.kind)
  | .input channel => A.input channel k
  | .output _ _ => x k
  | .unary op _ => A.unaryComponent op n.shape.kind n.inputWidth x k
  | .binary op _ _ => A.binaryComponent op n.shape.kind n.inputWidth x y k
  | .ternary op _ _ _ => A.ternary op (x k) (y k) (z k)
  | .swizzle components _ => (components[k]?).bind fun c => x c.index
  | .construct _ => (values[k]?).bind (· 0)
  | .call candidates _ =>
    (n.overload.bind (candidates[·]?)).bind fun f => A.call f (values.map (· k))

/-- The value of a node from the values of its operands. -/
def denote (n : Node) (values : List Value) : Value := fun k =>
  if k < n.shape.width then A.component n values k else none

/-- With the literals of the program, nodes mean what they compute. -/
theorem denote_literal (read : String → UInt32) :
    (literal read).denote = Node.meaning read := by
  funext n values k
  have hcomponent : (literal read).component n values k = n.component read values k := by
    unfold component Node.component
    cases n.op with
    | unary op x => cases op <;> rfl
    | binary op x y => cases op <;> rfl
    | call candidates arguments =>
      show ((n.overload.bind (candidates[·]?)).bind fun _ => none) = none
      cases n.overload.bind (candidates[·]?) <;> rfl
    | _ => rfl
  unfold denote Node.meaning
  rw [hcomponent]

/-- Nodes of one frame have the same value of the same operands. -/
theorem denote_frame (n : Node) (values : List Value) :
    A.denote n.frame values = A.denote n values := by
  have hcomponent : ∀ k, A.component n.frame values k = A.component n values k := by
    intro k
    unfold component Node.frame
    cases n.op <;> rfl
  funext k
  unfold denote
  rw [hcomponent k]
  rfl

/-- No value has more components than the shape of its node. -/
theorem denote_eq_none {n : Node} {values : List Value} {k : Nat} (h : n.shape.width ≤ k) :
    A.denote n values k = none := if_neg (Nat.not_lt.mpr h)

section

variable {x x' y y' : Value} {width : Nat}

/-- Inner products grow with their operands. -/
theorem dot_mono (hx : x.Within x') (hy : y.Within y') :
    Scalar.Within (A.dot x y width) (A.dot x' y' width) := by
  unfold dot
  have hfold : ∀ (is : List Nat) {a a' : Option Scalar}, Scalar.Within a a' → Scalar.Within
      (is.foldl (fun sum i => A.binary .add sum (A.binary .multiply (x (i + 1)) (y (i + 1)))) a)
      (is.foldl (fun sum i => A.binary .add sum (A.binary .multiply (x' (i + 1)) (y' (i + 1)))) a') := by
    intro is
    induction is with
    | nil => exact fun h => h
    | cons i is ih => exact fun h => ih (A.binary_mono _ h (A.binary_mono _ (hx _) (hy _)))
  exact hfold _ (A.binary_mono _ (hx 0) (hy 0))

/-- Joined components grow with them. -/
theorem join_mono (op : BinaryOp) (hx : x.Within x') :
    Scalar.Within (A.join op x width) (A.join op x' width) := by
  unfold join
  have hfold : ∀ (is : List Nat) {a a' : Option Scalar}, Scalar.Within a a' → Scalar.Within
      (is.foldl (fun joined i => A.binary op joined (x (i + 1))) a)
      (is.foldl (fun joined i => A.binary op joined (x' (i + 1))) a') := by
    intro is
    induction is with
    | nil => exact fun h => h
    | cons i is ih => exact fun h => ih (A.binary_mono _ h (hx _))
  exact hfold _ (hx 0)

/-- Lengths grow with their operands. -/
theorem length_mono (hx : x.Within x') : Scalar.Within (A.length x width) (A.length x' width) :=
  A.unary_mono _ _ (A.dot_mono hx hx)

/-- Operators with one operand grow with it. -/
theorem unaryComponent_mono (op : UnaryOp) (kind : Kind) (hx : x.Within x') (k : Nat) :
    Scalar.Within (A.unaryComponent op kind width x k) (A.unaryComponent op kind width x' k) := by
  unfold unaryComponent
  cases op
  case length => exact A.length_mono hx
  case normalize => exact A.binary_mono _ (hx k) (A.length_mono hx)
  case all =>
    dsimp only
    split
    · exact A.unary_mono _ _ (hx k)
    · exact A.join_mono _ hx
  case any =>
    dsimp only
    split
    · exact A.unary_mono _ _ (hx k)
    · exact A.join_mono _ hx
  all_goals exact A.unary_mono _ _ (hx k)

/-- Operators with two operands grow with them. -/
theorem binaryComponent_mono (op : BinaryOp) (kind : Kind) (hx : x.Within x') (hy : y.Within y')
    (k : Nat) : Scalar.Within (A.binaryComponent op kind width x y k)
      (A.binaryComponent op kind width x' y' k) := by
  unfold binaryComponent
  cases op
  case dot => exact A.dot_mono hx hy
  case cross =>
    exact A.binary_mono _ (A.binary_mono _ (hx _) (hy _)) (A.binary_mono _ (hx _) (hy _))
  case reflect =>
    exact A.binary_mono _ (hx k) (A.binary_mono _ (hy k)
      (A.binary_mono _ (A.dot_mono hx hy) (.refl _)))
  all_goals exact A.binary_mono _ (hx k) (hy k)

end

/-- What stands at a place grows with the list. -/
theorem getD_within {values values' : List Value} (h : List.Forall₂ Value.Within values values')
    (i : Nat) : (values.getD i Value.absent).Within (values'.getD i Value.absent) := by
  induction h generalizing i with
  | nil => exact .refl _
  | cons hx _ ih =>
    cases i with
    | zero => exact hx
    | succ i => exact ih i

/-- The value of a node grows with those of its operands. -/
theorem denote_mono (n : Node) {values values' : List Value}
    (h : List.Forall₂ Value.Within values values') :
    (A.denote n values).Within (A.denote n values') := by
  intro k
  unfold denote
  split
  case isFalse => exact .none _
  have hget := getD_within h
  unfold component
  cases n.op with
  | constant c => exact .refl _
  | input channel => exact .refl _
  | output channel x => exact hget 0 k
  | unary op x => exact A.unaryComponent_mono op _ (hget 0) k
  | binary op x y => exact A.binaryComponent_mono op _ (hget 0) (hget 1) k
  | ternary op x y z => exact A.ternary_mono op (hget 0 k) (hget 1 k) (hget 2 k)
  | swizzle components x =>
    dsimp only
    cases components[k]? with
    | none => exact .refl _
    | some c => exact hget 0 c.index
  | construct arguments =>
    dsimp only
    have hat := hget k
    rw [List.getD_eq_getElem?_getD, List.getD_eq_getElem?_getD] at hat
    cases hv : values[k]? with
    | none => exact .none _
    | some v =>
      have hlt : k < values'.length := by
        rw [← h.length_eq]
        exact (List.getElem?_eq_some_iff.mp hv).1
      rw [hv, List.getElem?_eq_getElem hlt] at hat
      rw [List.getElem?_eq_getElem hlt]
      exact hat 0
  | call candidates arguments =>
    dsimp only
    cases n.overload.bind (candidates[·]?) with
    | none => exact .refl _
    | some f =>
      refine A.call_mono f ?_
      rw [List.forall₂_map_left_iff, List.forall₂_map_right_iff]
      exact h.imp fun _ _ hv => hv k

end Interpretation

/-- What nodes make of the values of their operands. It depends on the frame of a
node only, there are no components beyond its shape, and more is there if more of
the operands is. -/
structure Semantics where
  /-- The value of a node from the values of its operands. -/
  denote : Node → List Value → Value
  frame : ∀ n values, denote n.frame values = denote n values
  beyond : ∀ n values k, n.shape.width ≤ k → denote n values k = none
  mono : ∀ n {values values'}, List.Forall₂ Value.Within values values' →
    (denote n values).Within (denote n values')

/-- What nodes compute under an interpretation. -/
def Interpretation.semantics (A : Interpretation) : Semantics where
  denote := A.denote
  frame := A.denote_frame
  beyond _ _ _ := A.denote_eq_none
  mono := A.denote_mono

namespace Semantics

/-- What nodes compute on the literals of the program. -/
def literal (read : String → UInt32) : Semantics where
  denote := Node.meaning read
  frame := Node.meaning_frame read
  beyond _ _ _ := Node.meaning_eq_none
  mono n values values' h := by
    rw [← Interpretation.denote_literal]
    exact (Interpretation.literal read).denote_mono n h

/-- The literals of the program are an interpretation. -/
theorem literal_eq (read : String → UInt32) :
    literal read = (Interpretation.literal read).semantics := by
  unfold literal Interpretation.semantics
  congr
  exact (Interpretation.denote_literal read).symm

end Semantics

/-- In what sense values are kept: on the left a value that was there, on the right
the one that takes its place. -/
structure Agreement where
  /-- The values agree. -/
  le : Value → Value → Prop
  refl : ∀ v, le v v
  trans : ∀ {u v x}, le u v → le v x → le u x
  within : ∀ {u v}, le u v → u.Within v
  mono : ∀ (S : Semantics) (n : Node) {values values'}, List.Forall₂ le values values' →
    le (S.denote n values) (S.denote n values')

namespace Agreement

/-- Values stay what they are. -/
def equal : Agreement where
  le := Eq
  refl _ := rfl
  trans := Eq.trans
  within h := h ▸ .refl _
  mono S n _ _ h := by
    rw [List.forall₂_eq_eq_eq] at h
    rw [h]

/-- Components that are there stay what they are; others may turn up. -/
def growing : Agreement where
  le := Value.Within
  refl := .refl
  trans := .trans
  within := id
  mono S n _ _ h := S.mono n h

/-- Values that stay what they are lead to values that do. -/
theorem equal_mono (f : List Value → Value) {values values' : List Value}
    (h : List.Forall₂ equal.le values values') : equal.le (f values) (f values') := by
  have heq : values = values' := by
    rw [← List.forall₂_eq_eq_eq]
    exact h
  exact congrArg f heq

end Agreement

end LaneGraph
