import LaneGraph.Proofs.Processor
import LaneGraph.Proofs.Vectors

/-!
# Graphs of scalars

Once vectors are split, every node has one component and computes it from one
component of each operand. In such a graph every value is there and has the kind
of its node, as long as there are no calls.
-/

namespace LaneGraph

/-- The value has a first component of a kind. -/
def Value.Single (v : Value) (kind : Kind) : Prop := ∃ s, v 0 = some s ∧ s.kind = kind

/-- Every literal of known kind has a pattern. -/
theorem Scalar.ofBits?_total {kind : Kind} (h : kind ≠ .unknown) (w : UInt32) :
    ∃ s, Scalar.ofBits? kind w = some s ∧ s.kind = kind := by
  cases kind with
  | unknown => exact absurd rfl h
  | _ => exact ⟨_, rfl, rfl⟩

/-- The kind of a literal is that of its pattern. -/
theorem Scalar.kind_of_ofBits? {kind : Kind} {w : UInt32} {s : Scalar}
    (h : Scalar.ofBits? kind w = some s) : s.kind = kind := by
  cases kind <;> cases h <;> rfl

/-- The pattern of a literal determines it. -/
theorem Scalar.ofBits?_bits (v : Scalar) : Scalar.ofBits? v.kind v.bits = some v := by
  cases v with
  | bool b => cases b <;> rfl
  | int n => rfl
  | float x => rfl

/-- Every literal converts to every known kind. -/
theorem Scalar.convert?_total (s : Scalar) {kind : Kind} (h : kind ≠ .unknown) :
    ∃ s', s.convert? kind = some s' ∧ s'.kind = kind := by
  cases kind with
  | unknown => exact absurd rfl h
  | _ => cases s <;> exact ⟨_, rfl, rfl⟩

/-- An operator has a value on an operand of one of its types, unless it exists
for vectors alone. -/
theorem UnaryOp.eval?_total {op : UnaryOp} {t : OperatorType} {s : Scalar} (ht : t ∈ op.types)
    (hs : t.operands = [s.kind]) (hop : op ≠ .length ∧ op ≠ .normalize) (target : Kind) :
    ∃ r, op.eval? target s = some r ∧ r.kind = t.result := by
  rw [← Processor.program_unary]
  exact Processor.unary?_total ht hs hop target

/-- An operator has a value on operands of one of its types, unless it exists for
vectors alone. -/
theorem BinaryOp.eval?_total {op : BinaryOp} {t : OperatorType} {a b : Scalar}
    (ht : t ∈ op.types) (hs : t.operands = [a.kind, b.kind])
    (hop : op ≠ .dot ∧ op ≠ .cross ∧ op ≠ .reflect) :
    ∃ r, op.eval? a b = some r ∧ r.kind = t.result := by
  rw [← Processor.program_binary]
  exact Processor.binary?_total ht hs hop

/-- An operator has a value on operands of one of its types. -/
theorem TernaryOp.lift_total {op : TernaryOp} {t : OperatorType} {a b c : Scalar}
    (ht : t ∈ op.types) (hs : t.operands = [a.kind, b.kind, c.kind]) :
    ∃ r, op.lift (some a) (some b) (some c) = some r ∧ r.kind = t.result := by
  have htotal : (Processor.program.interpretation (fun _ _ => 0) .none).Total := Processor.total
  have hternary := htotal.ternary ht hs
  rw [Processor.interpretation_onLiterals.ternary] at hternary
  exact hternary

namespace Calls

/-- The kind that the signature of a function names. -/
def output (functions : List Signature) (f : FunctionId) : Kind :=
  (functions[f]?).elim .unknown Signature.output

/-- Functions that return patterns return literals of the kind that is named. -/
theorem native_answers (P : Processor) (read : Channel → Nat → UInt32) (functions : List Signature)
    (returned : FunctionId → List Scalar → UInt32) :
    (P.interpretation read (native functions returned)).Answers (output functions) := by
  intro f arguments hknown
  unfold output at hknown ⊢
  cases hf : functions[f]? with
  | none =>
    rw [hf] at hknown
    exact absurd rfl hknown
  | some s =>
    rw [hf] at hknown
    have harguments : (arguments.map some).mapM id = some arguments := by
      induction arguments with
      | nil => rfl
      | cons a rest ih =>
        rw [List.map_cons, List.mapM_cons, ih]
        rfl
    show ∃ r, (functions[f]?).bind (fun s => ((arguments.map some).mapM id).bind fun arguments =>
      Scalar.ofBits? s.output (returned f arguments)) = some r ∧ r.kind = s.output
    rw [hf, harguments]
    exact Scalar.ofBits?_total hknown _

end Calls

/-- On one component an operator is what it is on literals. -/
theorem BinaryOp.component_one {op : BinaryOp} (hop : op ≠ .dot ∧ op ≠ .cross ∧ op ≠ .reflect)
    (kind : Kind) (width : Nat) (x y : Value) (k : Nat) :
    op.component kind width x y k = op.lift (x k) (y k) := by
  cases op
  case dot => exact absurd rfl hop.1
  case cross => exact absurd rfl hop.2.1
  case reflect => exact absurd rfl hop.2.2
  all_goals rfl

/-- The operation is an operator or a call. -/
def Operation.isOperator : Operation → Bool
  | .unary _ _ | .binary _ _ _ | .ternary _ _ _ _ | .call _ _ => true
  | _ => false

namespace Node

/-- The node has one component, which comes from one component of each operand. -/
def narrow (n : Node) : Bool :=
  n.shape.width = 1 && !n.mixes &&
    match n.op with
    | .swizzle _ _ => false
    | _ => true

/-- What an operator or call does to one component of each operand. -/
def lift (A : Interpretation) (n : Node) (xs : List (Option Scalar)) : Option Scalar :=
  match n.op with
  | .unary op _ => A.unary op n.shape.kind (xs.getD 0 none)
  | .binary op _ _ => A.binary op (xs.getD 0 none) (xs.getD 1 none)
  | .ternary op _ _ _ => A.ternary op (xs.getD 0 none) (xs.getD 1 none) (xs.getD 2 none)
  | .call candidates _ => (n.overload.bind (candidates[·]?)).bind fun f => A.call f xs
  | _ => none

/-- The result of a call is of the given kind. -/
def answered (outputs : FunctionId → Kind) (n : Node) : Bool :=
  match n.op with
  | .call candidates _ => (n.overload.bind (candidates[·]?)).any fun f => outputs f == n.shape.kind
  | _ => true

/-- Whether a node is narrow is seen in its frame. -/
theorem narrow_frame (n : Node) : n.frame.narrow = n.narrow := by
  unfold narrow
  rw [mixes_frame, shape_frame]
  unfold frame
  cases n.op <;> rfl

/-- The node is a power or a logarithm. -/
def isPower (n : Node) : Bool :=
  match n.op with
  | .binary .pow _ _ | .binary .log _ _ => true
  | _ => false

/-- The node is neither a power, a logarithm nor a call. -/
def basic (n : Node) : Bool :=
  !n.isPower && match n.op with
    | .call _ _ => false
    | _ => true

/-- Whether a node is a power is seen in its frame. -/
theorem isPower_frame (n : Node) : n.frame.isPower = n.isPower := by
  unfold isPower frame
  cases n.op with
  | binary op x y => cases op <;> rfl
  | _ => rfl

/-- Whether the result of a call is of a kind is seen in its frame. -/
theorem answered_frame (outputs : FunctionId → Kind) (n : Node) :
    n.frame.answered outputs = n.answered outputs := by
  unfold answered
  rw [shape_frame]
  unfold frame
  cases n.op <;> rfl

/-- A basic node is neither a power nor a call. -/
theorem of_basic {n : Node} (h : n.basic = true) :
    n.isPower = false ∧ ∀ candidates arguments, n.op ≠ .call candidates arguments := by
  unfold basic at h
  simp only [Bool.and_eq_true, Bool.not_eq_true'] at h
  refine ⟨h.1, fun candidates arguments hop => ?_⟩
  rw [hop] at h
  exact absurd h.2 Bool.false_ne_true

/-- What is not a call has no result to wait for. -/
theorem answered_of_not_call (outputs : FunctionId → Kind) {n : Node}
    (h : ∀ candidates arguments, n.op ≠ .call candidates arguments) :
    n.answered outputs = true := by
  unfold answered
  split
  · rename_i hop
    exact absurd hop (h _ _)
  · rfl

/-- An operator that does not mix works on one component at a time. -/
theorem component_eq_lift {A : Interpretation} {n : Node} (hop : n.op.isOperator = true) (hmixes : n.mixes = false)
    (values : List Value) (k : Nat) :
    A.component n values k = n.lift A (values.map (· k)) := by
  have hget : ∀ i, (values.map (· k)).getD i none = values.getD i Value.absent k := by
    intro i
    rw [List.getD_eq_getElem?_getD, List.getD_eq_getElem?_getD, List.getElem?_map]
    cases values[i]? <;> rfl
  unfold Interpretation.component lift
  unfold mixes at hmixes
  cases hcase : n.op <;> rw [hcase] at hop hmixes
  case unary op a =>
    dsimp only
    rw [hget]
    cases op
    case length | normalize => cases hmixes
    case all | any => exact if_pos (Nat.le_of_not_lt (of_decide_eq_false hmixes))
    all_goals rfl
  case binary op a b =>
    dsimp only
    rw [hget, hget]
    cases op
    case dot | cross | reflect => cases hmixes
    all_goals rfl
  case ternary op a b c =>
    dsimp only
    rw [hget, hget, hget]
  all_goals cases hop

section

variable {n : Node} {read : String → UInt32} {x y z : Value} {k : Nat}

/-- One component of an operator with one operand. -/
theorem component_unary {op : UnaryOp} {a : NodeId} (hop : n.op = .unary op a) :
    n.component read [x] k = op.component n.shape.kind n.inputWidth x k := by
  unfold component
  rw [hop]
  rfl

/-- One component of an operator with two operands. -/
theorem component_binary {op : BinaryOp} {a b : NodeId} (hop : n.op = .binary op a b) :
    n.component read [x, y] k = op.component n.shape.kind n.inputWidth x y k := by
  unfold component
  rw [hop]
  rfl

/-- A narrow node has one component. -/
theorem width_of_narrow (h : n.narrow = true) : n.shape.width = 1 := by
  unfold narrow at h
  simp only [Bool.and_eq_true, decide_eq_true_eq] at h
  exact h.1.1

/-- A narrow node does not mix. -/
theorem not_mixes_of_narrow (h : n.narrow = true) : n.mixes = false := by
  unfold narrow at h
  simp only [Bool.and_eq_true, Bool.not_eq_true'] at h
  exact h.1.2

/-- A narrow operator does not exist for vectors alone. -/
theorem unary_of_narrow {op : UnaryOp} {a : NodeId} (hop : n.op = .unary op a)
    (h : n.narrow = true) : op ≠ .length ∧ op ≠ .normalize := by
  have hmixes := not_mixes_of_narrow h
  unfold mixes at hmixes
  rw [hop] at hmixes
  constructor
  · rintro rfl
    cases hmixes
  · rintro rfl
    cases hmixes

/-- A narrow operator does not exist for vectors alone. -/
theorem binary_of_narrow {op : BinaryOp} {a b : NodeId} (hop : n.op = .binary op a b)
    (h : n.narrow = true) : op ≠ .dot ∧ op ≠ .cross ∧ op ≠ .reflect := by
  have hmixes := not_mixes_of_narrow h
  unfold mixes at hmixes
  rw [hop] at hmixes
  refine ⟨?_, ?_, ?_⟩
  all_goals
    rintro rfl
    cases hmixes

/-- The value of a narrow operator with one operand. -/
theorem unary_component {A : Interpretation} {op : UnaryOp} {a : NodeId} (hop : n.op = .unary op a)
    (h : n.narrow = true) : A.component n [x] k = A.unary op n.shape.kind (x k) := by
  rw [component_eq_lift (by rw [hop]; rfl) (not_mixes_of_narrow h)]
  unfold lift
  rw [hop]
  rfl

/-- The value of a narrow operator with two operands. -/
theorem binary_component {A : Interpretation} {op : BinaryOp} {a b : NodeId}
    (hop : n.op = .binary op a b) (h : n.narrow = true) :
    A.component n [x, y] k = A.binary op (x k) (y k) := by
  rw [component_eq_lift (by rw [hop]; rfl) (not_mixes_of_narrow h)]
  unfold lift
  rw [hop]
  rfl

/-- The value of a narrow operator with three operands. -/
theorem ternary_component {A : Interpretation} {op : TernaryOp} {a b c : NodeId}
    (hop : n.op = .ternary op a b c) (h : n.narrow = true) :
    A.component n [x, y, z] k = A.ternary op (x k) (y k) (z k) := by
  rw [component_eq_lift (by rw [hop]; rfl) (not_mixes_of_narrow h)]
  unfold lift
  rw [hop]
  rfl

/-- The value of a narrow operator does not depend on the width of its operand. -/
theorem component_unary_narrow {op : UnaryOp} {a : NodeId} (hop : n.op = .unary op a)
    (h : n.narrow = true) : n.component read [x] k = op.lift n.shape.kind (x k) := by
  have hmixes := not_mixes_of_narrow h
  unfold mixes at hmixes
  rw [hop] at hmixes
  rw [component_unary hop]
  cases op
  case length | normalize => cases hmixes
  case all | any => exact if_pos (Nat.le_of_not_lt (of_decide_eq_false hmixes))
  all_goals rfl

/-- The value of a narrow operator does not depend on the width of its operands. -/
theorem component_binary_narrow {op : BinaryOp} {a b : NodeId} (hop : n.op = .binary op a b)
    (h : n.narrow = true) : n.component read [x, y] k = op.lift (x k) (y k) := by
  rw [component_binary hop, BinaryOp.component_one (binary_of_narrow hop h)]

end

/-- An operator on scalars is narrow. -/
theorem narrow_binary {n : Node} {op : BinaryOp} {a b : NodeId} (hop : n.op = .binary op a b)
    (hone : n.shape.width = 1) (hscalar : op ≠ .dot ∧ op ≠ .cross ∧ op ≠ .reflect) :
    n.narrow = true := by
  unfold narrow mixes
  rw [hop, hone]
  cases op
  case dot => exact absurd rfl hscalar.1
  case cross => exact absurd rfl hscalar.2.1
  case reflect => exact absurd rfl hscalar.2.2
  all_goals rfl

/-- An operator of one component has operands of one component. -/
theorem inputWidth_eq_one {n : Node} {types : List OperatorType} {reduces : Bool}
    {shapes : List Shape} (h : n.Operates types reduces shapes) (hwidth : n.shape.width = 1)
    (hreduces : reduces = true → n.inputWidth ≤ 1) : n.inputWidth = 1 := by
  obtain ⟨k, t, -, -, hpos, -, -, hshape⟩ := h
  rw [hshape] at hwidth
  cases reduces with
  | false => exact hwidth
  | true => exact Nat.le_antisymm (hreduces rfl) hpos

/-- The operands of an operator that does not mix have one component. -/
theorem unary_inputWidth {n : Node} {op : UnaryOp} {x : NodeId} {shapes : List Shape}
    (hop : n.op = .unary op x) (hnarrow : n.narrow = true)
    (h : n.Operates op.types op.reduces shapes) : n.inputWidth = 1 := by
  refine inputWidth_eq_one h (width_of_narrow hnarrow) fun hreduces => ?_
  have hmixes := not_mixes_of_narrow hnarrow
  unfold mixes at hmixes
  rw [hop] at hmixes
  cases op <;> first
    | exact absurd hreduces Bool.false_ne_true
    | exact Nat.le_of_not_lt (of_decide_eq_false hmixes)
    | exact absurd hmixes.symm Bool.false_ne_true

/-- The operands of an operator that does not mix have one component. -/
theorem binary_inputWidth {n : Node} {op : BinaryOp} {x y : NodeId} {shapes : List Shape}
    (hop : n.op = .binary op x y) (hnarrow : n.narrow = true)
    (h : n.Operates op.types op.reduces shapes) : n.inputWidth = 1 := by
  refine inputWidth_eq_one h (width_of_narrow hnarrow) fun hreduces => ?_
  have hmixes := not_mixes_of_narrow hnarrow
  unfold mixes at hmixes
  rw [hop] at hmixes
  cases op <;> first
    | exact absurd hreduces Bool.false_ne_true
    | exact absurd hmixes.symm Bool.false_ne_true

/-- The first components of single values are literals of the kinds of their shapes. -/
theorem exists_scalars {values : List Value} {shapes : List Shape}
    (h : List.Forall₂ (fun v s => v.Single s.kind) values shapes) :
    ∃ ss : List Scalar, values.map (· 0) = ss.map some ∧
      ss.map Scalar.kind = shapes.map Shape.kind := by
  induction h with
  | nil => exact ⟨[], rfl, rfl⟩
  | @cons v shape values shapes hv _ ih =>
    obtain ⟨s, hs, hkind⟩ := hv
    obtain ⟨ss, hss, hkinds⟩ := ih
    refine ⟨s :: ss, ?_, ?_⟩
    · rw [List.map_cons, List.map_cons, hs, hss]
    · rw [List.map_cons, List.map_cons, hkind, hkinds]

/-- The kinds of shapes. -/
theorem map_kind_shapesOf (kinds : List Kind) (width : Nat) :
    (shapesOf kinds width).map Shape.kind = kinds := by
  unfold shapesOf
  rw [List.map_map]
  exact List.map_id kinds

/-- The value of a narrow node is there if those of its operands are, unless it is a call
whose result is unknown. -/
theorem Typed.single {functions : List Signature} {n : Node} {shapes : List Shape}
    {values : List Value} {A : Interpretation} (hA : A.Total) (h : n.Typed functions shapes)
    (hnarrow : n.narrow = true)
    (hcall : (∀ candidates arguments, n.op ≠ .call candidates arguments) ∨
      ∃ outputs, A.Answers outputs ∧ n.answered outputs = true)
    (hvalues : List.Forall₂ (fun v s => v.Single s.kind) values shapes) :
    (A.denote n values).Single n.shape.kind := by
  have hwidth := width_of_narrow hnarrow
  have hsized := h.sized
  have hdenote : A.denote n values 0 = A.component n values 0 := by
    unfold Interpretation.denote
    rw [if_pos (by rw [hwidth]; exact Nat.one_pos)]
  unfold Value.Single
  rw [hdenote]
  obtain ⟨ss, hss, hkinds⟩ := exists_scalars hvalues
  -- An operator works on the literals of its operands.
  have hlift : n.op.isOperator = true → A.component n values 0 = n.lift A (ss.map some) := by
    intro hop
    rw [component_eq_lift hop (not_mixes_of_narrow hnarrow), hss]
  unfold Typed at h
  split at h
  · rename_i c heq
    obtain ⟨-, hvalid, hshape⟩ := h
    obtain ⟨hform, -⟩ := Constant.shape_eq hvalid
    rw [hshape, hform] at hwidth hsized
    unfold Interpretation.component
    rw [heq, hshape, hform]
    dsimp only at hwidth ⊢
    obtain ⟨b, hb⟩ := List.length_eq_one_iff.mp hwidth
    rw [hb]
    exact Scalar.ofBits?_total hsized.known b
  · rename_i channel heq
    obtain ⟨-, hpos, hle, hshape⟩ := h
    unfold Interpretation.component
    rw [heq, hshape, (Format.shape_eq hpos hle).1]
    exact hA.input channel 0
  · rename_i heq
    obtain ⟨rfl, -⟩ := h
    unfold Interpretation.component
    rw [heq]
    cases hvalues with
    | cons hx hrest => exact hx
  · rename_i heq
    obtain ⟨s, rfl, -, hkind, -, -⟩ := h
    obtain ⟨v, rfl, -⟩ := List.map_eq_singleton_iff.mp hkinds
    rw [hlift (by rw [heq]; rfl)]
    unfold lift
    rw [heq]
    exact hA.convert v hkind
  · rename_i op x hconvert heq
    have hop := unary_of_narrow heq hnarrow
    obtain ⟨t, ht, -, rfl, hshape⟩ := h.exists_type
    obtain ⟨kind, hkind⟩ := List.length_eq_one_iff.mp (op.typeTable.arity t ht)
    rw [map_kind_shapesOf, hkind] at hkinds
    obtain ⟨v, rfl, rfl⟩ := List.map_eq_singleton_iff.mp hkinds
    rw [hlift (by rw [heq]; rfl)]
    unfold lift
    rw [heq, hshape]
    exact hA.unary ht hkind hop _
  · rename_i op x y heq
    have hop := binary_of_narrow heq hnarrow
    obtain ⟨t, ht, -, rfl, hshape⟩ := h.exists_type
    rw [map_kind_shapesOf] at hkinds
    have hlength := congrArg List.length hkinds
    rw [List.length_map, op.typeTable.arity t ht] at hlength
    obtain ⟨v, v', rfl⟩ := List.length_eq_two.mp hlength
    rw [hlift (by rw [heq]; rfl)]
    unfold lift
    rw [heq, hshape]
    exact hA.binary ht hkinds.symm hop
  · rename_i op x y z heq
    obtain ⟨t, ht, -, rfl, hshape⟩ := h.exists_type
    rw [map_kind_shapesOf] at hkinds
    have hlength := congrArg List.length hkinds
    rw [List.length_map, op.typeTable.arity t ht] at hlength
    obtain ⟨v, v', v'', rfl⟩ := List.length_eq_three.mp hlength
    rw [hlift (by rw [heq]; rfl)]
    unfold lift
    rw [heq, hshape]
    exact hA.ternary ht hkinds.symm
  · rename_i heq
    unfold Node.narrow at hnarrow
    rw [heq] at hnarrow
    simp only [Bool.and_false, Bool.false_eq_true] at hnarrow
  · rename_i candidates arguments heq
    obtain ⟨outputs, hanswers, hanswered⟩ := hcall.resolve_left fun hno => hno _ _ heq
    unfold answered at hanswered
    rw [heq] at hanswered
    obtain ⟨f, hf, hkind⟩ := (Option.any_eq_true _ _).mp hanswered
    rw [hlift (by rw [heq]; rfl)]
    unfold lift
    rw [heq]
    dsimp only
    rw [hf, ← beq_iff_eq.mp hkind]
    exact hanswers f ss (by rw [beq_iff_eq.mp hkind]; exact hsized.known)
  · rename_i heq
    obtain ⟨-, -, rfl⟩ := h
    rw [hwidth] at hvalues
    unfold Interpretation.component
    rw [heq]
    cases hvalues with
    | cons hx hrest => exact hx

end Node

/-- Under the rules of a graph of scalars the values of all nodes are there. -/
structure TypedRules.Evaluates (t : TypedRules) (A : Interpretation) : Prop where
  semantics : t.semantics = A.semantics
  agreement : t.agreement = .equal
  exact : t.exact
  total : A.Total
  need : ∀ op, 1 ≤ t.need op
  narrow : ∀ n shapes, t.form n shapes = true → n.narrow = true
  calls : t.simple ∨ ∃ outputs, A.Answers outputs ∧
    ∀ n shapes, t.form n shapes = true → n.answered outputs = true

/-- The value of a node is what it makes of those of its operands. -/
theorem NodeSound.evaluates {t : TypedRules} {A : Interpretation} {g : Graph} {w : World}
    {n : Node} {rank : Nat} {value : Value} (h : NodeSound t.rules g w n rank value)
    (ht : t.Evaluates A) (htracked : t.tracked) : value = A.denote n (n.children.map w.value) := by
  have hvalue := h.denotes htracked
  rw [ht.semantics, ht.agreement] at hvalue
  exact hvalue

/-- In a sound world of scalars every value is there and has the kind of its node. -/
theorem Sound.single {t : TypedRules} {A : Interpretation} {g : Graph} {w : World}
    (hs : Sound t.rules g w) (ht : t.Evaluates A) (htracked : t.tracked) {id : NodeId}
    (hid : w.live id) : (w.value id).Single (g.shapeAt id).kind := by
  induction hrank : w.rank id using Nat.strong_induction_on generalizing id with
  | _ rank ih =>
    obtain ⟨n, hn, hsound⟩ := hs id hid
    obtain ⟨htyped, hformed, hplain⟩ := hsound.fits
    have hchildren : List.Forall₂ (fun v s => v.Single s.kind) (n.children.map w.value)
        (n.children.map g.shapeAt) := by
      rw [List.forall₂_map_left_iff, List.forall₂_map_right_iff, List.forall₂_same]
      intro x hx
      have hbelow : w.rank x + t.need n.frame.op ≤ w.rank id := hsound.below x hx
      have hpos := ht.need n.frame.op
      exact ih (w.rank x) (by omega) (hsound.live x hx) rfl
    have hcall : (∀ candidates arguments, n.frame.op ≠ .call candidates arguments) ∨
        ∃ outputs, A.Answers outputs ∧ n.frame.answered outputs = true := by
      rcases ht.calls with hsimple | ⟨outputs, hanswers, hanswered⟩
      · refine .inl fun candidates arguments hop => ?_
        have h := hplain hsimple
        unfold Node.plain at h
        rw [hop] at h
        simp only [Bool.and_false, Bool.false_eq_true] at h
      · exact .inr ⟨outputs, hanswers, hanswered _ _ hformed⟩
    rw [hsound.evaluates ht htracked, ← A.denote_frame, Graph.shapeAt_eq hn, ← Node.shape_frame]
    exact (htyped.typed ht.exact).single ht.total (ht.narrow _ _ hformed) hcall hchildren

end LaneGraph
