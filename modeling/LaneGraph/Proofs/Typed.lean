import LaneGraph.Proofs.Building
import LaneGraph.Proofs.Meaning

/-!
# Typed nodes

A node is typed if its operands have exactly the shapes that its operation asks
for and its own shape follows from theirs. An operator whose operands have the
kinds of one of its types resolves to that type, since conversion costs nothing
there and something everywhere else.
-/

namespace LaneGraph

namespace Shape

/-- The kind is known and there are one to four components. -/
structure Sized (s : Shape) : Prop where
  known : s.kind ≠ .unknown
  pos : 1 ≤ s.width
  le_four : s.width ≤ 4

/-- A known kind keeps a width from one to four. -/
theorem of_eq {kind : Kind} {width : Nat} (hkind : kind ≠ .unknown) (hpos : 1 ≤ width)
    (hle : width ≤ 4) : of kind width = ⟨kind, width⟩ := by
  unfold of
  rw [if_neg hkind]
  congr
  omega

/-- A known kind gives a sized shape. -/
theorem sized_of {kind : Kind} (hkind : kind ≠ .unknown) (width : Nat) : (of kind width).Sized := by
  unfold of
  rw [if_neg hkind]
  exact ⟨hkind, by dsimp only; omega, by dsimp only; omega⟩

/-- The kind of a shape is the one it was made with. -/
@[simp] theorem kind_of (kind : Kind) (width : Nat) : (of kind width).kind = kind := by
  unfold of
  split
  · rename_i h
    exact h.symm
  · rfl

/-- A sized shape is known. -/
theorem Sized.not_unknown {s : Shape} (h : s.Sized) : s.isUnknown = false := by
  unfold isUnknown
  exact decide_eq_false h.known

/-- A scalar shape is sized if its kind is known. -/
theorem sized_one {kind : Kind} (h : kind ≠ .unknown) : (⟨kind, 1⟩ : Shape).Sized :=
  ⟨h, Nat.le_refl 1, by dsimp only; omega⟩

end Shape

/-- The kinds of an operator's types are known. -/
def OperatorType.Known (t : OperatorType) : Prop :=
  t.result ≠ .unknown ∧ ∀ k ∈ t.operands, k ≠ .unknown

instance (t : OperatorType) : Decidable t.Known := inferInstanceAs (Decidable (_ ∧ _))

/-- What the types of an operator have in common. -/
structure TypeTable (arity : Nat) (types : List OperatorType) : Prop where
  known : ∀ t ∈ types, t.Known
  arity : ∀ t ∈ types, t.operands.length = arity
  short : types.length ≤ 256
  /-- Operands of the kinds of a type choose that type. -/
  exact : ∀ k t, types[k]? = some t → cheapest? (types.map (·.operands)) t.operands = some k

/-- A table of types is checked entry by entry. -/
theorem TypeTable.of_forall {arity : Nat} {types : List OperatorType}
    (h : (∀ t ∈ types, t.Known) ∧ (∀ t ∈ types, t.operands.length = arity) ∧
      types.length ≤ 256 ∧ ∀ p ∈ types.zipIdx, cheapest? (types.map (·.operands)) p.1.operands = some p.2) :
    TypeTable arity types where
  known := h.1
  arity := h.2.1
  short := h.2.2.1
  exact k t ht := h.2.2.2 (t, k) (List.mem_zipIdx_iff_getElem?.mpr ht)

/-- The types of an operator with one operand. -/
theorem UnaryOp.typeTable (op : UnaryOp) : TypeTable 1 op.types := by
  apply TypeTable.of_forall
  cases op <;> decide

/-- The types of an operator with two operands. -/
theorem BinaryOp.typeTable (op : BinaryOp) : TypeTable 2 op.types := by
  apply TypeTable.of_forall
  cases op <;> decide

/-- The types of an operator with three operands. -/
theorem TernaryOp.typeTable (op : TernaryOp) : TypeTable 3 op.types := by
  apply TypeTable.of_forall
  cases op <;> decide

/-- The operation is a call. -/
def Operation.isCall : Operation → Bool
  | call _ _ => true
  | _ => false

/-- Shapes of given kinds and one width. -/
def shapesOf (kinds : List Kind) (width : Nat) : List Shape := kinds.map fun k => ⟨k, width⟩

/-- Shapes of one width are as wide as that. -/
theorem widest_shapesOf {kinds : List Kind} (hne : kinds ≠ []) (width : Nat) :
    widest (shapesOf kinds width) = width := by
  cases kinds with
  | nil => exact absurd rfl hne
  | cons k rest =>
    have hfold : ∀ ks : List Kind,
        (shapesOf ks width).foldl (fun w t => max w t.width) width = width := by
      intro ks
      induction ks with
      | nil => rfl
      | cons k ks ih =>
        unfold shapesOf at ih ⊢
        rw [List.map_cons, List.foldl_cons, Nat.max_self]
        exact ih
    exact hfold rest

namespace Node

/-- The node applies one of the given types to operands of one width. -/
def Operates (n : Node) (types : List OperatorType) (reduces : Bool) (shapes : List Shape) :
    Prop :=
  ∃ k t, n.overload = some k ∧ types[k]? = some t ∧ 1 ≤ n.inputWidth ∧ n.inputWidth ≤ 4 ∧
    shapes = shapesOf t.operands n.inputWidth ∧
    n.shape = ⟨t.result, if reduces then 1 else n.inputWidth⟩

/-- The node calls the chosen one of the candidates with operands that fit. -/
def Calls (functions : List Signature) (n : Node) (candidates : List FunctionId)
    (shapes : List Shape) : Prop :=
  ∃ k id s, n.overload = some k ∧ candidates[k]? = some id ∧ functions[id]? = some s ∧
    s.required ≤ shapes.length ∧ shapes.length ≤ s.inputs.length ∧ 1 ≤ n.inputWidth ∧
    n.inputWidth ≤ 4 ∧ s.output ≠ .unknown ∧ n.shape = ⟨s.output, n.inputWidth⟩ ∧
    ∀ (i : Nat) (shape : Shape), shapes[i]? = some shape →
      shape.Sized ∧ shape.width ≤ n.inputWidth ∧
        ∀ kind, s.inputs[i]? = some kind → kind ≠ .unknown → shape = ⟨kind, n.inputWidth⟩

/-- The operands have the shapes that the node asks for, and its own shape
follows. -/
def Typed (functions : List Signature) (n : Node) (shapes : List Shape) : Prop :=
  match n.op with
  | .constant c => shapes = [] ∧ c.isValid = true ∧ n.shape = c.shape
  | .input channel =>
    shapes = [] ∧ 1 ≤ channel.format.count ∧ channel.format.count ≤ 4 ∧
      n.shape = channel.format.shape
  | .output channel _ =>
    shapes = [n.shape] ∧ 1 ≤ channel.format.count ∧ channel.format.count ≤ 4 ∧
      n.shape = channel.format.shape
  | .unary .convert _ =>
    ∃ s, shapes = [s] ∧ s.Sized ∧ n.shape.kind ≠ .unknown ∧ n.shape.width = s.width ∧
      n.overload.isSome = true
  | .unary op _ => n.Operates op.types op.reduces shapes
  | .binary op _ _ => n.Operates op.types op.reduces shapes
  | .ternary op _ _ _ => n.Operates op.types false shapes
  | .swizzle components _ =>
    ∃ s, shapes = [s] ∧ s.Sized ∧ n.shape = Shape.of s.kind (components.length % 256)
  | .call candidates _ => n.Calls functions candidates shapes
  | .construct _ =>
    n.shape.Sized ∧ n.overload.isSome = true ∧
      shapes = List.replicate n.shape.width ⟨n.shape.kind, 1⟩

/-- Nodes of one frame are typed alike. -/
theorem typed_frame {functions : List Signature} {n : Node} {shapes : List Shape} :
    n.frame.Typed functions shapes ↔ n.Typed functions shapes := by
  unfold Typed frame
  cases n.op with
  | unary op x => cases op <;> exact Iff.rfl
  | _ => exact Iff.rfl

section

variable {functions : List Signature} {n : Node} {shapes : List Shape} {x y z : NodeId}

/-- What it means for an operator with one operand to be typed. -/
theorem typed_unary {op : UnaryOp} (hop : n.op = .unary op x) (hconvert : op ≠ .convert) :
    n.Typed functions shapes ↔ n.Operates op.types op.reduces shapes := by
  unfold Typed
  rw [hop]
  cases op <;> first | exact Iff.rfl | exact absurd rfl hconvert

/-- What it means for an operator with two operands to be typed. -/
theorem typed_binary {op : BinaryOp} (hop : n.op = .binary op x y) :
    n.Typed functions shapes ↔ n.Operates op.types op.reduces shapes := by
  unfold Typed
  rw [hop]

/-- What it means for an operator with three operands to be typed. -/
theorem typed_ternary {op : TernaryOp} (hop : n.op = .ternary op x y z) :
    n.Typed functions shapes ↔ n.Operates op.types false shapes := by
  unfold Typed
  rw [hop]

/-- How an operator with one operand is resolved. -/
theorem resolved_unary {op : UnaryOp} (hop : n.op = .unary op x) (hconvert : op ≠ .convert) :
    n.resolved functions shapes = n.resolveOperator op.types shapes op.reduces := by
  unfold resolved
  rw [hop]
  cases op <;> first | rfl | exact absurd rfl hconvert

/-- How an operator with two operands is resolved. -/
theorem resolved_binary {op : BinaryOp} (hop : n.op = .binary op x y) :
    n.resolved functions shapes = n.resolveOperator op.types shapes op.reduces := by
  unfold resolved
  rw [hop]

/-- How an operator with three operands is resolved. -/
theorem resolved_ternary {op : TernaryOp} (hop : n.op = .ternary op x y z) :
    n.resolved functions shapes = n.resolveOperator op.types shapes false := by
  unfold resolved
  rw [hop]

end

/-- An operator that is applied has a type. -/
theorem Operates.exists_type {n : Node} {types : List OperatorType} {reduces : Bool}
    {shapes : List Shape} (h : n.Operates types reduces shapes) :
    ∃ t ∈ types, n.inputWidth ∈ [1, 2, 3, 4] ∧ shapes = shapesOf t.operands n.inputWidth ∧
      n.shape = ⟨t.result, if reduces then 1 else n.inputWidth⟩ := by
  obtain ⟨k, t, -, ht, hpos, hle, hshapes, hshape⟩ := h
  refine ⟨t, List.mem_of_getElem? ht, ?_, hshapes, hshape⟩
  simp only [List.mem_cons, List.not_mem_nil, or_false]
  omega

/-- The types of an operator give its node a sized shape. -/
theorem Operates.sized {n : Node} {types : List OperatorType} {arity : Nat} {reduces : Bool}
    {shapes : List Shape} (h : n.Operates types reduces shapes) (ht : TypeTable arity types) :
    n.shape.Sized := by
  obtain ⟨k, t, -, htype, hpos, hle, -, hshape⟩ := h
  rw [hshape]
  refine ⟨(ht.known t (List.mem_of_getElem? htype)).1, ?_, ?_⟩
  · dsimp only
    split <;> omega
  · dsimp only
    split <;> omega

/-! ## Types can be checked -/

section

variable {functions : List Signature} {n : Node} {shapes : List Shape}

instance (s : Shape) : Decidable s.Sized :=
  decidable_of_iff (s.kind ≠ .unknown ∧ 1 ≤ s.width ∧ s.width ≤ 4)
    ⟨fun h => ⟨h.1, h.2.1, h.2.2⟩, fun h => ⟨h.known, h.pos, h.le_four⟩⟩

instance (n : Node) (types : List OperatorType) (reduces : Bool) (shapes : List Shape) :
    Decidable (n.Operates types reduces shapes) :=
  decidable_of_iff (∃ k ∈ n.overload, ∃ t ∈ types[k]?, 1 ≤ n.inputWidth ∧ n.inputWidth ≤ 4 ∧
      shapes = shapesOf t.operands n.inputWidth ∧
      n.shape = ⟨t.result, if reduces then 1 else n.inputWidth⟩)
    ⟨fun ⟨k, hk, t, ht, h⟩ => ⟨k, t, hk, ht, h⟩, fun ⟨k, t, hk, ht, h⟩ => ⟨k, hk, t, ht, h⟩⟩

/-- Whether operands fit the inputs of a function. -/
instance decidableInputs (inputs : List Kind) (width : Nat) (shapes : List Shape) :
    Decidable (∀ (i : Nat) (shape : Shape), shapes[i]? = some shape →
      shape.Sized ∧ shape.width ≤ width ∧
        ∀ kind, inputs[i]? = some kind → kind ≠ .unknown → shape = ⟨kind, width⟩) :=
  decidable_of_iff (∀ p ∈ shapes.zipIdx, p.1.Sized ∧ p.1.width ≤ width ∧
      ∀ kind ∈ inputs[p.2]?, kind ≠ .unknown → p.1 = ⟨kind, width⟩)
    ⟨fun h i shape hi => h (shape, i) (List.mem_zipIdx_iff_getElem?.mpr hi),
      fun h p hp => h p.2 p.1 (List.mem_zipIdx_iff_getElem?.mp hp)⟩

instance (functions : List Signature) (n : Node) (candidates : List FunctionId)
    (shapes : List Shape) : Decidable (Calls functions n candidates shapes) :=
  decidable_of_iff (∃ k ∈ n.overload, ∃ id ∈ candidates[k]?, ∃ s ∈ functions[id]?,
      s.required ≤ shapes.length ∧ shapes.length ≤ s.inputs.length ∧ 1 ≤ n.inputWidth ∧
      n.inputWidth ≤ 4 ∧ s.output ≠ .unknown ∧ n.shape = ⟨s.output, n.inputWidth⟩ ∧
      ∀ (i : Nat) (shape : Shape), shapes[i]? = some shape →
        shape.Sized ∧ shape.width ≤ n.inputWidth ∧
          ∀ kind, s.inputs[i]? = some kind → kind ≠ .unknown → shape = ⟨kind, n.inputWidth⟩)
    ⟨fun ⟨k, hk, id, hid, s, hs, h⟩ => ⟨k, id, s, hk, hid, hs, h⟩,
      fun ⟨k, id, s, hk, hid, hs, h⟩ => ⟨k, hk, id, hid, s, hs, h⟩⟩

/-- Whether one shape is given, and what it has to be. -/
instance decidableOne {P : Shape → Prop} [DecidablePred P] :
    (shapes : List Shape) → Decidable (∃ s, shapes = [s] ∧ P s)
  | [s] => decidable_of_iff (P s) ⟨fun h => ⟨s, rfl, h⟩, fun ⟨_, hs, h⟩ => by cases hs; exact h⟩
  | [] => isFalse fun ⟨_, hs, _⟩ => nomatch hs
  | _ :: _ :: _ => isFalse fun ⟨_, hs, _⟩ => nomatch hs

instance (functions : List Signature) : (n : Node) → (shapes : List Shape) →
    Decidable (n.Typed functions shapes)
  | ⟨.constant c, shape, _, _, _⟩, shapes =>
    inferInstanceAs (Decidable (shapes = [] ∧ c.isValid = true ∧ shape = c.shape))
  | ⟨.input channel, shape, _, _, _⟩, shapes =>
    inferInstanceAs (Decidable (shapes = [] ∧ 1 ≤ channel.format.count ∧
      channel.format.count ≤ 4 ∧ shape = channel.format.shape))
  | ⟨.output channel _, shape, _, _, _⟩, shapes =>
    inferInstanceAs (Decidable (shapes = [shape] ∧ 1 ≤ channel.format.count ∧
      channel.format.count ≤ 4 ∧ shape = channel.format.shape))
  | ⟨.unary op x, shape, overload, width, print⟩, shapes =>
    if h : op = .convert then
      decidable_of_iff (∃ s, shapes = [s] ∧ s.Sized ∧ shape.kind ≠ .unknown ∧
        shape.width = s.width ∧ overload.isSome = true) (by subst h; rfl)
    else
      decidable_of_iff _
        (typed_unary (n := ⟨.unary op x, shape, overload, width, print⟩) rfl h).symm
  | ⟨.binary op x y, shape, overload, width, print⟩, shapes =>
    decidable_of_iff _
      (typed_binary (n := ⟨.binary op x y, shape, overload, width, print⟩) rfl).symm
  | ⟨.ternary op x y z, shape, overload, width, print⟩, shapes =>
    decidable_of_iff _
      (typed_ternary (n := ⟨.ternary op x y z, shape, overload, width, print⟩) rfl).symm
  | ⟨.swizzle components _, shape, _, _, _⟩, shapes =>
    inferInstanceAs (Decidable (∃ s, shapes = [s] ∧ s.Sized ∧
      shape = Shape.of s.kind (components.length % 256)))
  | ⟨.call candidates arguments, shape, overload, width, print⟩, shapes =>
    inferInstanceAs (Decidable (Calls functions
      ⟨.call candidates arguments, shape, overload, width, print⟩ candidates shapes))
  | ⟨.construct _, shape, overload, _, _⟩, shapes =>
    inferInstanceAs (Decidable (shape.Sized ∧ overload.isSome = true ∧
      shapes = List.replicate shape.width ⟨shape.kind, 1⟩))

end

end Node

/-- A valid constant has a shape with its kind and its components. -/
theorem Constant.shape_eq {c : Constant} (h : c.isValid = true) :
    c.shape = ⟨c.kind, c.bits.length⟩ ∧ c.shape.Sized := by
  unfold Constant.shape
  rw [if_pos h]
  unfold Constant.isValid Constant.count at h
  simp only [Bool.and_eq_true, decide_eq_true_eq, ne_eq, decide_not,
    Bool.not_eq_true', decide_eq_false_iff_not] at h
  exact ⟨Shape.of_eq h.1.1 h.1.2 h.2, Shape.sized_of h.1.1 _⟩

/-- A format with one to four components has a sized shape. -/
theorem Format.shape_eq {f : Format} (hpos : 1 ≤ f.count) (hle : f.count ≤ 4) :
    f.shape = ⟨f.encoding.kind, f.count⟩ ∧ f.shape.Sized := by
  have hkind : f.encoding.kind ≠ .unknown := by cases f.encoding <;> decide
  exact ⟨Shape.of_eq hkind hpos hle, Shape.sized_of hkind _⟩

/-- The shape of a typed node is sized. -/
theorem Node.Typed.sized {functions : List Signature} {n : Node} {shapes : List Shape}
    (h : n.Typed functions shapes) : n.shape.Sized := by
  unfold Node.Typed at h
  split at h
  · obtain ⟨-, hvalid, hshape⟩ := h
    rw [hshape]
    exact (Constant.shape_eq hvalid).2
  · obtain ⟨-, hpos, hle, hshape⟩ := h
    rw [hshape]
    exact (Format.shape_eq hpos hle).2
  · obtain ⟨-, hpos, hle, hshape⟩ := h
    rw [hshape]
    exact (Format.shape_eq hpos hle).2
  · obtain ⟨s, -, hs, hkind, hwidth, -⟩ := h
    exact ⟨hkind, by rw [hwidth]; exact hs.pos, by rw [hwidth]; exact hs.le_four⟩
  · rename_i op _ _ _
    exact h.sized op.typeTable
  · rename_i op _ _ _
    exact h.sized op.typeTable
  · rename_i op _ _ _ _
    exact h.sized op.typeTable
  · obtain ⟨s, -, hs, hshape⟩ := h
    rw [hshape]
    exact Shape.sized_of hs.known _
  · obtain ⟨_, _, s, -, -, -, -, -, hpos, hle, hknown, hshape, -⟩ := h
    rw [hshape]
    exact ⟨hknown, hpos, hle⟩
  · exact h.1

namespace Node

/-- The node is a call of some shape, and its operands are no wider than it is. -/
structure Holds (n : Node) (shapes : List Shape) : Prop where
  isCall : n.op.isCall = true
  sized : n.shape.Sized
  operands : ∀ s ∈ shapes, s.Sized ∧ s.width ≤ n.shape.width

/-- The node is typed. Where calls need not be exact, less is asked of them. -/
def Fits (exact : Prop) (functions : List Signature) (n : Node) (shapes : List Shape) : Prop :=
  n.Typed functions shapes ∨ ¬exact ∧ n.Holds shapes

variable {exact : Prop} {functions : List Signature} {n : Node} {shapes : List Shape}

/-- Whether a node is a call is seen in its frame. -/
@[simp] theorem isCall_frame (n : Node) : n.frame.op.isCall = n.op.isCall := by
  unfold frame
  cases n.op <;> rfl

/-- Nodes of one frame fit alike. -/
theorem fits_frame : n.frame.Fits exact functions shapes ↔ n.Fits exact functions shapes := by
  have hholds : n.frame.Holds shapes ↔ n.Holds shapes :=
    ⟨fun h => ⟨n.isCall_frame ▸ h.isCall, h.sized, h.operands⟩,
      fun h => ⟨n.isCall_frame.trans h.isCall, h.sized, h.operands⟩⟩
  unfold Fits
  rw [typed_frame, hholds]

/-- A typed node fits. -/
theorem Typed.fits (h : n.Typed functions shapes) : n.Fits exact functions shapes := .inl h

/-- Where calls are exact, a node that fits is typed. -/
theorem Fits.typed (h : n.Fits exact functions shapes) (hexact : exact) :
    n.Typed functions shapes := h.resolve_right fun hcall => hcall.1 hexact

/-- A node that fits and is no call is typed. -/
theorem Fits.typed_of_isCall (h : n.Fits exact functions shapes) (hcall : n.op.isCall = false) :
    n.Typed functions shapes := by
  refine h.resolve_right fun hheld => ?_
  rw [hheld.2.isCall] at hcall
  cases hcall

/-- The shape of a node that fits is sized. -/
theorem Fits.sized (h : n.Fits exact functions shapes) : n.shape.Sized := by
  rcases h with htyped | ⟨-, hheld⟩
  · exact htyped.sized
  · exact hheld.sized

end Node

end LaneGraph
