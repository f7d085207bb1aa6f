import LaneGraph.Pass.Typing
import LaneGraph.Proofs.Passes

/-!
# Nodes as their factories leave them

Where the shapes of all operands are known, a node has chosen what it does with them,
but an operand may have another kind than the node expects, or be one component where a
vector is expected. Once its operands fit, the node is typed. A call may have recorded
another choice than it made, and then only its shape is known afterwards.
-/

namespace LaneGraph

open Build

namespace Node

/-- The shape that operand `index` must have, given the function table. -/
def expected (functions : List Signature) (n : Node) (index : Nat) : Shape :=
  Graph.expectedShape { functions := functions } n index

/-- What a node expects depends on the function table alone. -/
theorem expectedShape_eq (g : Graph) (n : Node) (index : Nat) :
    g.expectedShape n index = n.expected g.functions index := rfl

/-- What a node expects is seen in its frame. -/
theorem expected_frame (functions : List Signature) (n : Node) (index : Nat) :
    n.frame.expected functions index = n.expected functions index := by
  unfold expected Graph.expectedShape Graph.chosen? frame
  cases n.op with
  | unary op x => cases n.overload <;> cases op <;> rfl
  | _ => cases n.overload <;> rfl

/-- The node has taken one of the given types. -/
def Chose (n : Node) (types : List OperatorType) (reduces : Bool) (shapes : List Shape) : Prop :=
  ∃ k t, n.overload = some k ∧ types[k]? = some t ∧ shapes.length = t.operands.length ∧
    n.inputWidth = widest shapes ∧
    n.shape = Shape.of t.result (if reduces then 1 else widest shapes)

/-- The node has taken one of its candidates, or there was none that is content
with the arguments. -/
def ChoseCandidate (functions : List Signature) (n : Node) (candidates : List FunctionId)
    (shapes : List Shape) : Prop :=
  (n.overload = none ∧ n.shape.isUnknown = true ∧
    ∀ f ∈ candidates, ∃ s, functions[f]? = some s ∧ shapes.length < s.required) ∨
  ∃ k f s, n.overload = some k ∧ candidates[k]? = some f ∧ functions[f]? = some s ∧
    s.required ≤ shapes.length ∧ shapes.length ≤ s.inputs.length ∧ 1 ≤ n.inputWidth ∧
    n.inputWidth ≤ 4 ∧ n.shape = Shape.of s.output n.inputWidth ∧
    ∀ shape ∈ shapes, shape.width ≤ n.inputWidth

/-- The candidates that are content with a number of arguments, with their
positions. -/
def eligible (functions : List Signature) (candidates : List FunctionId) (count : Nat) :
    List (Nat × Signature) :=
  candidates.zipIdx.filterMap fun p =>
    match functions[p.1]? with
    | some s => if s.required ≤ count then some (p.2, s) else none
    | none => none

/-- A call is resolved among the candidates that are content. -/
theorem resolveCall_eq (n : Node) (functions : List Signature) (candidates : List FunctionId)
    (arguments : List NodeId) (shapes : List Shape) :
    n.resolveCall functions candidates arguments shapes =
      match cheapest? ((eligible functions candidates shapes.length).map (·.2.inputs))
        (shapes.map (·.kind)) with
      | none => n
      | some k =>
        match (eligible functions candidates shapes.length)[k]? with
        | none => n
        | some (position, s) =>
          { n with
            op := .call candidates (arguments.take s.inputs.length)
            shape := Shape.of s.output (widest shapes)
            inputWidth := widest shapes
            overload := some (position % 256) } := rfl

/-- The node is as its factory resolves it from operands of known shapes. -/
def Drafted (functions : List Signature) (n : Node) (shapes : List Shape) : Prop :=
  match n.op with
  | .constant c => shapes = [] ∧ n.overload = none ∧ n.inputWidth = widest shapes ∧ n.shape = c.shape
  | .input channel =>
    shapes = [] ∧ n.overload = none ∧ n.inputWidth = widest shapes ∧ 1 ≤ channel.format.count ∧
      channel.format.count ≤ 4 ∧ n.shape = channel.format.shape
  | .output channel _ =>
    shapes.length = 1 ∧ n.overload = none ∧ n.inputWidth = widest shapes ∧
      1 ≤ channel.format.count ∧ channel.format.count ≤ 4 ∧ n.shape = channel.format.shape
  | .unary .convert _ =>
    n.overload = some 0 ∧ ∃ s, shapes = [s] ∧ n.shape = Shape.of n.shape.kind s.width
  | .unary op _ => n.Chose op.types op.reduces shapes
  | .binary op _ _ => n.Chose op.types op.reduces shapes
  | .ternary op _ _ _ => n.Chose op.types false shapes
  | .swizzle components _ =>
    n.overload = none ∧ n.inputWidth = widest shapes ∧
      ∃ s, shapes = [s] ∧ n.shape = Shape.of s.kind (components.length % 256)
  | .call candidates _ => n.ChoseCandidate functions candidates shapes
  | .construct _ =>
    n.overload = some 0 ∧
      (n.shape.isUnknown = true ∨ shapes.length = n.shape.width ∧ ∀ s ∈ shapes, s.width = 1)

/-- Nodes of one frame are drafted alike. -/
theorem drafted_frame {functions : List Signature} {n : Node} {shapes : List Shape} :
    n.frame.Drafted functions shapes ↔ n.Drafted functions shapes := by
  unfold Drafted frame
  cases n.op with
  | unary op x => cases op <;> exact Iff.rfl
  | _ => exact Iff.rfl

section

variable {functions : List Signature} {n : Node} {shapes : List Shape}

/-- What it means for an operator with one operand to be drafted. -/
theorem drafted_unary {op : UnaryOp} {x : NodeId} (hop : n.op = .unary op x)
    (hconvert : op ≠ .convert) :
    n.Drafted functions shapes ↔ n.Chose op.types op.reduces shapes := by
  unfold Drafted
  rw [hop]
  cases op <;> first | exact Iff.rfl | exact absurd rfl hconvert

/-- What it means for an operator with two operands to be drafted. -/
theorem drafted_binary {op : BinaryOp} {x y : NodeId} (hop : n.op = .binary op x y) :
    n.Drafted functions shapes ↔ n.Chose op.types op.reduces shapes := by
  unfold Drafted
  rw [hop]

/-- What it means for an operator with three operands to be drafted. -/
theorem drafted_ternary {op : TernaryOp} {x y z : NodeId} (hop : n.op = .ternary op x y z) :
    n.Drafted functions shapes ↔ n.Chose op.types false shapes := by
  unfold Drafted
  rw [hop]

/-- What it means for a call to be drafted. -/
theorem drafted_call {candidates : List FunctionId} {arguments : List NodeId}
    (hop : n.op = .call candidates arguments) :
    n.Drafted functions shapes ↔ n.ChoseCandidate functions candidates shapes := by
  unfold Drafted
  rw [hop]

end

/-- The shapes of operands once they fit. -/
def fitted (functions : List Signature) (n : Node) (shapes : List Shape) : List Shape :=
  shapes.zipIdx.map fun p =>
    if (n.expected functions p.2).isUnknown then p.1 else n.expected functions p.2

/-- As many operands fit as there are. -/
@[simp] theorem length_fitted (functions : List Signature) (n : Node) (shapes : List Shape) :
    (n.fitted functions shapes).length = shapes.length := by
  unfold fitted
  rw [List.length_map, List.length_zipIdx]

/-- The shape of an operand once it fits. -/
theorem getElem?_fitted (functions : List Signature) (n : Node) (shapes : List Shape) (i : Nat) :
    (n.fitted functions shapes)[i]? = shapes[i]?.map fun s =>
      if (n.expected functions i).isUnknown then s else n.expected functions i := by
  unfold fitted
  rw [List.getElem?_map, List.getElem?_zipIdx, Option.map_map, Nat.zero_add]
  rfl

end Node

/-- The widest of sized shapes is between one and four components wide. -/
theorem widest_bounds {shapes : List Shape} (h : ∀ s ∈ shapes, s.Sized) :
    1 ≤ widest shapes ∧ widest shapes ≤ 4 := by
  cases shapes with
  | nil => decide
  | cons s rest =>
    have hfold : ∀ (xs : List Shape) (start : Nat), (∀ x ∈ xs, x.Sized) → 1 ≤ start → start ≤ 4 →
        1 ≤ xs.foldl (fun width t => max width t.width) start ∧
          xs.foldl (fun width t => max width t.width) start ≤ 4 := by
      intro xs
      induction xs with
      | nil => exact fun start _ hpos hle => ⟨hpos, hle⟩
      | cons x xs ih =>
        intro start hxs hpos hle
        have hx := hxs x List.mem_cons_self
        have := hx.le_four
        exact ih (max start x.width) (fun y hy => hxs y (List.mem_cons_of_mem _ hy)) (by omega)
          (by omega)
    have hs := h s List.mem_cons_self
    exact hfold rest s.width (fun x hx => h x (List.mem_cons_of_mem _ hx)) hs.pos hs.le_four

/-- No shape is wider than the widest. -/
theorem width_le_widest {shapes : List Shape} {s : Shape} (h : s ∈ shapes) :
    s.width ≤ widest shapes := by
  cases shapes with
  | nil => cases h
  | cons t rest =>
    have hfold : ∀ (xs : List Shape) (start : Nat),
        start ≤ xs.foldl (fun width t => max width t.width) start ∧
          ∀ x ∈ xs, x.width ≤ xs.foldl (fun width t => max width t.width) start := by
      intro xs
      induction xs with
      | nil => exact fun start => ⟨Nat.le_refl _, fun _ hx => (nomatch hx)⟩
      | cons x xs ih =>
        intro start
        obtain ⟨hstart, hrest⟩ := ih (max start x.width)
        rw [List.foldl_cons]
        refine ⟨by omega, fun y hy => ?_⟩
        rcases List.mem_cons.mp hy with rfl | hy
        · omega
        · exact hrest y hy
    obtain ⟨hstart, hrest⟩ := hfold rest t.width
    rcases List.mem_cons.mp h with rfl | h
    · exact hstart
    · exact hrest s h

namespace Node

section

variable {functions : List Signature} {n : Node} {shapes : List Shape}

/-- Operands that fit a chosen type have its shapes. -/
theorem Chose.operates {types : List OperatorType} {arity : Nat} {reduces : Bool}
    (h : n.Chose types reduces shapes) (htable : TypeTable arity types)
    (hsized : ∀ s ∈ shapes, s.Sized)
    (hexpected : ∀ k i, n.overload = some k → n.expected functions i =
      match Graph.operandKind? types k i with
      | some kind => Shape.of kind n.inputWidth
      | none => Shape.unknown) :
    n.Operates types reduces (n.fitted functions shapes) := by
  obtain ⟨k, t, hoverload, ht, hlength, hwidth, hshape⟩ := h
  obtain ⟨hpos, hle⟩ := widest_bounds hsized
  have hknown := htable.known t (List.mem_of_getElem? ht)
  refine ⟨k, t, hoverload, ht, by omega, by omega, ?_, ?_⟩
  · apply List.ext_getElem?
    intro i
    rw [getElem?_fitted]
    unfold shapesOf
    rw [List.getElem?_map]
    by_cases hi : i < shapes.length
    · have hi' : i < t.operands.length := hlength ▸ hi
      have hkind := hknown.2 _ (List.getElem_mem hi')
      have hexact : n.expected functions i = ⟨t.operands[i], n.inputWidth⟩ := by
        rw [hexpected k i hoverload]
        unfold Graph.operandKind?
        rw [ht, Option.bind_some, List.getElem?_eq_getElem hi']
        exact Shape.of_eq hkind (by omega) (by omega)
      rw [List.getElem?_eq_getElem hi, List.getElem?_eq_getElem hi', Option.map_some,
        Option.map_some, hexact]
      unfold Shape.isUnknown
      rw [if_neg (by simpa using hkind)]
    · rw [List.getElem?_eq_none (Nat.le_of_not_lt hi),
        List.getElem?_eq_none (by rw [← hlength]; exact Nat.le_of_not_lt hi)]
      rfl
  · rw [hshape, hwidth]
    exact Shape.of_eq hknown.1 (by split <;> omega) (by split <;> omega)

/-- A call whose arguments fit is typed. -/
theorem ChoseCandidate.calls {candidates : List FunctionId} {arguments : List NodeId}
    (hop : n.op = .call candidates arguments) (h : n.ChoseCandidate functions candidates shapes)
    (hsized : ∀ s ∈ shapes, s.Sized) (hknown : n.shape.isUnknown = false) :
    n.Calls functions candidates (n.fitted functions shapes) := by
  rcases h with ⟨-, hunknown, -⟩ | ⟨k, f, s, hoverload, hcandidate, hs, hrequired, hlength, hpos, hle,
    hshape, hwidth⟩
  · rw [hknown] at hunknown
    cases hunknown
  have houtput : s.output ≠ .unknown := by
    unfold Shape.isUnknown at hknown
    rw [hshape, Shape.kind_of] at hknown
    exact of_decide_eq_false hknown
  have hexpected : ∀ i, n.expected functions i =
      match s.inputs[i]? with
      | some kind => Shape.of kind n.inputWidth
      | none => Shape.unknown := by
    intro i
    unfold expected Graph.expectedShape Graph.chosen?
    rw [hop, hoverload]
    dsimp only
    rewrite [hcandidate, Option.bind_some, hs, Option.bind_some]
    cases s.inputs[i]? <;> rfl
  refine ⟨k, f, s, hoverload, hcandidate, hs, by rw [length_fitted]; exact hrequired,
    by rw [length_fitted]; exact hlength, hpos, hle, houtput,
    by rw [hshape]; exact Shape.of_eq houtput hpos hle, ?_⟩
  intro i shape hi
  rw [getElem?_fitted, Option.map_eq_some_iff] at hi
  obtain ⟨old, hold, hnew⟩ := hi
  have hmem := List.mem_of_getElem? hold
  rw [hexpected i] at hnew
  cases hinput : s.inputs[i]? with
  | none =>
    rw [hinput] at hnew
    rw [← hnew]
    exact ⟨hsized old hmem, hwidth old hmem, fun _ h => nomatch h⟩
  | some kind =>
    rw [hinput] at hnew
    dsimp only at hnew
    by_cases hkind : kind = .unknown
    · rw [if_pos (by unfold Shape.isUnknown; rw [Shape.kind_of]; exact decide_eq_true hkind)] at hnew
      rw [← hnew]
      refine ⟨hsized old hmem, hwidth old hmem, fun kind' h' hknown' => ?_⟩
      cases h'
      exact absurd hkind hknown'
    · have hof := Shape.of_eq hkind hpos hle
      rw [if_neg (by unfold Shape.isUnknown; rw [Shape.kind_of]; simpa using hkind), hof] at hnew
      rw [← hnew]
      refine ⟨⟨hkind, hpos, hle⟩, Nat.le_refl _, fun kind' h' _ => ?_⟩
      cases h'
      rfl

/-- A drafted node is typed once its operands fit. -/
theorem Drafted.typed (h : n.Drafted functions shapes) (hsized : ∀ s ∈ shapes, s.Sized)
    (hknown : n.shape.isUnknown = false) (hwidth : n.shape.Sized) : n.Typed functions (n.fitted functions shapes) := by
  have hkind : n.shape.kind ≠ .unknown := of_decide_eq_false hknown
  have hopen : ∀ s : Shape, n.expected functions 0 = Shape.unknown →
      n.fitted functions [s] = [s] := by
    intro s hexpected
    unfold fitted
    rw [List.zipIdx_singleton, List.map_singleton, hexpected]
    rfl
  cases hop : n.op with
  | constant c =>
    unfold Drafted at h
    unfold Typed
    rw [hop] at h ⊢
    obtain ⟨rfl, -, -, hshape⟩ := h
    refine ⟨rfl, ?_, hshape⟩
    by_contra hvalid
    rw [hshape] at hkind
    unfold Constant.shape at hkind
    rw [if_neg hvalid] at hkind
    exact hkind rfl
  | input channel =>
    unfold Drafted at h
    unfold Typed
    rw [hop] at h ⊢
    obtain ⟨rfl, -, -, hpos, hle, hshape⟩ := h
    exact ⟨rfl, hpos, hle, hshape⟩
  | output channel source =>
    unfold Drafted at h
    unfold Typed
    rw [hop] at h ⊢
    obtain ⟨hlength, -, -, hpos, hle, hshape⟩ := h
    obtain ⟨s, rfl⟩ := List.length_eq_one_iff.mp hlength
    refine ⟨?_, hpos, hle, hshape⟩
    have hexpected : n.expected functions 0 = n.shape := by
      unfold expected Graph.expectedShape
      rw [hop]
    unfold fitted
    rw [List.zipIdx_singleton, List.map_singleton, hexpected, hknown]
    rfl
  | unary op x =>
    by_cases hconvert : op = .convert
    · subst hconvert
      unfold Drafted at h
      unfold Typed
      rw [hop] at h ⊢
      obtain ⟨hoverload, s, rfl, hshape⟩ := h
      have hs := hsized s (List.mem_singleton_self s)
      refine ⟨s, hopen s ?_, hs, hkind, ?_, by rw [hoverload]; rfl⟩
      · unfold expected Graph.expectedShape
        rw [hop, hoverload]
      · rw [hshape, Shape.of_eq hkind hs.pos hs.le_four]
    · rw [typed_unary hop hconvert]
      refine ((drafted_unary hop hconvert).mp h).operates op.typeTable hsized
        fun k i hoverload => ?_
      unfold expected Graph.expectedShape
      rw [hop, hoverload]
      cases op <;> rfl
  | binary op x y =>
    rw [typed_binary hop]
    refine ((drafted_binary hop).mp h).operates op.typeTable hsized fun k i hoverload => ?_
    unfold expected Graph.expectedShape
    rewrite [hop, hoverload]
    rfl
  | ternary op x y z =>
    rw [typed_ternary hop]
    refine ((drafted_ternary hop).mp h).operates op.typeTable hsized fun k i hoverload => ?_
    unfold expected Graph.expectedShape
    rewrite [hop, hoverload]
    rfl
  | swizzle components source =>
    unfold Drafted at h
    unfold Typed
    rw [hop] at h ⊢
    obtain ⟨hoverload, -, s, rfl, hshape⟩ := h
    refine ⟨s, hopen s ?_, hsized s (List.mem_singleton_self s), hshape⟩
    unfold expected Graph.expectedShape
    rw [hop, hoverload]
  | call candidates arguments =>
    unfold Typed
    rw [hop]
    exact ((drafted_call hop).mp h).calls hop hsized hknown
  | construct arguments =>
    unfold Drafted at h
    unfold Typed
    rw [hop] at h ⊢
    obtain ⟨hoverload, hunknown | ⟨hlength, hone⟩⟩ := h
    · rw [hknown] at hunknown
      cases hunknown
    have hexpected : ∀ i, n.expected functions i = ⟨n.shape.kind, 1⟩ := by
      intro i
      unfold expected Graph.expectedShape
      rw [hop, hoverload]
      exact Shape.of_eq hkind (Nat.le_refl 1) (show 1 ≤ 4 by decide)
    refine ⟨⟨hkind, ?_, ?_⟩, by rw [hoverload]; rfl, ?_⟩
    · exact hwidth.pos
    · exact hwidth.le_four
    · refine List.eq_replicate_iff.mpr ⟨by rw [length_fitted]; exact hlength, fun s hs => ?_⟩
      obtain ⟨i, hi⟩ := List.getElem?_of_mem hs
      rw [getElem?_fitted, Option.map_eq_some_iff] at hi
      obtain ⟨old, -, hnew⟩ := hi
      rw [hexpected i, if_neg (by unfold Shape.isUnknown; simpa using hkind)] at hnew
      exact hnew.symm

/-- A node that is resolved again stays as it is. -/
theorem Drafted.resolved_eq (h : n.Drafted functions shapes) (hopen : n.overload = none) :
    n.resolved functions shapes = n ∧ ∀ arguments, n.op ≠ .construct arguments := by
  have hself : ∀ width, n.inputWidth = width → ({ n with inputWidth := width } : Node) = n := by
    rintro width rfl
    rfl
  cases hop : n.op with
  | constant | input | output =>
    unfold Drafted at h
    rw [hop] at h
    have hresolved : n.resolved functions shapes = { n with inputWidth := widest shapes } := by
      unfold resolved
      rw [hop]
    exact ⟨hresolved.trans (hself _ h.2.2.1), fun _ h => nomatch h⟩
  | swizzle components source =>
    unfold Drafted at h
    rw [hop] at h
    obtain ⟨-, hwidth, s, rfl, hshape⟩ := h
    have hresolved : n.resolved functions [s] =
        { n with shape := Shape.of s.kind (components.length % 256), inputWidth := widest [s] } := by
      unfold resolved
      rw [hop]
      rfl
    refine ⟨hresolved.trans ?_, fun _ h => nomatch h⟩
    rw [← hshape]
    exact hself _ hwidth
  | unary op x =>
    by_cases hconvert : op = .convert
    · subst hconvert
      unfold Drafted at h
      rw [hop, hopen] at h
      cases h.1
    · obtain ⟨k, t, hoverload, -⟩ := (drafted_unary hop hconvert).mp h
      rw [hopen] at hoverload
      cases hoverload
  | binary op x y =>
    obtain ⟨k, t, hoverload, -⟩ := (drafted_binary hop).mp h
    rw [hopen] at hoverload
    cases hoverload
  | ternary op x y z =>
    obtain ⟨k, t, hoverload, -⟩ := (drafted_ternary hop).mp h
    rw [hopen] at hoverload
    cases hoverload
  | call candidates arguments =>
    rcases (drafted_call hop).mp h with ⟨-, -, hnone⟩ | ⟨k, f, s, hoverload, -⟩
    · refine ⟨?_, fun _ h => nomatch h⟩
      have hresolved : n.resolved functions shapes =
          n.resolveCall functions candidates arguments shapes := by
        unfold resolved
        rw [hop]
      have heligible : eligible functions candidates shapes.length = [] := by
        unfold eligible
        rw [List.filterMap_eq_nil_iff]
        rintro ⟨f, position⟩ hp
        obtain ⟨s, hs, hfew⟩ := hnone f (List.fst_mem_of_mem_zipIdx hp)
        dsimp only
        rw [hs]
        dsimp only
        rw [if_neg (by omega)]
      rw [hresolved, resolveCall_eq, heligible]
      rfl
    · rw [hopen] at hoverload
      cases hoverload
  | construct arguments =>
    unfold Drafted at h
    rw [hop, hopen] at h
    cases h.1

/-- The node is a call that has some record of its choice, some kind and the width of the
widest argument that it was given. -/
structure Records (n : Node) (shapes : List Shape) : Prop where
  isCall : n.op.isCall = true
  overload : n.overload.isSome = true
  shape : ∃ kind, n.shape = Shape.of kind n.inputWidth
  pos : 1 ≤ n.inputWidth
  le_four : n.inputWidth ≤ 4
  operands : ∀ s ∈ shapes, s.width ≤ n.inputWidth

/-- The node is as its factory resolves it, or, unless calls are exact, a call with some
record of its choice. -/
def Sketched (exact : Prop) (functions : List Signature) (n : Node) (shapes : List Shape) : Prop :=
  n.Drafted functions shapes ∨ ¬exact ∧ n.Records shapes

/-- Nodes of one frame are sketched alike. -/
theorem sketched_frame {exact : Prop} :
    n.frame.Sketched exact functions shapes ↔ n.Sketched exact functions shapes := by
  have hrecords : n.frame.Records shapes ↔ n.Records shapes :=
    ⟨fun h => ⟨n.isCall_frame ▸ h.isCall, h.overload, h.shape, h.pos, h.le_four, h.operands⟩,
      fun h => ⟨n.isCall_frame.trans h.isCall, h.overload, h.shape, h.pos, h.le_four,
        h.operands⟩⟩
  unfold Sketched
  rw [drafted_frame, hrecords]

/-- Where calls are exact, every node is as its factory resolves it. -/
theorem Sketched.drafted (h : n.Sketched True functions shapes) : n.Drafted functions shapes :=
  h.resolve_right fun hcall => hcall.1 trivial

/-- A node that is resolved again stays as it is. -/
theorem Sketched.resolved_eq {exact : Prop} (h : n.Sketched exact functions shapes)
    (hopen : n.overload = none) :
    n.resolved functions shapes = n ∧ ∀ arguments, n.op ≠ .construct arguments := by
  rcases h with h | ⟨-, hrecords⟩
  · exact h.resolved_eq hopen
  · have hsome := hrecords.overload
    rw [hopen] at hsome
    cases hsome

end

end Node

end LaneGraph
