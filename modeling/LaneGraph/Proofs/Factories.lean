import LaneGraph.Proofs.Typed

/-!
# What factories make of operands with known shapes

Where the shapes of all operands are known, a factory adds one node, resolved.
If the operands have exactly the shapes of one of the operator's types, the node
takes this type.
-/

namespace LaneGraph

namespace Graph

variable {g : Graph}

/-- Operands in the arena whose shapes are known. -/
def Known (g : Graph) (ids : List NodeId) : Prop :=
  ∀ c ∈ ids, ∃ n, g.node? c = some n ∧ n.shape.isUnknown = false

/-- The shapes of known operands are found. -/
theorem knownShapes?_eq {ids : List NodeId} (h : g.Known ids) :
    g.knownShapes? ids = .ok (some (ids.map g.shapeAt)) := by
  induction ids with
  | nil => rfl
  | cons id rest ih =>
    obtain ⟨n, hn, hknown⟩ := h id List.mem_cons_self
    have hnode : g.node id = .ok n := by
      unfold node
      rw [hn]
    rw [knownShapes?, hnode]
    dsimp only
    rw [hknown, ih fun c hc => h c (List.mem_cons_of_mem _ hc), List.map_cons, shapeAt_eq hn]
    rfl

/-- Known operands stay known when nodes are added. -/
theorem Known.push {ids : List NodeId} (h : g.Known ids) (n : Node) : (g.push n).Known ids := by
  intro c hc
  obtain ⟨m, hm, hknown⟩ := h c hc
  exact ⟨m, node?_push_of_some hm, hknown⟩

/-- Known operands keep their shapes when nodes are added. -/
theorem Known.shapes_push {ids : List NodeId} (h : g.Known ids) (n : Node) :
    ids.map (g.push n).shapeAt = ids.map g.shapeAt := by
  refine List.map_congr_left fun c hc => ?_
  obtain ⟨m, hm, -⟩ := h c hc
  rw [shapeAt_eq hm, shapeAt_eq (node?_push_of_some hm)]

/-- Replacing the node that was just added is adding the other one. -/
theorem setNode_push (g : Graph) (n m : Node) : (g.push n).setNode g.nodes.size m = g.push m := by
  unfold setNode push
  dsimp only
  congr 1
  apply Array.ext_getElem?
  intro k
  rw [Array.getElem?_setIfInBounds, Array.getElem?_push, Array.getElem?_push, Array.size_push]
  by_cases hk : k = g.nodes.size
  · rw [if_pos hk.symm, if_pos (by omega), if_pos hk]
  · rw [if_neg (Ne.symm hk), if_neg hk, if_neg hk]

end Graph

namespace Build

variable {g : Graph}

/-- A node with known operands is resolved when it is added. -/
theorem runOn_plain (op : Operation) (shape : Shape) (h : g.Known op.children) :
    (plain op shape).runOn g = (.ok g.nodes.size,
      g.push (({ op, shape } : Node).resolved g.functions (op.children.map g.shapeAt))) := by
  let n : Node := { op, shape }
  have hnode : (g.push n).node? g.nodes.size = some n := Graph.node?_push_size g n
  have hshapes : (g.push n).knownShapes? op.children =
      .ok (some (op.children.map g.shapeAt)) := by
    rw [Graph.knownShapes?_eq (h.push n), h.shapes_push n]
  have hresolve : (resolvePlain g.nodes.size).runOn (g.push n) =
      (.ok (), g.push (n.resolved g.functions (op.children.map g.shapeAt))) := by
    unfold resolvePlain
    rw [runOn_bind, runOn_node hnode]
    dsimp only
    have hopen : ¬n.overload.isSome = true := Bool.false_ne_true
    rw [if_neg hopen, runOn_bind, runOn_ask hshapes]
    dsimp only
    rw [← Graph.setNode_push g n (n.resolved g.functions (op.children.map g.shapeAt))]
    rfl
  unfold plain
  rw [runOn_bind, runOn_append]
  dsimp only
  rw [runOn_bind, hresolve]
  rfl

/-- Adding a node fails or adds one, whatever is known of its operands. -/
theorem runOn_plain_cases (op : Operation) (shape : Shape) :
    (∃ e g', (plain op shape).runOn g = (.error e, g')) ∨
      ∃ n, (plain op shape).runOn g = (.ok g.nodes.size, g.push n) := by
  let n : Node := { op, shape }
  have hnode : (g.push n).node? g.nodes.size = some n := Graph.node?_push_size g n
  have hopen : ¬n.overload.isSome = true := Bool.false_ne_true
  unfold plain
  rw [runOn_bind, runOn_append]
  dsimp only
  rw [runOn_bind]
  unfold resolvePlain
  rw [runOn_bind, runOn_node hnode]
  dsimp only
  rw [if_neg hopen, runOn_bind]
  cases hshapes : (g.push n).knownShapes? n.children with
  | error e =>
    refine .inl ⟨e, g.push n, ?_⟩
    unfold ask
    rw [runOn_bind]
    have hget : (get : Build Graph).runOn (g.push n) = (.ok (g.push n), g.push n) := rfl
    rw [hget]
    dsimp only
    rw [hshapes]
    rfl
  | ok shapes =>
    rw [runOn_ask hshapes]
    cases shapes with
    | none => exact .inr ⟨n, rfl⟩
    | some shapes =>
      refine .inr ⟨n.resolved (g.push n).functions shapes, ?_⟩
      rw [← Graph.setNode_push g n (n.resolved (g.push n).functions shapes)]
      rfl

/-- What follows the adding of a node may rely on the nodes that were there. -/
theorem ends_plain_congr {op : Operation} {shape : Shape} {P Q : NodeId → Graph → Prop}
    {refused : GraphError → Prop}
    (h : ∀ id g', (∀ x m, g.node? x = some m → g'.node? x = some m) → (P id g' ↔ Q id g')) :
    Ends (plain op shape) g P refused ↔ Ends (plain op shape) g Q refused := by
  rcases runOn_plain_cases (g := g) op shape with ⟨e, g', hrun⟩ | ⟨n, hrun⟩
  · unfold Ends
    rw [hrun]
  · rw [ends_of_runOn hrun, ends_of_runOn hrun]
    exact h _ _ fun _ _ hm => Graph.node?_push_of_some hm

/-- A constructor whose operands can be arranged without further nodes. -/
theorem runOn_construct {shape : Shape} {ids arranged : List NodeId} (hids : g.Known ids)
    (harranged : ∀ g' : Graph, (arrangement shape (ids.zip (ids.map g.shapeAt))).runOn g' =
      (.ok arranged, g')) :
    (construct shape ids).runOn g = (.ok g.nodes.size, g.push
      { op := .construct arranged, shape, inputWidth := 1, overload := some 0 }) := by
  let n : Node := { op := .construct ids, shape }
  let m : Node := { op := .construct arranged, shape, inputWidth := 1, overload := some 0 }
  have hnode : (g.push n).node? g.nodes.size = some n := Graph.node?_push_size g n
  have hshapes : (g.push n).knownShapes? ids = .ok (some (ids.map g.shapeAt)) := by
    rw [Graph.knownShapes?_eq (hids.push n), hids.shapes_push n]
  have hresolve : (resolve g.nodes.size).runOn (g.push n) = (.ok (), g.push m) := by
    unfold resolve
    rw [runOn_bind, runOn_node hnode]
    dsimp only [n]
    rw [if_neg (by decide), runOn_bind, runOn_ask hshapes]
    dsimp only
    rw [runOn_bind, harranged]
    dsimp only
    unfold modifyNode
    rw [runOn_bind, runOn_node hnode]
    dsimp only
    rw [← Graph.setNode_push g n m]
    rfl
  unfold construct
  rw [runOn_bind, runOn_append]
  dsimp only
  rw [runOn_bind, hresolve]
  rfl

/-- One scalar is spread over all components of a constructor. -/
theorem runOn_construct_scalar {shape : Shape} {x : NodeId} {kind : Kind}
    (hshape : shape.Sized) (hx : g.Known [x]) (hscalar : g.shapeAt x = ⟨kind, 1⟩) :
    (construct shape [x]).runOn g = (.ok g.nodes.size, g.push
      { op := .construct (List.replicate shape.width x), shape, inputWidth := 1,
        overload := some 0 }) := by
  refine runOn_construct hx fun g' => ?_
  rw [List.map_singleton, hscalar]
  unfold arrangement
  by_cases hwide : 1 < shape.width
  · simp [Shape.isScalar, hwide]
  · have hone : shape.width = 1 := by
      have := hshape.pos
      omega
    simp [Shape.isScalar, hone, flatten]

/-- Scalars are their own parts. -/
theorem flatten_scalars {ids : List NodeId} {shapes : List Shape}
    (hlength : ids.length = shapes.length) (h : ∀ s ∈ shapes, s.width = 1) :
    flatten (ids.zip shapes) = pure ids := by
  induction ids generalizing shapes with
  | nil => rfl
  | cons id ids ih =>
    cases shapes with
    | nil => cases hlength
    | cons s shapes =>
      have hone : s.isScalar = true := decide_eq_true (h s List.mem_cons_self)
      rw [List.zip_cons_cons, flatten, if_pos hone,
        ih (Nat.succ.inj hlength) fun t ht => h t (List.mem_cons_of_mem _ ht)]
      rfl

/-- Scalars, one for each component, make up a constructor. -/
theorem runOn_construct_scalars (shape : Shape) {ids : List NodeId} (hids : g.Known ids)
    (hscalar : ∀ x ∈ ids, (g.shapeAt x).width = 1) (hlength : ids.length = shape.width) :
    (construct shape ids).runOn g = (.ok g.nodes.size, g.push
      { op := .construct ids, shape, inputWidth := 1, overload := some 0 }) := by
  refine runOn_construct hids fun g' => ?_
  have hflat : flatten (ids.zip (ids.map g.shapeAt)) = pure ids := by
    refine flatten_scalars (List.length_map _).symm fun s hs => ?_
    obtain ⟨x, hx, rfl⟩ := List.mem_map.mp hs
    exact hscalar x hx
  unfold arrangement
  dsimp only
  rw [hflat]
  split
  · -- A single scalar would be spread only over more than one component.
    rename_i argument heq
    split at heq
    · rename_i s hzip
      have hone := congrArg List.length hzip
      rw [List.length_zip, List.length_map, Nat.min_self, hlength, List.length_singleton] at hone
      rw [hone] at heq
      simp at heq
    · cases heq
  · have htake : ids.take shape.width = ids := List.take_of_length_le (Nat.le_of_eq hlength)
    simp [htake, hlength]

end Build

namespace Node

/-- Operands of the shapes of a type choose that type. -/
theorem resolveOperator_exact (n : Node) {types : List OperatorType} {arity : Nat}
    (htable : TypeTable arity types) {k : Nat} {t : OperatorType} (ht : types[k]? = some t)
    (harity : 1 ≤ arity) {width : Nat} (hpos : 1 ≤ width) (hle : width ≤ 4) (reduces : Bool) :
    n.resolveOperator types (shapesOf t.operands width) reduces =
      { n with
        shape := ⟨t.result, if reduces then 1 else width⟩
        inputWidth := width
        overload := some k } := by
  have hmem := List.mem_of_getElem? ht
  have hkinds : (shapesOf t.operands width).map (·.kind) = t.operands := by
    unfold shapesOf
    rw [List.map_map]
    exact List.map_id _
  have hne : t.operands ≠ [] := by
    intro hnil
    have hlength := htable.arity t hmem
    rw [hnil] at hlength
    simp at hlength
    omega
  have hk : k % 256 = k := by
    have hlt := (List.getElem?_eq_some_iff.mp ht).1
    have hshort := htable.short
    omega
  unfold resolveOperator
  rw [hkinds, htable.exact k t ht, widest_shapesOf hne]
  dsimp only
  rw [ht]
  dsimp only
  rw [hk, Shape.of_eq (htable.known t hmem).1 (by split <;> omega) (by split <;> omega)]

end Node

/-- Shapes that are known belong to nodes of the arena. -/
theorem Graph.known_of_shapeAt {g : Graph} {ids : List NodeId}
    (h : ∀ c ∈ ids, (g.shapeAt c).isUnknown = false) : g.Known ids := by
  intro c hc
  have hknown := h c hc
  unfold Graph.shapeAt at hknown
  cases hn : g.node? c with
  | none =>
    rw [hn] at hknown
    cases hknown
  | some n =>
    rw [hn] at hknown
    exact ⟨n, rfl, hknown⟩

/-- Operands of a type's shapes are known. -/
theorem Graph.known_of_shapesOf {g : Graph} {types : List OperatorType} {arity k : Nat}
    {t : OperatorType} (htable : TypeTable arity types) (ht : types[k]? = some t)
    {ids : List NodeId} {width : Nat} (h : ids.map g.shapeAt = shapesOf t.operands width) :
    g.Known ids := by
  apply known_of_shapeAt
  intro c hc
  have hmem : g.shapeAt c ∈ shapesOf t.operands width := h ▸ List.mem_map_of_mem hc
  unfold shapesOf at hmem
  obtain ⟨kind, hkind, heq⟩ := List.mem_map.mp hmem
  rw [← heq]
  exact decide_eq_false ((htable.known t (List.mem_of_getElem? ht)).2 kind hkind)

/-- An operator applied to operands of the shapes of a type takes that type. -/
theorem Build.runOn_operator {g : Graph} (op : Operation) {types : List OperatorType}
    {arity k width : Nat} {reduces : Bool} {t : OperatorType} (htable : TypeTable arity types)
    (harity : 1 ≤ arity) (ht : types[k]? = some t) (hpos : 1 ≤ width) (hle : width ≤ 4)
    (hresolved : ∀ (m : Node) (shapes : List Shape), m.op = op →
      m.resolved g.functions shapes = m.resolveOperator types shapes reduces)
    (hshapes : op.children.map g.shapeAt = shapesOf t.operands width) :
    (plain op Shape.unknown).runOn g = (.ok g.nodes.size, g.push
      { op, shape := ⟨t.result, if reduces then 1 else width⟩, inputWidth := width,
        overload := some k }) := by
  have hrun := runOn_plain op Shape.unknown (Graph.known_of_shapesOf htable ht hshapes)
  rw [hresolved _ _ rfl, hshapes] at hrun
  rw [hrun, Node.resolveOperator_exact _ htable ht harity hpos hle]

/-- A change of kind keeps the width. -/
theorem Build.runOn_convert {g : Graph} {x : NodeId} {target : Kind} (htarget : target ≠ .unknown)
    (hx : (g.shapeAt x).Sized) :
    (convert x target).runOn g = (.ok g.nodes.size, g.push
      { op := .unary .convert x, shape := ⟨target, (g.shapeAt x).width⟩,
        inputWidth := (g.shapeAt x).width, overload := some 0 }) := by
  have hknown : g.Known [x] := by
    refine Graph.known_of_shapeAt fun c hc => ?_
    rw [List.mem_singleton.mp hc]
    exact decide_eq_false hx.known
  have hrun := runOn_plain (.unary .convert x) (Shape.of target 1) hknown
  have hwide : widest [g.shapeAt x] = (g.shapeAt x).width := rfl
  unfold Node.resolved at hrun
  simp only [Operation.children, List.map_cons, List.map_nil, Shape.kind_of, hwide] at hrun
  rw [Shape.of_eq htarget hx.pos hx.le_four] at hrun
  exact hrun

/-- Scalars are one component wide. -/
theorem widest_of_scalars {shapes : List Shape} (h : ∀ s ∈ shapes, s.width = 1) :
    widest shapes = 1 := by
  cases shapes with
  | nil => rfl
  | cons s rest =>
    have hfold : ∀ xs : List Shape, (∀ x ∈ xs, x.width = 1) →
        xs.foldl (fun width x => max width x.width) 1 = 1 := by
      intro xs hxs
      induction xs with
      | nil => rfl
      | cons x xs ih =>
        rw [List.foldl_cons, hxs x List.mem_cons_self]
        exact ih fun y hy => hxs y (List.mem_cons_of_mem _ hy)
    unfold widest
    dsimp only
    rw [h s List.mem_cons_self]
    exact hfold rest fun x hx => h x (List.mem_cons_of_mem _ hx)

/-- A call of one function with scalar arguments that it is content with. -/
theorem Build.runOn_callKnown {g : Graph} {f : FunctionId} {s : Signature} {ids : List NodeId}
    (hs : g.functions[f]? = some s) (hids : g.Known ids)
    (hscalar : ∀ x ∈ ids, (g.shapeAt x).width = 1) (hrequired : s.required ≤ ids.length)
    (hlength : ids.length ≤ s.inputs.length) (houtput : s.output ≠ .unknown) :
    (callKnown [f] ids).runOn g = (.ok g.nodes.size, g.push
      { op := .call [f] ids, shape := ⟨s.output, 1⟩, inputWidth := 1, overload := some 0 }) := by
  have hrun := runOn_plain (.call [f] ids) Shape.unknown hids
  have hwide : widest (ids.map g.shapeAt) = 1 := by
    refine widest_of_scalars fun shape hshape => ?_
    obtain ⟨x, hx, rfl⟩ := List.mem_map.mp hshape
    exact hscalar x hx
  have hresolved : ({ op := .call [f] ids, shape := Shape.unknown } : Node).resolved g.functions
      (ids.map g.shapeAt) =
        { op := .call [f] ids, shape := ⟨s.output, 1⟩, inputWidth := 1, overload := some 0 } := by
    have hcheapest : ∀ kinds, cheapest? [s.inputs] kinds = some 0 := fun _ => rfl
    have htake : ids.take s.inputs.length = ids := List.take_of_length_le hlength
    have hshape := Shape.of_eq houtput (Nat.le_refl 1) (show 1 ≤ 4 by decide)
    simp [Node.resolved, Node.resolveCall, hwide, hs, hrequired, hcheapest, htake, hshape]
  rw [← hresolved]
  exact hrun

end LaneGraph
