import LaneGraph.Proofs.Closure

/-!
# How wide results are

A node that applies an operator or calls a function is as wide as the widest of the
operands that it is made with. A call may drop some of these, but only after its width
is fixed: arguments that are dropped count. Only operators that reduce vectors have one
component whatever their operands have.

For this the shapes of the operands have to be in bounds. That holds of everything that
factories make, since no step of a factory sets a shape that is not.
-/

namespace LaneGraph

open Build

namespace Build

variable {α β : Type} {P : Graph → Prop}

/-- Steps keep a condition on the graph, whether they succeed or fail. -/
def Preserves (P : Graph → Prop) (steps : Build α) : Prop := ∀ g, P g → P (steps.runOn g).2

namespace Preserves

/-- A bare result changes nothing. -/
theorem pure (a : α) : Preserves P (Pure.pure a) := fun _ h => h

/-- Steps that follow others. -/
theorem bind {first : Build α} {next : α → Build β} (h : Preserves P first)
    (hnext : ∀ a, Preserves P (next a)) : Preserves P (first >>= next) := by
  intro g hg
  have hfirst := h g hg
  rw [runOn_bind]
  cases hrun : first.runOn g with
  | mk result g' =>
    rw [hrun] at hfirst
    cases result with
    | ok a => exact hnext a g' hfirst
    | error e => exact hfirst

/-- What follows a question may rely on what its answers have in common. -/
theorem ask {question : Graph → Except GraphError α} {next : α → Build β} {Q : α → Prop}
    (hanswer : ∀ g a, P g → question g = .ok a → Q a) (hnext : ∀ a, Q a → Preserves P (next a)) :
    Preserves P (Build.ask question >>= next) := by
  intro g hg
  have hrun : (Build.ask question).runOn g = (question g, g) := by
    unfold Build.ask
    rw [runOn_bind]
    have hget : (MonadState.get : Build Graph).runOn g = (.ok g, g) := rfl
    rw [hget]
    dsimp only
    cases question g <;> rfl
  rw [runOn_bind, hrun]
  cases hquestion : question g with
  | ok a => exact hnext a (hanswer g a hg hquestion) g hg
  | error e => exact hg

/-- A change of the graph. -/
theorem modify {f : Graph → Graph} (h : ∀ g, P g → P (f g)) : Preserves P (modify f) := h

/-- One step after the other on the members of a list. -/
theorem mapM {f : α → Build β} (h : ∀ a, Preserves P (f a)) (xs : List α) :
    Preserves P (xs.mapM f) := by
  induction xs with
  | nil => exact pure []
  | cons x xs ih =>
    rw [List.mapM_cons]
    exact (h x).bind fun _ => ih.bind fun _ => pure _

end Preserves

end Build

/-! ## Shapes are in bounds -/

/-- The shape is unknown or has one to four components. -/
def Shape.Proper (s : Shape) : Prop := s.isUnknown = false → s.Sized

/-- A shape that is brought into bounds is proper. -/
theorem Shape.proper_of (kind : Kind) (width : Nat) : (Shape.of kind width).Proper := by
  intro hknown
  unfold isUnknown at hknown
  rw [kind_of] at hknown
  exact sized_of (of_decide_eq_false hknown) width

/-- The unknown shape is proper. -/
theorem Shape.proper_unknown : Shape.unknown.Proper := fun h => nomatch h

/-- The shape of a literal is proper. -/
theorem Constant.proper_shape (value : Constant) : value.shape.Proper := by
  unfold Constant.shape
  split
  · exact Shape.proper_of _ _
  · exact Shape.proper_unknown

/-- All nodes of an arena have proper shapes. -/
def Graph.Proper (g : Graph) : Prop := ∀ id n, g.node? id = some n → n.shape.Proper

namespace Graph.Proper

variable {g : Graph}

/-- A node of proper shape is added. -/
theorem push (h : g.Proper) {n : Node} (hn : n.shape.Proper) : (g.push n).Proper := by
  intro id m hm
  rcases node?_push_cases hm with hm | rfl
  · exact h _ _ hm
  · exact hn

/-- A node is replaced by one of proper shape. -/
theorem setNode (h : g.Proper) {n : Node} (hn : n.shape.Proper) (id : NodeId) :
    (g.setNode id n).Proper := by
  intro x m hm
  by_cases hx : x = id
  · subst hx
    obtain ⟨k, hk⟩ := exists_node (g.size_setNode x n ▸ lt_size hm)
    rw [node?_setNode_self n hk] at hm
    cases hm
    exact hn
  · rw [node?_setNode_of_ne n hx] at hm
    exact h _ _ hm

/-- The tables do not matter. -/
theorem of_nodes {g' : Graph} (h : g.Proper) (hnodes : g'.nodes = g.nodes) : g'.Proper := by
  intro id n hn
  unfold node? at hn
  rw [hnodes] at hn
  exact h _ _ hn

end Graph.Proper

/-- A node of proper shape is resolved to one. -/
theorem Node.Resolves.proper {n n' : Node} {shapes : List Shape} (h : n.Resolves shapes n')
    (hn : n.shape.Proper) : n'.shape.Proper := by
  rcases h.shape with hshape | ⟨-, kind, width, hshape⟩
  · rw [hshape]
    exact hn
  · rw [hshape]
    exact Shape.proper_of kind width

namespace Build

/-- What follows the look at a node may rely on its shape being proper. -/
theorem Preserves.node {α : Type} {id : NodeId} {next : Node → Build α}
    (hnext : ∀ n, n.shape.Proper → Preserves Graph.Proper (next n)) :
    Preserves Graph.Proper (Build.node id >>= next) := by
  refine .ask (fun g n hg hnode => ?_) hnext
  unfold Graph.node at hnode
  cases hn : g.node? id with
  | none =>
    rw [hn] at hnode
    cases hnode
  | some m =>
    rw [hn] at hnode
    cases hnode
    exact hg id n hn

/-- Resolving a node other than a constructor keeps shapes proper. -/
theorem resolvePlain_proper (id : NodeId) : Preserves Graph.Proper (resolvePlain id) := by
  unfold resolvePlain
  refine .node fun n hn => ?_
  split
  · exact .pure ()
  · refine .ask (Q := fun _ => True) (fun _ _ _ _ => trivial) fun shapes _ => ?_
    split
    · exact .pure ()
    · rename_i shapes
      exact fun g hg => hg.setNode ((n.resolves_resolved g.functions shapes).proper hn) id

/-- A node other than a constructor is added with a proper shape. -/
theorem plain_proper (op : Operation) {shape : Shape} (hshape : shape.Proper) :
    Preserves Graph.Proper (plain op shape) := by
  have happend : Preserves Graph.Proper (append { op, shape }) := fun _ h => h.push hshape
  exact happend.bind fun id => (resolvePlain_proper id).bind fun _ => .pure id

/-- Splitting the arguments of a constructor keeps shapes proper. -/
theorem flatten_proper (arguments : List (NodeId × Shape)) :
    Preserves Graph.Proper (flatten arguments) := by
  induction arguments with
  | nil => exact .pure []
  | cons argument rest ih =>
    have hrest : ∀ parts : List NodeId, Preserves Graph.Proper do
        return parts ++ (← flatten rest) := fun _ => ih.bind fun _ => .pure _
    unfold flatten
    dsimp only
    split
    · exact hrest _
    · exact (Preserves.mapM (fun _ => plain_proper _ Shape.proper_unknown) _).bind hrest

/-- Arranging the arguments of a constructor keeps shapes proper. -/
theorem arrangement_proper (target : Shape) (arguments : List (NodeId × Shape)) :
    Preserves Graph.Proper (arrangement target arguments) := by
  unfold arrangement
  dsimp only
  split
  · exact .pure _
  · refine (flatten_proper arguments).bind fun flat => ?_
    split
    · split
      · exact (plain_proper _ (Constant.proper_shape _)).bind fun _ => .pure _
      · exact .pure _
    · exact .pure _

/-- A constructor is added with a proper shape. -/
theorem construct_proper {shape : Shape} (hshape : shape.Proper) (arguments : List NodeId) :
    Preserves Graph.Proper (construct shape arguments) := by
  have happend : Preserves Graph.Proper (append { op := .construct arguments, shape }) :=
    fun _ h => h.push hshape
  refine happend.bind fun id => .bind ?_ fun _ => .pure id
  unfold resolve
  refine .node fun n hn => ?_
  split
  · split
    · exact .pure ()
    · refine .ask (Q := fun _ => True) (fun _ _ _ _ => trivial) fun shapes _ => ?_
      split
      · exact .pure ()
      · refine (arrangement_proper _ _).bind fun arranged => ?_
        refine .node fun m hm => .modify fun g hg => hg.setNode ?_ id
        exact hm
  · exact resolvePlain_proper id

/-- Looking up a function keeps the nodes. -/
theorem function_nodes {nodes : Array Node} (s : Signature) :
    Preserves (fun g => g.nodes = nodes) (function s) := by
  intro g hg
  unfold function
  rw [runOn_bind]
  have hget : (MonadState.get : Build Graph).runOn g = (.ok g, g) := rfl
  rw [hget]
  dsimp only
  split <;> exact hg

/-- Looking up a function keeps shapes proper. -/
theorem function_proper (s : Signature) : Preserves Graph.Proper (function s) :=
  fun g hg => hg.of_nodes (function_nodes s g rfl)

/-- A call is added with a proper shape. -/
theorem call_proper (candidates : List Signature) (arguments : List NodeId) :
    Preserves Graph.Proper (call candidates arguments) :=
  (Preserves.mapM function_proper candidates).bind fun _ => plain_proper _ Shape.proper_unknown

end Build

/-- Every factory keeps shapes proper. -/
theorem Factory.proper {g : Graph} {steps : Build NodeId} (h : Factory g steps) :
    Preserves Graph.Proper steps := by
  cases h with
  | convert hx target => exact plain_proper _ (Shape.proper_of target 1)
  | constant value => exact plain_proper _ value.proper_shape
  | input name encoding count =>
    refine .bind (.modify fun g hg => ?_) fun _ => plain_proper _ (Shape.proper_of _ _)
    split
    · exact hg
    · exact hg.of_nodes rfl
  | output name encoding count hx =>
    refine (plain_proper _ (Shape.proper_of _ _)).bind fun id => ?_
    exact .bind (.modify fun g hg => hg.of_nodes rfl) fun _ => .pure id
  | call _ _ harguments => exact call_proper _ _
  | construct kind width harguments => exact construct_proper (Shape.proper_of kind width) _
  | _ => exact plain_proper _ Shape.proper_unknown

/-- Whatever factories make has proper shapes. -/
theorem Graph.Made.proper {g : Graph} (h : g.Made) : g.Proper := by
  induction h with
  | empty => exact fun _ _ hn => nomatch hn
  | factory _ hfactory ih => exact hfactory.proper _ ih
  | call candidates _ _ ih => exact call_proper candidates _ _ ih

/-! ## The widest of some shapes -/

/-- Further shapes make no difference if they are no wider. -/
theorem widest_append_eq_iff {kept dropped : List Shape} (hkept : ∀ s ∈ kept, s.Sized)
    (hdropped : ∀ s ∈ dropped, s.Sized) :
    widest (kept ++ dropped) = widest kept ↔ ∀ s ∈ dropped, s.width ≤ widest kept := by
  have hall : ∀ s ∈ kept ++ dropped, s.Sized := fun s hs =>
    (List.mem_append.mp hs).elim (hkept s) (hdropped s)
  refine ⟨fun heq s hs => ?_, fun h => Nat.le_antisymm ?_ ?_⟩
  · rw [← heq]
    exact width_le_widest (List.mem_append_right _ hs)
  · refine widest_le (widest_bounds hkept).1 fun s hs => ?_
    exact (List.mem_append.mp hs).elim (fun hs => width_le_widest hs) (h s)
  · exact widest_le (widest_bounds hall).1 fun s hs =>
      width_le_widest (List.mem_append_left _ hs)

/-! ## Operators and calls -/

namespace Operation

/-- The operation applies an operator or calls a function. -/
def Applies : Operation → Prop
  | unary _ _ | binary _ _ _ | ternary _ _ _ _ | call _ _ => True
  | _ => False

/-- The result has one component, whatever the operands have. -/
def reduces : Operation → Bool
  | unary op _ => op.reduces
  | binary op _ _ => op.reduces
  | _ => false

end Operation

/-- A node is as wide as its operands were when it was resolved. It has kept the first of
these, and only calls drop any. -/
structure Node.Spans (n : Node) (operands : List NodeId) (shapeAt : NodeId → Shape) : Prop where
  kept : ∃ dropped, operands = n.children ++ dropped ∧
    ((∀ candidates arguments, n.op ≠ .call candidates arguments) → dropped = []) ∧
    (n.inputWidth = widest (n.children.map shapeAt) ↔
      ∀ x ∈ dropped, (shapeAt x).width ≤ widest (n.children.map shapeAt))
  inputWidth : n.inputWidth = widest (operands.map shapeAt)
  width : n.shape.isUnknown = false → n.shape.width = if n.op.reduces then 1 else n.inputWidth

namespace Node

/-- What the resolution of an operator or a call sets: the width before operands are
dropped, and a shape with this width. -/
structure Sets (n : Node) (shapes : List Shape) (n' : Node) : Prop where
  inputWidth : n'.inputWidth = widest shapes
  shape : ∃ kind, n'.shape = Shape.of kind (if n.op.reduces then 1 else widest shapes)
  kept : n'.op = n.op ∨ ∃ candidates arguments count,
    n.op = .call candidates arguments ∧ n'.op = .call candidates (arguments.take count)

/-- An operator that is resolved. -/
theorem sets_operator {n : Node} {types : List OperatorType} {shapes : List Shape} {reduces : Bool}
    (hreduces : n.op.reduces = reduces) (hopen : n.overload = none)
    (hresolved : (n.resolveOperator types shapes reduces).overload.isSome = true) :
    n.Sets shapes (n.resolveOperator types shapes reduces) := by
  have hstays : ¬n.overload.isSome = true := by
    rw [hopen]
    exact Bool.false_ne_true
  unfold resolveOperator at hresolved ⊢
  dsimp only at hresolved ⊢
  split at hresolved
  · exact absurd hresolved hstays
  · split at hresolved
    · exact absurd hresolved hstays
    · exact ⟨rfl, ⟨_, by rw [hreduces]⟩, .inl rfl⟩

/-- A call that is resolved. -/
theorem sets_call {n : Node} {functions : List Signature} {candidates : List FunctionId}
    {arguments : List NodeId} {shapes : List Shape} (hop : n.op = .call candidates arguments)
    (hopen : n.overload = none)
    (hresolved : (n.resolveCall functions candidates arguments shapes).overload.isSome = true) :
    n.Sets shapes (n.resolveCall functions candidates arguments shapes) := by
  have hstays : ¬n.overload.isSome = true := by
    rw [hopen]
    exact Bool.false_ne_true
  have hreduces : n.op.reduces = false := by
    rw [hop]
    rfl
  rw [resolveCall_eq] at hresolved ⊢
  split at hresolved
  · exact absurd hresolved hstays
  · split at hresolved
    · exact absurd hresolved hstays
    · rename_i position s _
      exact ⟨rfl, ⟨s.output, by rw [hreduces]; rfl⟩, .inr ⟨candidates, arguments, _, hop, rfl⟩⟩

/-- An operator or a call that is resolved. -/
theorem sets_resolved {n : Node} {functions : List Signature} {shapes : List Shape}
    (happlies : n.op.Applies) (hopen : n.overload = none)
    (hresolved : (n.resolved functions shapes).overload.isSome = true) :
    n.Sets shapes (n.resolved functions shapes) := by
  cases hop : n.op with
  | unary op x =>
    by_cases hconvert : op = .convert
    · subst hconvert
      have heq : n.resolved functions shapes =
          { n with
            shape := Shape.of n.shape.kind (widest shapes)
            inputWidth := widest shapes
            overload := some 0 } := by
        unfold resolved
        rw [hop]
      rw [heq]
      exact ⟨rfl, ⟨_, by rw [hop]; rfl⟩, .inl rfl⟩
    · rw [resolved_unary hop hconvert] at hresolved ⊢
      exact sets_operator (by rw [hop]; rfl) hopen hresolved
  | binary op x y =>
    rw [resolved_binary hop] at hresolved ⊢
    exact sets_operator (by rw [hop]; rfl) hopen hresolved
  | ternary op x y z =>
    rw [resolved_ternary hop] at hresolved ⊢
    exact sets_operator (by rw [hop]; rfl) hopen hresolved
  | call candidates arguments =>
    have heq : n.resolved functions shapes =
        n.resolveCall functions candidates arguments shapes := by
      unfold resolved
      rw [hop]
    rw [heq] at hresolved ⊢
    exact sets_call hop hopen hresolved
  | _ =>
    rw [hop] at happlies
    exact happlies.elim

/-- What is set from operands in bounds spans them. -/
theorem Sets.spans {n n' : Node} {shapeAt : NodeId → Shape}
    (h : n.Sets (n.children.map shapeAt) n') (hsized : ∀ x ∈ n.children, (shapeAt x).Sized) :
    n'.Spans n.children shapeAt := by
  have hreduces : n'.op.reduces = n.op.reduces := by
    rcases h.kept with hop | ⟨candidates, arguments, count, hop, hop'⟩
    · rw [hop]
    · rw [hop, hop']
      rfl
  have hmapped : ∀ s ∈ n.children.map shapeAt, s.Sized := by
    intro s hs
    obtain ⟨x, hx, rfl⟩ := List.mem_map.mp hs
    exact hsized x hx
  obtain ⟨hpos, hle⟩ := widest_bounds hmapped
  refine ⟨?_, h.inputWidth, fun hknown => ?_⟩
  · rcases h.kept with hop | ⟨candidates, arguments, count, hop, hop'⟩
    · have hchildren : n'.children = n.children := congrArg Operation.children hop
      refine ⟨[], by rw [hchildren, List.append_nil], fun _ => rfl, ?_⟩
      rw [h.inputWidth, hchildren]
      exact ⟨fun _ _ hx => (nomatch hx), fun _ => rfl⟩
    · have hchildren : n'.children = n.children.take count := by
        unfold children
        rw [hop, hop']
        rfl
      have hsplit : n.children = n'.children ++ n.children.drop count := by
        rw [hchildren, List.take_append_drop]
      refine ⟨n.children.drop count, hsplit, fun hnone => absurd hop' (hnone _ _), ?_⟩
      have hkept : ∀ s ∈ n'.children.map shapeAt, s.Sized := by
        intro s hs
        obtain ⟨x, hx, rfl⟩ := List.mem_map.mp hs
        exact hsized x (List.mem_of_mem_take (hchildren ▸ hx))
      have hdropped : ∀ s ∈ (n.children.drop count).map shapeAt, s.Sized := by
        intro s hs
        obtain ⟨x, hx, rfl⟩ := List.mem_map.mp hs
        exact hsized x (List.mem_of_mem_drop hx)
      have hiff := widest_append_eq_iff hkept hdropped
      rw [← List.map_append, ← hsplit] at hiff
      rw [h.inputWidth, hiff, List.forall_mem_map]
  · obtain ⟨kind, hshape⟩ := h.shape
    rw [hshape] at hknown ⊢
    unfold Shape.isUnknown at hknown
    rw [Shape.kind_of] at hknown
    rw [Shape.of_eq (of_decide_eq_false hknown) (by split <;> omega) (by split <;> omega),
      hreduces, h.inputWidth]

end Node

/-- An operator or a call that is resolved when it is added spans its operands. -/
theorem Build.plain_spans {g g' : Graph} (hg : g.Proper) (op : Operation) {shape : Shape}
    {id : NodeId} {m : Node} (happlies : op.Applies) (hin : ∀ x ∈ op.children, x < g.nodes.size)
    (hrun : (plain op shape).runOn g = (.ok id, g')) (hm : g'.node? id = some m)
    (hresolved : m.overload.isSome = true) : m.Spans op.children g'.shapeAt := by
  have hpushed : ∀ c ∈ op.children, ∃ n, (g.push { op, shape }).node? c = some n := by
    intro c hc
    obtain ⟨n, hn⟩ := Graph.exists_node (hin c hc)
    exact ⟨n, Graph.node?_push_of_some hn⟩
  rcases Graph.knownShapes?_cases hpushed with hknown | ⟨hnone, -⟩
  · have hknown' : g.Known op.children := by
      intro c hc
      obtain ⟨n, hn⟩ := Graph.exists_node (hin c hc)
      obtain ⟨k, hk, hshape⟩ := hknown c hc
      rw [Graph.node?_push_of_some hn] at hk
      cases hk
      exact ⟨n, hn, hshape⟩
    rw [runOn_plain op shape hknown'] at hrun
    generalize hn : ({ op, shape } : Node).resolved g.functions (op.children.map g.shapeAt) = n
      at hrun
    cases hrun
    rw [Graph.node?_push_size] at hm
    cases hm
    have hsame : ∀ x ∈ op.children, (g.push m).shapeAt x = g.shapeAt x := by
      intro x hx
      obtain ⟨k, hk, -⟩ := hknown' x hx
      rw [Graph.shapeAt_eq hk, Graph.shapeAt_eq (Graph.node?_push_of_some hk)]
    have hsets : ({ op, shape } : Node).Sets (op.children.map g.shapeAt) m := by
      rw [← hn] at hresolved ⊢
      exact Node.sets_resolved happlies rfl hresolved
    rw [← List.map_congr_left hsame] at hsets
    refine hsets.spans fun x hx => ?_
    obtain ⟨k, hk, hshape⟩ := hknown' x hx
    rw [hsame x hx, Graph.shapeAt_eq hk]
    exact hg x k hk hshape
  · rw [runOn_plain_unknown hnone] at hrun
    cases hrun
    rw [Graph.node?_push_size] at hm
    cases hm
    cases hresolved

/-- Steps of a factory that adds an operator or a call to operands. -/
inductive Applies : Build NodeId → List NodeId → Prop
  | unary (op : UnaryOp) (x : NodeId) : Applies (Build.unary op x) [x]
  | convert (x : NodeId) (target : Kind) : Applies (Build.convert x target) [x]
  | binary (op : BinaryOp) (x y : NodeId) : Applies (Build.binary op x y) [x, y]
  | ternary (op : TernaryOp) (x y z : NodeId) : Applies (Build.ternary op x y z) [x, y, z]
  | call (candidates : List Signature) (arguments : List NodeId) :
    Applies (Build.call candidates arguments) arguments

/-- An operator or a call that a factory adds to nodes of the arena, and resolves, is as
wide as the widest of these nodes; its result is as wide, or has one component if the
operator reduces vectors. What it keeps are the operands up to some place. Unless it is a
call it keeps all of them, and its width is that of the widest operand it keeps exactly if
none that it drops is wider. -/
theorem result_width_of_operands {g g' : Graph} (hmade : g.Made) {steps : Build NodeId}
    {operands : List NodeId} (happlies : Applies steps operands)
    (hin : ∀ x ∈ operands, x < g.nodes.size) {id : NodeId}
    (hrun : steps.runOn g = (.ok id, g')) {m : Node} (hm : g'.node? id = some m)
    (hresolved : m.overload.isSome = true) : m.Spans operands g'.shapeAt := by
  cases happlies with
  | call candidates arguments =>
    unfold Build.call at hrun
    rw [runOn_bind] at hrun
    have hproper := Preserves.mapM function_proper candidates g hmade.proper
    have hsize : ((candidates.mapM function).runOn g).2.nodes = g.nodes :=
      Preserves.mapM (P := fun g' => g'.nodes = g.nodes) function_nodes candidates g rfl
    cases hfirst : (candidates.mapM function).runOn g with
    | mk result g₁ =>
      rw [hfirst] at hrun hproper hsize
      dsimp only at hproper hsize
      cases result with
      | error e => cases hrun
      | ok ids =>
        have hin' : ∀ x ∈ operands, x < g₁.nodes.size := by
          rw [hsize]
          exact hin
        exact plain_spans hproper (.call ids operands) trivial hin' hrun hm hresolved
  | unary op x => exact plain_spans hmade.proper (.unary op x) trivial hin hrun hm hresolved
  | convert x target =>
    exact plain_spans hmade.proper (.unary .convert x) trivial hin hrun hm hresolved
  | binary op x y => exact plain_spans hmade.proper (.binary op x y) trivial hin hrun hm hresolved
  | ternary op x y z =>
    exact plain_spans hmade.proper (.ternary op x y z) trivial hin hrun hm hresolved

namespace Surplus

/-- An integer is read. -/
def scalar : Graph := ((Build.input ⟨"a", .of .int 1⟩).runOn {}).2

/-- A vector of four numbers is read, too. -/
def graph : Graph := ((Build.input ⟨"v", .of .float 4⟩).runOn scalar).2

/-- The graph is made by two factories. -/
theorem made : graph.Made := by
  have hscalar : scalar.Built := .made .empty (.input "a" .int 1) rfl
  exact .of_built (.made hscalar (.input "v" .float 4) rfl)

/-- A function of one number. -/
def ofFloat : Signature := .ofInputs "f" [.float] .float

/-- A function of one integer. -/
def ofInt : Signature := .ofInputs "f" [.int] .int

end Surplus

/-- A function of one number is called with the vector and the integer. The integer is
dropped, and the call is as wide as the vector. -/
theorem result_width_of_operands_call :
    Surplus.graph.Made ∧ (∀ x ∈ [1, 0], x < Surplus.graph.nodes.size) ∧
      Applies (Build.call [Surplus.ofFloat] [1, 0]) [1, 0] ∧
      ∃ g' m, (Build.call [Surplus.ofFloat] [1, 0]).runOn Surplus.graph = (.ok 2, g') ∧
        g'.node? 2 = some m ∧ m.overload.isSome = true ∧ m.children = [1] ∧ m.inputWidth = 4 ∧
        m.Spans [1, 0] g'.shapeAt := by
  let m : Node :=
    { op := .call [0] [1], shape := ⟨.float, 4⟩, inputWidth := 4, overload := some 0 }
  let g' : Graph := ({ Surplus.graph with functions := [Surplus.ofFloat] } : Graph).push m
  have hin : ∀ x ∈ [1, 0], x < Surplus.graph.nodes.size := by decide
  have hrun : (Build.call [Surplus.ofFloat] [1, 0]).runOn Surplus.graph = (.ok 2, g') := by
    decide
  have hm : g'.node? 2 = some m := by decide
  exact ⟨Surplus.made, hin, .call _ _, g', m, hrun, hm, rfl, rfl, rfl,
    result_width_of_operands Surplus.made (.call _ _) hin hrun hm rfl⟩

/-- A function of one integer is called with the integer and the vector. The vector is
dropped, but the call has four components although its only argument has one. -/
theorem call_counts_dropped_argument :
    ∃ g' m, (Build.call [Surplus.ofInt] [0, 1]).runOn Surplus.graph = (.ok 2, g') ∧
      g'.node? 2 = some m ∧ m.overload.isSome = true ∧ m.children = [0] ∧
      widest (m.children.map g'.shapeAt) = 1 ∧ m.inputWidth = 4 ∧ m.shape.width = 4 := by
  let m : Node :=
    { op := .call [0] [0], shape := ⟨.int, 4⟩, inputWidth := 4, overload := some 0 }
  let g' : Graph := ({ Surplus.graph with functions := [Surplus.ofInt] } : Graph).push m
  have hrun : (Build.call [Surplus.ofInt] [0, 1]).runOn Surplus.graph = (.ok 2, g') := by
    decide
  have hm : g'.node? 2 = some m := by decide
  exact ⟨g', m, hrun, hm, rfl, rfl, by decide, rfl, rfl⟩

end LaneGraph
