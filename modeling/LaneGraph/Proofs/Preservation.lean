import LaneGraph.Proofs.Denotation
import LaneGraph.Proofs.Extraction
import LaneGraph.Proofs.Folding

/-!
# Folding and lowering keep values

Both passes are about graphs of scalars. Folding uses laws of integers and booleans,
so it keeps the values of graphs of these over the operations of the program.
Lowering uses no law at all. It writes operators out as they are defined, so it keeps
the values of any graph of scalars over every processor, except for powers and
logarithms.
-/

namespace LaneGraph

open Build

/-- The operation neither selects components nor is it a product of vectors. -/
def Operation.onScalars : Operation → Bool
  | .swizzle _ _ | .binary .dot _ _ | .binary .cross _ _ | .binary .reflect _ _ => false
  | _ => true

/-- The operation is the length of a vector or the unit vector in its direction. -/
def Operation.measures : Operation → Bool
  | .unary .length _ | .unary .normalize _ => true
  | _ => false

namespace Node

variable {functions : List Signature} {n : Node} {shapes : List Shape}

/-- A scalar operator on scalars is narrow, unless it exists for vectors alone. -/
theorem Typed.narrow_of_scalars (h : n.Typed functions shapes) (hwidth : n.shape.width = 1)
    (hshapes : ∀ s ∈ shapes, s.width = 1) (hop : n.op.onScalars = true)
    (hvector : n.op.measures = false) : n.narrow = true := by
  -- The width of operands tells whether a conjunction or disjunction mixes.
  have hjoin : ∀ {op : UnaryOp} {x : NodeId}, n.op = .unary op x → op = .all ∨ op = .any →
      n.inputWidth = 1 := by
    intro op x hcase hlisted
    have hoperates := (typed_unary hcase (by rcases hlisted with rfl | rfl <;> decide)).mp h
    obtain ⟨t, ht, -, rfl, -⟩ := hoperates.exists_type
    have htype : t = uniformType 1 .bool := by
      rcases hlisted with rfl | rfl
      all_goals exact List.mem_singleton.mp ht
    subst htype
    exact hshapes _ List.mem_cons_self
  unfold Node.narrow mixes
  rw [hwidth]
  cases hcase : n.op with
  | unary op x =>
    rw [hcase] at hvector
    cases op
    case length | normalize => cases hvector
    case all => rw [hjoin hcase (.inl rfl)]; rfl
    case any => rw [hjoin hcase (.inr rfl)]; rfl
    all_goals rfl
  | binary op x y =>
    rw [hcase] at hop
    cases op <;> first | rfl | cases hop
  | swizzle components x =>
    rw [hcase] at hop
    cases hop
  | _ => rfl

/-- The result of a call has the kind that the signature of its function names. -/
theorem Typed.answered (h : n.Typed functions shapes) :
    n.answered (LaneGraph.Calls.output functions) = true := by
  unfold Node.answered
  split
  · rename_i candidates arguments hop
    unfold Typed at h
    rw [hop] at h
    obtain ⟨k, id, s, hk, hid, hs, -, -, -, -, -, hshape, -⟩ := h
    rw [hk, Option.bind_some, hid, Option.any_some]
    unfold LaneGraph.Calls.output
    rw [hs, hshape]
    exact beq_self_eq_true _
  · rfl

end Node

namespace Graph

/-- Needed nodes of one component on scalars are narrow, unless their operators exist for
vectors alone. -/
theorem Deduced.narrow {g : Graph} (hg : g.Deduced)
    (hscalar : ∀ id n, g.Needs id → g.node? id = some n →
      n.shape.width = 1 ∧ n.op.onScalars = true ∧ n.op.measures = false)
    {id : NodeId} {n : Node} (hid : g.Needs id) (hn : g.node? id = some n) :
    n.Typed g.functions (n.children.map g.shapeAt) ∧ n.narrow = true := by
  obtain ⟨n', hn', htyped⟩ := hg.typed id hid
  rw [hn] at hn'
  cases hn'
  obtain ⟨hwidth, hop, hvector⟩ := hscalar id n hid hn
  refine ⟨htyped, htyped.narrow_of_scalars hwidth (fun s hs => ?_) hop hvector⟩
  obtain ⟨c, hc, rfl⟩ := List.mem_map.mp hs
  obtain ⟨m, hm, -⟩ := hg.typed c (hid.operand hn hc)
  rw [Graph.shapeAt_eq hm]
  exact (hscalar c m (hid.operand hn hc) hm).1

end Graph

/-- Where values are followed, what the outputs of a stage of scalars depend on has a
value of its kind. -/
theorem Stage.single {t : TypedRules} {A : Interpretation} {g : Graph} {made : List Delivery}
    (h : Stage t.rules g made) (ht : t.Evaluates A) (htracked : t.tracked) {id : NodeId}
    (hid : g.Needs id) : (g.evaluate A.semantics id).Single (g.shapeAt id).kind := by
  obtain ⟨w, hs, hwrites⟩ := h
  have hlive := hs.live_of_needs (fun _ => hwrites.live) hid
  have hvalue := hs.le_evaluate htracked ht.need hlive
  rw [ht.semantics, ht.agreement] at hvalue
  have hvalue : w.value id = g.evaluate A.semantics id := hvalue
  rw [← hvalue]
  exact hs.single ht htracked hlive

/-- It does not matter by how much nodes rank above their operands. -/
theorem TypedRules.Evaluates.staged {t : TypedRules} {A : Interpretation} (h : t.Evaluates A) :
    TypedRules.Evaluates { t with need := fun _ => 1 } A :=
  ⟨h.semantics, h.agreement, h.exact, h.total, fun _ => Nat.le_refl 1, h.narrow, h.calls⟩

/-! ## Folding -/

/-- The values of a graph over the operations of a processor, from what streams hold and
functions return. -/
def Graph.valueOver (P : Processor) (functions : List Signature) (read : Channel → Nat → UInt32)
    (returned : FunctionId → List Scalar → UInt32) (g : Graph) (id : NodeId) : Value :=
  g.evaluate (P.interpretation read (Calls.native functions returned)).semantics id

namespace Folding

variable {g g' : Graph} {read : Channel → Nat → UInt32}
  {returned : FunctionId → List Scalar → UInt32}

/-- A graph of integers and booleans is folded, and its outputs deliver what they did. -/
theorem deduced_ends (hacyclic : g.Acyclic) (hg : g.Deduced)
    (hscalar : ∀ id n, g.Needs id → g.node? id = some n →
      n.shape.width = 1 ∧ (n.shape.kind = .int ∨ n.shape.kind = .bool) ∧ n.op.onScalars = true)
    (hne : g.outputs ≠ []) (read : Channel → Nat → UInt32)
    (returned : FunctionId → List Scalar → UInt32) :
    let t := rulesFor True False
      (Processor.program.interpretation read (Calls.native g.functions returned))
      (integral (Calls.output g.functions)) false
    (∀ id, g.Needs id → (g.evaluate t.semantics id).Single (g.shapeAt id).kind) ∧
      Ends pass.run g (fun _ g' => Stage t.rules g' (g.delivered t.semantics)) fun _ => False := by
  intro t
  have hkind : ∀ id n, g.Needs id → g.node? id = some n → n.shape.kind ≠ .float := by
    intro id n hid hn hfloat
    rcases (hscalar id n hid hn).2.1 with h | h <;> rw [hfloat] at h <;> cases h
  have hstage : Stage t.rules g (g.delivered t.semantics) := by
    refine hg.stage hacyclic (fun h => h) (fun _ => Nat.le_refl 1) fun id n hid hn => ?_
    -- Lengths and unit vectors are numbers.
    have hvector : ∀ id n, g.Needs id → g.node? id = some n → n.op.measures = false := by
      intro id n hid hn
      obtain ⟨m, hm, htyped⟩ := hg.typed id hid
      rw [hn] at hm
      cases hm
      cases hop : n.op with
      | unary op x =>
        cases op
        case length | normalize =>
          obtain ⟨t, ht, -, -, hshape⟩ :=
            ((Node.typed_unary hop (by decide)).mp htyped).exists_type
          cases List.mem_singleton.mp ht
          exact absurd (by rw [hshape]; rfl) (hkind id n hid hn)
        all_goals rfl
      | _ => rfl
    obtain ⟨htyped, hnarrow⟩ := hg.narrow
      (fun id n hid hn => ⟨(hscalar id n hid hn).1, (hscalar id n hid hn).2.2, hvector id n hid hn⟩)
      hid hn
    show (integral (Calls.output g.functions) n.frame && _) = true
    unfold integral
    rw [n.narrow_frame, n.shape_frame, n.answered_frame, hnarrow, htyped.answered,
      decide_eq_true (hkind id n hid hn)]
    rfl
  have hadmits : Admits True False _ (integral (Calls.output g.functions)) :=
    .integral (Calls.native_answers .program read g.functions returned)
  exact ⟨fun id hid => hstage.single (hadmits.evaluates trivial) trivial hid,
    pass_ends_for hadmits hstage (hg.delivered_ne_nil hne _)⟩

end Folding

/-- Folding keeps integers and booleans. Let all nodes that the outputs of a deduced graph
without cycles depend on be scalars of these kinds, and let none of them select components
or multiply vectors. Then folding succeeds, unless there are no outputs, and every output
still writes its stream. Whatever patterns streams hold and functions return, the output
has a value, and it is the same as before. -/
theorem folding_keeps_integers (g : Graph) (hacyclic : g.Acyclic) (hg : g.Deduced)
    (hscalar : ∀ id n, g.Needs id → g.node? id = some n →
      n.shape.width = 1 ∧ (n.shape.kind = .int ∨ n.shape.kind = .bool) ∧ n.op.onScalars = true) :
    ∃ result g', Folding.pass.run.runOn g = (result, g') ∧ (g.outputs ≠ [] → result = .ok ()) ∧
      List.Forall₂ (fun id id' => ∃ channel, g.channelAt id = some channel ∧
          g'.channelAt id' = some channel ∧ ∀ read returned,
            g'.valueOver .program g.functions read returned id' =
              g.valueOver .program g.functions read returned id ∧
            (g.valueOver .program g.functions read returned id).Single (g.shapeAt id).kind)
        g.outputs g'.outputs := by
  by_cases hne : g.outputs = []
  · refine ⟨_, _, Pass.runOn_of_no_outputs _ hne, fun h => absurd hne h, ?_⟩
    rw [hne]
    exact .nil
  have hends := Folding.deduced_ends hacyclic hg hscalar hne
  obtain ⟨_, g', hrun, -⟩ := (hends (fun _ _ => 0) fun _ _ => 0).2.succeeds
  have hkeeps := fun read returned =>
    ((hends read returned).2.of_runOn hrun).keeps hg fun _ => Nat.le_refl 1
  refine ⟨_, g', hrun, fun _ => rfl, ?_⟩
  refine List.forall₂_iff_get.mpr
    ⟨(hkeeps (fun _ _ => 0) fun _ _ => 0).length_eq, fun k hk hk' => ?_⟩
  obtain ⟨channel, hchannel, hchannel'⟩ := ((hkeeps (fun _ _ => 0) fun _ _ => 0).get hk hk').1
  refine ⟨channel, hchannel, hchannel', fun read returned => ⟨?_, ?_⟩⟩
  · exact (((hkeeps read returned).get hk hk').2 trivial).symm
  · exact (hends read returned).1 _ (Graph.needs_of_mem (List.get_mem _ _))

namespace Quotient

/-- An eighth of a number, but at most five. -/
def graph : Graph where
  nodes := #[
    { op := .input ⟨"a", .of .int 1⟩, shape := ⟨.int, 1⟩, inputWidth := 1 },
    { op := .constant (.ofScalar (.int 8)), shape := ⟨.int, 1⟩, inputWidth := 1 },
    { op := .binary .divide 0 1, shape := ⟨.int, 1⟩, overload := some 1, inputWidth := 1 },
    { op := .constant (.ofScalar (.int 5)), shape := ⟨.int, 1⟩, inputWidth := 1 },
    { op := .binary .less 3 2, shape := ⟨.bool, 1⟩, overload := some 1, inputWidth := 1 },
    { op := .ternary .select 4 3 2, shape := ⟨.int, 1⟩, overload := some 1, inputWidth := 1 },
    { op := .output ⟨"r", .of .int 1⟩ 5, shape := ⟨.int, 1⟩, inputWidth := 1 }]
  outputs := [6]
  inputs := [⟨"a", .of .int 1⟩]

/-- Operands stand before their users. -/
theorem acyclic : graph.Acyclic := Graph.acyclic_of_before (by decide)

/-- All types are deduced. -/
theorem deduced : graph.Deduced := Graph.deduced_of_all (by decide) (by decide)

/-- All nodes are scalars of integers and booleans. -/
theorem scalar (id : NodeId) (n : Node) (_ : graph.Needs id) (hn : graph.node? id = some n) :
    n.shape.width = 1 ∧ (n.shape.kind = .int ∨ n.shape.kind = .bool) ∧ n.op.onScalars = true := by
  have hall : ∀ n ∈ graph.nodes, n.shape.width = 1 ∧
      (n.shape.kind = .int ∨ n.shape.kind = .bool) ∧ n.op.onScalars = true := by
    decide
  exact hall n (Array.mem_of_getElem? hn)

end Quotient

/-- A quotient by eight becomes a shift and a comparison is turned around. An eighth of
minus nine is still minus one. -/
theorem folding_keeps_integers_quotient :
    (Quotient.graph.Acyclic ∧ Quotient.graph.Deduced ∧
      ∀ id n, Quotient.graph.Needs id → Quotient.graph.node? id = some n →
        n.shape.width = 1 ∧ (n.shape.kind = .int ∨ n.shape.kind = .bool) ∧
          n.op.onScalars = true) ∧
    ∃ g' output, Folding.pass.run.runOn Quotient.graph = (.ok (), g') ∧ g'.outputs = [output] ∧
      g'.valueOver .program [] (fun _ _ => (-9 : Int32).toUInt32) (fun _ _ => 0) output 0 =
        some (.int (-1)) := by
  refine ⟨⟨Quotient.acyclic, Quotient.deduced, Quotient.scalar⟩, ?_⟩
  obtain ⟨result, g', hrun, hresult, hkeeps⟩ := folding_keeps_integers Quotient.graph
    Quotient.acyclic Quotient.deduced Quotient.scalar
  obtain rfl := hresult (by decide)
  obtain ⟨output, rest, ⟨channel, -, -, hvalue⟩, hrest, houtputs⟩ :=
    List.forall₂_cons_left_iff.mp hkeeps
  cases hrest
  refine ⟨g', output, hrun, houtputs, ?_⟩
  rw [show ([] : List Signature) = Quotient.graph.functions from rfl, (hvalue _ _).1]
  decide

/-! ## Lowering -/

namespace Lowering

variable {g g' : Graph}

/-- The rules under which a graph of scalars is lowered and its values are followed. -/
def followed (E : Environment) (functions : List Signature) : TypedRules :=
  { rulesFor True False E.interpretation (answering (Calls.output functions)) with
    need := fun _ => 1 }

/-- A deduced graph of scalars follows these rules. -/
theorem deduced_sound (hacyclic : g.Acyclic) (hg : g.Deduced)
    (hscalar : ∀ id n, g.Needs id → g.node? id = some n →
      n.shape.width = 1 ∧ n.op.onScalars = true ∧ n.op.measures = false) (E : Environment) :
    Sound (followed E g.functions).rules g (g.world E.interpretation.semantics) := by
  refine hg.sound (t := followed E g.functions) hacyclic (fun h => h) (fun _ => Nat.le_refl 1)
    fun id n hid hn => ?_
  obtain ⟨htyped, hnarrow⟩ := hg.narrow hscalar hid hn
  show answering (Calls.output g.functions) n.frame = true
  unfold answering
  rw [n.narrow_frame, n.answered_frame, hnarrow, htyped.answered]
  rfl

/-- Functions return what their signatures name. -/
theorem native_admits {simple : Prop} (P : Processor) (read : Channel → Nat → UInt32)
    (functions : List Signature) (returned : FunctionId → List Scalar → UInt32) :
    Admits True simple ⟨P, read, Calls.native functions returned⟩
      (answering (Calls.output functions)) :=
  .answering (Calls.native_answers P read functions returned)

/-- The values of a deduced graph of scalars are there. -/
theorem deduced_single (hacyclic : g.Acyclic) (hg : g.Deduced)
    (hscalar : ∀ id n, g.Needs id → g.node? id = some n →
      n.shape.width = 1 ∧ n.op.onScalars = true ∧ n.op.measures = false) (P : Processor)
    (read : Channel → Nat → UInt32) (returned : FunctionId → List Scalar → UInt32) {id : NodeId}
    (hid : g.Needs id) :
    (g.valueOver P g.functions read returned id).Single (g.shapeAt id).kind :=
  (deduced_sound hacyclic hg hscalar _).single
    ((native_admits P read g.functions returned).evaluates trivial).staged trivial hid

/-- A graph of scalars is lowered, and its outputs deliver what they did, if powers and
logarithms are lowered to their values. -/
theorem deduced_ends (hacyclic : g.Acyclic) (hg : g.Deduced)
    (hscalar : ∀ id n, g.Needs id → g.node? id = some n →
      n.shape.width = 1 ∧ n.op.onScalars = true ∧ n.op.measures = false)
    (hne : g.outputs ≠ []) (P : Processor) (read : Channel → Nat → UInt32)
    (returned : FunctionId → List Scalar → UInt32)
    (hpower : ∀ id n, g.Needs id → g.node? id = some n →
      let A := P.interpretation read (Calls.native g.functions returned)
      let values := n.children.map (g.valueOver P g.functions read returned)
      written A n (n.children.map g.literalAt) values = A.component n values 0) :
    let E : Environment := ⟨P, read, Calls.native g.functions returned⟩
    let form := answering (Calls.output g.functions)
    Ends pass.run g (fun _ g' => Stage ((followed E g.functions).staged
      fun n shapes => form n && n.encodable shapes) g' (g.delivered E.interpretation.semantics))
      fun _ => False := by
  intro E form
  exact pass_keeps (native_admits P read g.functions returned)
    (deduced_sound hacyclic hg hscalar E) (hg.writes (followed E g.functions)) (fun _ => hpower)
    (hg.delivered_ne_nil hne _)

end Lowering

/-- Lowering writes operators out as they are defined. Let all nodes that the outputs of a
deduced graph without cycles depend on be scalars, and let none of them be a power, a
logarithm or an operator on vectors. If there are outputs, lowering succeeds. Every node
that they depend on then has an instruction and is no constructor, and every output still
writes its stream. Over every processor, whatever patterns streams hold and functions
return, the output has a value, and it is the same as before. -/
theorem lowering_keeps_values (g : Graph) (hacyclic : g.Acyclic) (hg : g.Deduced)
    (hscalar : ∀ id n, g.Needs id → g.node? id = some n →
      n.shape.width = 1 ∧ n.op.onScalars = true ∧ n.op.measures = false)
    (hpower : ∀ id n, g.Needs id → g.node? id = some n → n.isPower = false)
    (hne : g.outputs ≠ []) :
    ∃ g', Lowering.pass.run.runOn g = (.ok (), g') ∧
      (∀ id, g'.Needs id → ∃ n, g'.node? id = some n ∧
        n.encodable (n.children.map g'.shapeAt) = true ∧
        ∀ arguments, n.op ≠ .construct arguments) ∧
      List.Forall₂ (fun id id' => ∃ channel, g.channelAt id = some channel ∧
          g'.channelAt id' = some channel ∧ ∀ P read returned,
            g'.valueOver P g.functions read returned id' =
              g.valueOver P g.functions read returned id ∧
            (g.valueOver P g.functions read returned id).Single (g.shapeAt id).kind)
        g.outputs g'.outputs := by
  have hends := fun P read returned => Lowering.deduced_ends hacyclic hg hscalar hne P read returned
    fun id n hid hn => Lowering.written_of_not_power (hpower id n hid hn) _ _
  obtain ⟨_, g', hrun, hstage⟩ := (hends .program (fun _ _ => 0) fun _ _ => 0).succeeds
  have hkeeps := fun P read returned =>
    ((hends P read returned).of_runOn hrun).keeps hg fun _ => Nat.le_refl 1
  refine ⟨g', hrun, fun id hid => ?_, ?_⟩
  · obtain ⟨n, hn, -, hform⟩ := hstage.typed hid trivial
    have hencodable := (Bool.and_eq_true_iff.mp hform).2
    rw [n.encodable_frame] at hencodable
    refine ⟨n, hn, hencodable, fun arguments hop => ?_⟩
    unfold Node.encodable at hencodable
    rw [hop] at hencodable
    cases hencodable
  refine List.forall₂_iff_get.mpr
    ⟨(hkeeps .program (fun _ _ => 0) fun _ _ => 0).length_eq, fun k hk hk' => ?_⟩
  obtain ⟨channel, hchannel, hchannel'⟩ :=
    ((hkeeps .program (fun _ _ => 0) fun _ _ => 0).get hk hk').1
  refine ⟨channel, hchannel, hchannel', fun P read returned => ⟨?_, ?_⟩⟩
  · exact (((hkeeps P read returned).get hk hk').2 trivial).symm
  · exact Lowering.deduced_single hacyclic hg hscalar P read returned
      (Graph.needs_of_mem (List.get_mem _ _))

namespace Remainder

/-- One if a number is not a multiple of four, or else zero, as a number with a fraction,
which is clamped. -/
def graph : Graph where
  nodes := #[
    { op := .input ⟨"a", .of .int 1⟩, shape := ⟨.int, 1⟩, inputWidth := 1 },
    { op := .constant (.ofScalar (.int 4)), shape := ⟨.int, 1⟩, inputWidth := 1 },
    { op := .binary .modulo 0 1, shape := ⟨.int, 1⟩, overload := some 1, inputWidth := 1 },
    { op := .unary .convert 2, shape := ⟨.bool, 1⟩, overload := some 0, inputWidth := 1 },
    { op := .construct [3], shape := ⟨.bool, 1⟩, overload := some 0, inputWidth := 1 },
    { op := .unary .convert 4, shape := ⟨.float, 1⟩, overload := some 0, inputWidth := 1 },
    { op := .unary .saturate 5, shape := ⟨.float, 1⟩, overload := some 0, inputWidth := 1 },
    { op := .output ⟨"r", .of .float 1⟩ 6, shape := ⟨.float, 1⟩, inputWidth := 1 }]
  outputs := [7]
  inputs := [⟨"a", .of .int 1⟩]

/-- Operands stand before their users. -/
theorem acyclic : graph.Acyclic := Graph.acyclic_of_before (by decide)

/-- All types are deduced. -/
theorem deduced : graph.Deduced := Graph.deduced_of_all (by decide) (by decide)

/-- All nodes are scalars, and no operator exists for vectors alone. -/
theorem scalar (id : NodeId) (n : Node) (_ : graph.Needs id) (hn : graph.node? id = some n) :
    n.shape.width = 1 ∧ n.op.onScalars = true ∧ n.op.measures = false := by
  have hall : ∀ n ∈ graph.nodes,
      n.shape.width = 1 ∧ n.op.onScalars = true ∧ n.op.measures = false := by
    decide
  exact hall n (Array.mem_of_getElem? hn)

/-- There is neither a power nor a logarithm. -/
theorem powerless (id : NodeId) (n : Node) (_ : graph.Needs id) (hn : graph.node? id = some n) :
    n.isPower = false := by
  have hall : ∀ n ∈ graph.nodes, n.isPower = false := by decide
  exact hall n (Array.mem_of_getElem? hn)

end Remainder

/-- A remainder, two conversions and a clamp are lowered, and the constructor in between is
dropped. Six is still no multiple of four. -/
theorem lowering_keeps_values_remainder :
    (Remainder.graph.Acyclic ∧ Remainder.graph.Deduced ∧
      (∀ id n, Remainder.graph.Needs id → Remainder.graph.node? id = some n →
        n.shape.width = 1 ∧ n.op.onScalars = true ∧ n.op.measures = false) ∧
      (∀ id n, Remainder.graph.Needs id → Remainder.graph.node? id = some n →
        n.isPower = false) ∧ Remainder.graph.outputs ≠ []) ∧
    ∃ g' output, Lowering.pass.run.runOn Remainder.graph = (.ok (), g') ∧ g'.outputs = [output] ∧
      g'.valueOver .program [] (fun _ _ => 6) (fun _ _ => 0) output 0 = some (.float 1) := by
  have hne : Remainder.graph.outputs ≠ [] := by decide
  refine ⟨⟨Remainder.acyclic, Remainder.deduced, Remainder.scalar, Remainder.powerless, hne⟩, ?_⟩
  obtain ⟨g', hrun, -, hkeeps⟩ := lowering_keeps_values Remainder.graph Remainder.acyclic
    Remainder.deduced Remainder.scalar Remainder.powerless hne
  obtain ⟨output, rest, ⟨channel, -, -, hvalue⟩, hrest, houtputs⟩ :=
    List.forall₂_cons_left_iff.mp hkeeps
  cases hrest
  refine ⟨g', output, hrun, houtputs, ?_⟩
  rw [show ([] : List Signature) = Remainder.graph.functions from rfl, (hvalue _ _ _).1]
  decide

end LaneGraph
