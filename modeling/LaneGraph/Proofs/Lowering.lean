import LaneGraph.Proofs.Spelling

/-!
# Operators without instructions are lowered

A node of which nothing is left to lower is either a literal, a stream, a call or an
operator with an instruction for the kinds it is used with. Values are kept, except
where powers and logarithms differ from what they are lowered to. Lowering keeps the
values of graphs in which this leads to the same.
-/

namespace LaneGraph

open Build

namespace Lowering

/-- Operators with one operand that have an instruction for all their types. -/
theorem unary_encodable : ∀ op ∈ [UnaryOp.absolute, .sqrt, .exp, .ln, .log2, .log10, .sin, .cos,
      .tan, .asin, .acos, .atan, .round, .floor, .ceil, .trunc, .bitwiseNot, .logicalNot],
    ∀ t ∈ op.types, (op.laneFunction? (t.operands.getD 0 .unknown) t.result).isSome = true := by
  decide

/-- Operators with two operands that have an instruction for all their types. -/
theorem binary_encodable : ∀ op ∈ [BinaryOp.add, .subtract, .multiply, .divide, .min, .max,
      .shiftLeft, .shiftRight, .bitwiseAnd, .bitwiseXor, .bitwiseOr, .equal, .notEqual, .less,
      .lessEqual, .greater, .greaterEqual, .logicalAnd, .logicalOr],
    ∀ t ∈ op.types, (op.laneOperation? (t.operands.getD 0 .unknown)).isSome = true := by
  decide

section

variable {tracked simple : Prop} {E : Environment} {form : Node → Bool} {g : Graph} {w : World}
  {id : NodeId} {n : Node} {refused : GraphError → Prop}

/-- What is achieved for a node: it has an instruction, or it is lowered. No powers and
logarithms are added. -/
abbrev Lowers (tracked simple : Prop) (E : Environment) (form : Node → Bool) (g : Graph) (w : World)
    (id : NodeId) (n : Node) (new : NodeId) (g' : Graph) : Prop :=
  Steps (rulesFor tracked simple E.interpretation form).rules (fun _ => 0)
    (fun n shapes => n.encodable shapes = true) g w id n new g' ∧
  ∀ id m, g'.node? id = some m → m.isPower = true → g.node? id = some m

/-- There is room below every node. -/
theorem need_pos (op : Operation) : 1 ≤ need op := by
  unfold need
  split <;> omega

/-- What an operator is lowered to is less than sixteen levels deep. -/
theorem need_le (op : Operation) : need op ≤ 16 := by
  unfold need
  split <;> omega

/-- Where values are followed, all of them are there. -/
theorem Admits.evaluates (h : Admits tracked simple E form) (htracked : tracked) :
    (rulesFor tracked simple E.interpretation form).Evaluates E.interpretation where
  semantics := rfl
  agreement := rfl
  exact := trivial
  total := Processor.total
  need := need_pos
  narrow n _ := h.narrow n
  calls := by
    refine (h.followed htracked).imp id ?_
    rintro ⟨outputs, hanswers, hanswered⟩
    exact ⟨outputs, hanswers, fun n _ => hanswered n⟩

/-! ## Powers and logarithms -/

/-- What a node is lowered to, given the literals among its operands. Only powers and
logarithms differ from their values. -/
def written (A : Interpretation) (n : Node) (literals : List (Option Scalar)) (values : List Value) :
    Option Scalar :=
  let x := values.getD 0 Value.absent 0
  let y := values.getD 1 Value.absent 0
  match n.op with
  | .binary .pow _ _ =>
    powValue A n.shape.kind (literals.getD 0 none) (literals.getD 1 none) x y
  | .binary .log _ _ => logValue A (literals.getD 0 none) x y
  | _ => A.component n values 0

/-- What is neither a power nor a logarithm is lowered to its value. -/
theorem written_of_not_power {A : Interpretation} (h : n.isPower = false)
    (literals : List (Option Scalar)) (values : List Value) :
    written A n literals values = A.component n values 0 := by
  unfold Node.isPower at h
  unfold written
  split
  case h_1 hop | h_2 hop =>
    rw [hop] at h
    cases h
  case h_3 => rfl

/-- What a power is lowered to. -/
theorem written_pow {a b : NodeId} (hop : n.op = .binary .pow a b) (A : Interpretation)
    (literalAt : NodeId → Option Scalar) (value : NodeId → Value) :
    written A n (n.children.map literalAt) (n.children.map value) =
      powValue A n.shape.kind (literalAt a) (literalAt b) (value a 0) (value b 0) := by
  unfold written Node.children
  rw [hop]
  rfl

/-- What a logarithm is lowered to. -/
theorem written_log {a b : NodeId} (hop : n.op = .binary .log a b) (A : Interpretation)
    (literalAt : NodeId → Option Scalar) (value : NodeId → Value) :
    written A n (n.children.map literalAt) (n.children.map value) =
      logValue A (literalAt a) (value a 0) (value b 0) := by
  unfold written Node.children
  rw [hop]
  rfl

/-- All nodes that matter are lowered to their values. -/
def Followed (A : Interpretation) (g : Graph) (w : World) : Prop :=
  ∀ id n, w.live id → g.node? id = some n →
    written A n (n.children.map g.literalAt) (n.children.map w.value) =
      A.component n (n.children.map w.value) 0

/-- That nodes are lowered to their values stays when nodes are added, none of them a
power or a logarithm. -/
theorem Followed.extends {A : Interpretation} {R : Rules} {g' : Graph} {w' : World}
    (h : Followed A g w) (hs : Sound R g w) (hext : Extends g w g' w')
    (hadded : ∀ id m, g'.node? id = some m → m.isPower = true → g.node? id = some m) :
    Followed A g' w' := by
  intro id n hid hn
  cases hpower : n.isPower with
  | false => exact written_of_not_power hpower _ _
  | true =>
    have hold := hadded id n hn hpower
    have hlive : w.live id := by
      refine (hext.fresh id hid).resolve_right fun hle => ?_
      exact Nat.not_le_of_gt (Graph.lt_size hold) hle
    have hchildren := (hs.nodeSound hlive hold).live
    have hvalues : n.children.map w'.value = n.children.map w.value :=
      List.map_congr_left fun c hc => hext.value c (hchildren c hc)
    have hliterals : n.children.map g'.literalAt = n.children.map g.literalAt := by
      refine List.map_congr_left fun c hc => ?_
      obtain ⟨m, hm⟩ := hs.node (hchildren c hc)
      rw [Graph.literalAt_eq hm, Graph.literalAt_eq (hext.nodes c m hm)]
    rw [hvalues, hliterals]
    exact h id n hlive hold

/-- That nodes are lowered to their values stays when operands of a node with an
instruction are exchanged. -/
theorem Followed.exchange {A : Interpretation} {n' : Node} {shapes : List Shape}
    (h : Followed A g w) (hn : g.node? id = some n) (hencodable : n.frame.encodable shapes = true)
    (hframe : n'.frame = n.frame) : Followed A (g.setNode id n') w := by
  have hliterals : (g.setNode id n').literalAt = g.literalAt := by
    funext c
    by_cases hc : c = id
    · rw [hc, Graph.literalAt_eq (Graph.node?_setNode_self n' hn), Graph.literalAt_eq hn,
        ← n'.scalar?_frame, hframe, n.scalar?_frame]
    · unfold Graph.literalAt
      rw [Graph.node?_setNode_of_ne n' hc]
  intro x m hx hm
  rw [hliterals]
  by_cases hxid : x = id
  · subst hxid
    rw [Graph.node?_setNode_self n' hn] at hm
    cases hm
    refine written_of_not_power ?_ _ _
    rw [← n'.isPower_frame, hframe]
    exact Node.not_power_of_encodable hencodable
  · rw [Graph.node?_setNode_of_ne n' hxid] at hm
    exact h x m hx hm

/-- Without powers and logarithms all nodes are lowered to their values. -/
theorem Followed.of_powerless {A : Interpretation}
    (h : ∀ id n, w.live id → g.node? id = some n → n.isPower = false) : Followed A g w :=
  fun id n hid hn => written_of_not_power (h id n hid hn) _ _

/-- What is known of a node that is to be lowered. -/
theorem Admits.known (hadmits : Admits tracked simple E form)
    (hs : Sound (rulesFor tracked simple E.interpretation form).rules g w) (hid : w.live id)
    (hn : g.node? id = some n) :
    n.Typed g.functions (n.children.map g.shapeAt) ∧ form n = true ∧
      (simple → n.plain = true) ∧
      (tracked → List.Forall₂ (fun v s => v.Single s.kind) (n.children.map w.value)
        (n.children.map g.shapeAt)) ∧
      (simple → ∀ c ∈ n.children, (g.shapeAt c).kind ≠ .float) := by
  have hsound := hs.nodeSound hid hn
  obtain ⟨-, hformed, hplain⟩ := hsound.fits
  refine ⟨hsound.typed trivial, hadmits.frame n ▸ hformed, fun h => n.plain_frame ▸ hplain h,
    fun h => ?_, fun h c hc => hs.kind_ne_float h (hsound.live c hc)⟩
  rw [List.forall₂_map_left_iff, List.forall₂_map_right_iff, List.forall₂_same]
  intro c hc
  exact hs.single (hadmits.evaluates h) h (hsound.live c hc)

/-- A node with an instruction stays. -/
theorem stays (hs : Sound (rulesFor tracked simple E.interpretation form).rules g w)
    (h : n.encodable (n.children.map g.shapeAt) = true) :
    Lowers tracked simple E form g w id n id g :=
  ⟨Steps.stay hs (n.encodable_frame _ ▸ h), fun _ _ hm _ => hm⟩

/-- The first kind of scalar shapes. -/
theorem kind_shapesOf (kinds : List Kind) :
    ((shapesOf kinds 1).getD 0 Shape.unknown).kind = kinds.getD 0 .unknown := by
  cases kinds <;> rfl

/-- The operand of a node with one operand takes its place if it has the same shape
and value. -/
theorem operand_lowers (hadmits : Admits tracked simple E form)
    (hs : Sound (rulesFor tracked simple E.interpretation form).rules g w) (hid : w.live id)
    (hn : g.node? id = some n) (hnarrow : n.narrow = true) (hchannel : n.channel? = none)
    {a : NodeId} (hchildren : n.children = [a]) (hshape : g.shapeAt a = n.shape)
    (hvalue : ∀ s, w.value a 0 = some s → s.kind = n.shape.kind →
      E.interpretation.component n [w.value a] 0 = some s) :
    Lowers tracked simple E form g w id n a g := by
  have hmem : a ∈ n.children := by
    rw [hchildren]
    exact List.mem_singleton_self a
  refine ⟨Steps.operand hs hid hn need_pos hmem hshape (fun h k hk => ?_) hchannel, fun _ _ hm _ => hm⟩
  refine Eq.trans ?_ (if_pos hk).symm
  rw [Node.width_of_narrow hnarrow] at hk
  obtain ⟨s, hs, hkind⟩ := hs.single (hadmits.evaluates h) h ((hs.nodeSound hid hn).live a hmem)
  rw [Nat.lt_one_iff.mp hk, hchildren, hs]
  exact (hvalue s hs (by rw [← hshape]; exact hkind)).symm

/-- An expansion takes the place of a node. -/
theorem moves (hs : Sound (rulesFor tracked simple E.interpretation form).rules g w) (hid : w.live id)
    (hn : g.node? id = some n) {ids : List NodeId} {shapes : List Shape} {lines : List Line}
    (hchildren : n.children = ids) (hshapes : n.children.map g.shapeAt = shapes)
    (h : Spells (rulesFor tracked simple E.interpretation form) n shapes (ids.map w.value) lines) :
    Ends (Line.make ids lines) g (Lowers tracked simple E form g w id n) refused := by
  subst hchildren hshapes
  obtain ⟨ns, hns, -⟩ := h.result (by rw [List.length_map, List.length_map])
  have hadds : Ends (Line.make n.children lines) g (fun _ g' => ∀ id m, g'.node? id = some m →
      g.node? id = some m ∨ m.frame ∈ ns) refused :=
    Line.make_adds (fun c hc => hs.node ((hs.nodeSound hid hn).live c hc)) hns
  refine (h.moved hs hid hn).and (hadds.mono fun _ g' hadded id m hm hpower => ?_)
  refine (hadded id m hm).resolve_right fun hnew => ?_
  rw [← m.isPower_frame, h.powerless ns hns m.frame hnew] at hpower
  cases hpower

/-- A kind that is known is a number or boolean. -/
theorem float_or_int {kind : Kind} (hknown : kind ≠ .unknown) (hbool : kind ≠ .bool) :
    kind = .float ∨ kind = .int := by
  cases kind with
  | float => exact .inl rfl
  | int => exact .inr rfl
  | bool => exact absurd rfl hbool
  | unknown => exact absurd rfl hknown

/-- A conversion is lowered. -/
theorem convert_ends (hadmits : Admits tracked simple E form)
    (hs : Sound (rulesFor tracked simple E.interpretation form).rules g w) (hid : w.live id)
    (hn : g.node? id = some n) {a : NodeId} (hop : n.op = .unary .convert a) :
    Ends (lowerUnary id n.shape.kind .convert a) g (Lowers tracked simple E form g w id n) refused := by
  obtain ⟨htyped, hformed, hplain, hvalues, hkinds⟩ := hadmits.known hs hid hn
  have hnarrow := hadmits.narrow n hformed
  have hchildren : n.children = [a] := by
    unfold Node.children
    rw [hop]
    rfl
  have hmem : a ∈ n.children := by
    rw [hchildren]
    exact List.mem_singleton_self a
  obtain ⟨m, hm⟩ := hs.node ((hs.nodeSound hid hn).live a hmem)
  have hshapes : n.children.map g.shapeAt = [m.shape] := by
    rw [hchildren, List.map_singleton, Graph.shapeAt_eq hm]
  rw [hshapes] at htyped hvalues
  unfold Node.Typed at htyped
  rw [hop] at htyped
  obtain ⟨s, hsame, hsized, hknown, hwidth, -⟩ := htyped
  obtain rfl : m.shape = s := List.singleton_inj.mp hsame
  have hone := Node.width_of_narrow hnarrow
  have hscalar : n.shape = ⟨n.shape.kind, 1⟩ := by rw [← hone]
  have hsource : m.shape = ⟨m.shape.kind, 1⟩ := by rw [← hone, hwidth]
  have hx : tracked → (w.value a).Single m.shape.kind := by
    intro h
    have hsingle := hvalues h
    rw [hchildren] at hsingle
    cases hsingle with
    | cons hx _ => exact hx
  have hint : simple → m.shape.kind ≠ .float := by
    intro h
    rw [← Graph.shapeAt_eq hm]
    exact hkinds h a hmem
  have hresult : simple → n.shape.kind ≠ .float := by
    intro h hfloat
    have hn := hplain h
    unfold Node.plain at hn
    rw [hfloat] at hn
    simp at hn
  unfold lowerUnary
  rw [ends_bind, ends_kindOf hm]
  split_ifs with hequal hbool hfrom
  · -- Nothing is to be converted.
    have hchannel : n.channel? = none := by
      unfold Node.channel?
      rw [hop]
    refine operand_lowers hadmits hs hid hn hnarrow hchannel hchildren ?_ ?_
    · rw [Graph.shapeAt_eq hm, hsource, hequal, ← hscalar]
    · intro s hs hkind
      rw [Node.unary_component hop hnarrow, hs, ← hkind]
      cases s <;> rfl
  · have hnumber := float_or_int hsized.known (hbool ▸ hequal)
    have hexpands := toBool_spells hadmits hnarrow hop (hbool ▸ hscalar) hnumber
      (fun h => hnumber.resolve_left (hint h)) hx
    rw [← hsource] at hexpands
    have hmoves : Ends (Line.make [a] (toBoolLines m.shape.kind)) g (Lowers tracked simple E form g w id n)
        refused :=
      moves hs hid hn hchildren hshapes hexpands
    simpa [toBoolLines, zero_eq, Line.make, Line.run, Line.build] using hmoves
  · have hnumber := float_or_int hknown hbool
    have hexpands := ofBool_spells hadmits hnarrow hop hscalar hnumber
      (fun h => hnumber.resolve_left (hresult h)) (hfrom ▸ hx)
    rw [← hfrom, ← hsource] at hexpands
    have hmoves : Ends (Line.make [a] (ofBoolLines n.shape.kind)) g (Lowers tracked simple E form g w id n)
        refused :=
      moves hs hid hn hchildren hshapes hexpands
    simpa [ofBoolLines, zero_eq, one_eq, Line.make, Line.run, Line.build] using hmoves
  · refine stays hs ?_
    unfold Node.encodable
    rw [hop, hshapes]
    have htarget := float_or_int hknown hbool
    rcases float_or_int hsized.known hfrom with hkind | hkind
    · rw [hkind] at hequal
      have hother := htarget.resolve_left (Ne.symm hequal)
      rw [List.getD_cons_zero, hkind, hother]
      rfl
    · rw [hkind] at hequal
      have hother := htarget.resolve_right (Ne.symm hequal)
      rw [List.getD_cons_zero, hkind, hother]
      rfl

/-- An operator with one operand is lowered. -/
theorem unary_ends (hadmits : Admits tracked simple E form)
    (hs : Sound (rulesFor tracked simple E.interpretation form).rules g w) (hid : w.live id)
    (hn : g.node? id = some n) {op : UnaryOp} {a : NodeId} (hop : n.op = .unary op a) :
    Ends (lowerUnary id n.shape.kind op a) g (Lowers tracked simple E form g w id n) refused := by
  by_cases hconvert : op = .convert
  · subst hconvert
    exact convert_ends hadmits hs hid hn hop
  obtain ⟨htyped, hformed, hplain, hvalues, hkinds⟩ := hadmits.known hs hid hn
  have hnarrow := hadmits.narrow n hformed
  have hchildren : n.children = [a] := by
    unfold Node.children
    rw [hop]
    rfl
  have hoperates := (Node.typed_unary hop hconvert).mp htyped
  have hone := Node.unary_inputWidth hop hnarrow hoperates
  obtain ⟨t, ht, hshapes, hscalar⟩ := exists_type hoperates hone
  have hencodable : (op.laneFunction? (t.operands.getD 0 .unknown) t.result).isSome = true →
      Lowers tracked simple E form g w id n id g := by
    intro h
    refine stays hs ?_
    unfold Node.encodable
    rw [hop, hshapes, hscalar]
    dsimp only
    rw [kind_shapesOf]
    exact h
  by_cases hlisted : op ∈ [.negate, .saturate, .radToDeg, .degToRad, .frac] ∨
      op = .pow2 ∧ n.shape.kind = .int
  · rw [lowerUnary_eq id a n.shape.kind hlisted]
    exact moves hs hid hn hchildren rfl
      (unary_spells hadmits hplain hnarrow hop hone hoperates
        (by rw [hchildren] at hvalues ⊢; exact hvalues) hlisted)
  · rw [not_or] at hlisted
    have hnotAlone := Node.unary_of_narrow hop hnarrow
    cases op
    case length => exact absurd rfl hnotAlone.1
    case normalize => exact absurd rfl hnotAlone.2
    case convert => exact absurd rfl hconvert
    case negate | saturate | radToDeg | degToRad | frac => exact absurd (by decide) hlisted.1
    case pow2 =>
      have hfloat : ¬n.shape.kind = .int := fun h => hlisted.2 ⟨rfl, h⟩
      unfold lowerUnary
      rw [if_neg hfloat]
      refine hencodable ?_
      rw [hscalar] at hfloat
      rcases List.mem_pair.mp ht with rfl | rfl
      · rfl
      · exact absurd rfl hfloat
    case all | any =>
      cases List.mem_singleton.mp ht
      rw [hchildren] at hshapes
      refine operand_lowers hadmits hs hid hn hnarrow (by unfold Node.channel?; rw [hop])
        hchildren (by rw [hscalar]; exact List.singleton_inj.mp hshapes) ?_
      intro s hs hkind
      rw [Node.unary_component hop hnarrow, hs]
      rw [hscalar] at hkind
      cases s with
      | bool v => rfl
      | int | float => cases hkind
    all_goals exact hencodable (unary_encodable _ (by decide) t ht)

/-- The operands of a remainder or a power have the shape of the node. -/
theorem uniform_operands {op : BinaryOp} {a b : NodeId} {functions : List Signature}
    (hmem : op ∈ [.modulo, .pow]) (hop : n.op = .binary op a b) (hnarrow : n.narrow = true)
    (htyped : n.Typed functions (n.children.map g.shapeAt)) :
    g.shapeAt a = n.shape ∧ g.shapeAt b = n.shape ∧
      (n.shape.kind = .float ∨ n.shape.kind = .int) := by
  have huniform : ∀ op ∈ [BinaryOp.modulo, .pow], ∀ t ∈ op.types,
      t.operands = [t.result, t.result] ∧ (t.result = .float ∨ t.result = .int) := by
    decide
  have hoperates := (Node.typed_binary hop).mp htyped
  obtain ⟨t, ht, hshapes, hscalar⟩ :=
    exists_type hoperates (Node.binary_inputWidth hop hnarrow hoperates)
  obtain ⟨hoperands, hkind⟩ := huniform op hmem t ht
  have hchildren : n.children = [a, b] := by
    unfold Node.children
    rw [hop]
    rfl
  rw [hchildren, hoperands] at hshapes
  obtain ⟨hleft, hrest⟩ := List.cons.inj hshapes
  rw [hscalar]
  exact ⟨hleft, List.singleton_inj.mp hrest, hkind⟩

/-- The steps of a typed power are its lines, or its base is the result. -/
theorem ends_pow {a b : NodeId} {ma mb : Node} {functions : List Signature}
    {post : NodeId → Graph → Prop} (hma : g.node? a = some ma) (hmb : g.node? b = some mb)
    (hop : n.op = .binary .pow a b) (hnarrow : n.narrow = true)
    (htyped : n.Typed functions (n.children.map g.shapeAt)) :
    Ends (lowerPow n.shape.kind a b) g post refused ↔
      match powerLines? n.shape.kind (g.literalAt a) (g.literalAt b) with
      | some lines => Ends (Line.make [a, b] lines) g post refused
      | none => post a g := by
  obtain ⟨hleft, hright, hkind⟩ := uniform_operands (by decide) hop hnarrow htyped
  rw [Graph.literalAt_eq hma, Graph.literalAt_eq hmb]
  exact ends_lowerPow hma hmb (by rw [← Graph.shapeAt_eq hma, hleft])
    (by rw [← Graph.shapeAt_eq hmb, hright]) hkind

/-- An operator with two operands is lowered. -/
theorem binary_ends (hadmits : Admits tracked simple E form)
    (hs : Sound (rulesFor tracked simple E.interpretation form).rules g w) (hid : w.live id)
    (hn : g.node? id = some n) {op : BinaryOp} {a b : NodeId} (hop : n.op = .binary op a b)
    (hfollowed : tracked → Followed E.interpretation g w) :
    Ends (lowerBinary id n.shape.kind op a b) g (Lowers tracked simple E form g w id n) refused := by
  obtain ⟨htyped, hformed, hplain, hvalues, -⟩ := hadmits.known hs hid hn
  have hnarrow := hadmits.narrow n hformed
  have hchildren : n.children = [a, b] := by
    unfold Node.children
    rw [hop]
    rfl
  have hoperates := (Node.typed_binary hop).mp htyped
  have hone := Node.binary_inputWidth hop hnarrow hoperates
  obtain ⟨t, ht, hshapes, hscalar⟩ := exists_type hoperates hone
  have hlive := (hs.nodeSound hid hn).live
  rw [hchildren] at hlive
  obtain ⟨ma, hma⟩ := hs.node (hlive a List.mem_cons_self)
  obtain ⟨mb, hmb⟩ := hs.node (hlive b (List.mem_cons_of_mem _ List.mem_cons_self))
  have hencodable : (op.laneOperation? (t.operands.getD 0 .unknown)).isSome = true →
      Lowers tracked simple E form g w id n id g := by
    intro h
    refine stays hs ?_
    unfold Node.encodable
    rw [hop, hshapes]
    dsimp only
    rw [kind_shapesOf]
    exact h
  have hnotAlone := Node.binary_of_narrow hop hnarrow
  cases op
  case modulo =>
    obtain ⟨hleft, hright, hkind⟩ := uniform_operands (by decide) hop hnarrow htyped
    have hwidth : n.shape = ⟨n.shape.kind, 1⟩ := by rw [hscalar]
    rw [ends_modulo (hleft.trans hwidth) (hright.trans hwidth) hkind]
    exact moves hs hid hn hchildren rfl (modulo_spells hadmits hplain hnarrow hop hone hoperates
      (by rw [hchildren] at hvalues ⊢; exact hvalues))
  case log =>
    have hwritten : tracked → logValue E.interpretation (g.literalAt a) (w.value a 0) (w.value b 0) =
        E.interpretation.binary .log (w.value a 0) (w.value b 0) := by
      intro htrack
      rw [← written_log hop, hfollowed htrack id n hid hn, hchildren]
      exact Node.binary_component hop hnarrow
    have hsimple : ¬simple := not_simple (a := a) (b := b) hplain (.inl (by
      cases List.mem_singleton.mp ht
      rw [hscalar]
      rfl))
    unfold lowerBinary
    rw [ends_lowerLog hma, ← Graph.literalAt_eq hma]
    exact moves hs hid hn hchildren rfl
      (log_spells hadmits hsimple hnarrow hop hone hoperates hwritten)
  case pow =>
    have hwritten : tracked → powValue E.interpretation n.shape.kind (g.literalAt a) (g.literalAt b)
        (w.value a 0) (w.value b 0) = E.interpretation.binary .pow (w.value a 0) (w.value b 0) := by
      intro htrack
      rw [← written_pow hop, hfollowed htrack id n hid hn, hchildren]
      exact Node.binary_component hop hnarrow
    unfold lowerBinary
    rw [ends_pow hma hmb hop hnarrow htyped]
    cases hlines : powerLines? n.shape.kind (g.literalAt a) (g.literalAt b) with
    | some lines =>
      exact moves hs hid hn hchildren rfl (pow_spells hadmits (not_simple hplain (.inr hop)) hnarrow
        hop hone hoperates hlines hwritten)
    | none =>
      have hmem : a ∈ n.children := by
        rw [hchildren]
        exact List.mem_cons_self
      have hleft := (uniform_operands (by decide) hop hnarrow htyped).1
      refine ⟨Steps.operand hs hid hn need_pos hmem hleft (fun htrack k hk => ?_)
        (by unfold Node.channel?; rw [hop]), fun _ _ hm _ => hm⟩
      refine Eq.trans ?_ (if_pos hk).symm
      rw [Node.width_of_narrow hnarrow] at hk
      rw [Nat.lt_one_iff.mp hk, hchildren, List.map_cons, List.map_singleton,
        Node.binary_component hop hnarrow, ← hwritten htrack, powValue_base hlines]
  case dot => exact absurd rfl hnotAlone.1
  case cross => exact absurd rfl hnotAlone.2.1
  case reflect => exact absurd rfl hnotAlone.2.2
  all_goals exact hencodable (binary_encodable _ (by decide) t ht)

/-- An operator with three operands is lowered. -/
theorem ternary_ends (hadmits : Admits tracked simple E form)
    (hs : Sound (rulesFor tracked simple E.interpretation form).rules g w) (hid : w.live id)
    (hn : g.node? id = some n) {op : TernaryOp} {a b c : NodeId} (hop : n.op = .ternary op a b c) :
    Ends (lowerTernary id n.shape.kind op a b c) g (Lowers tracked simple E form g w id n) refused := by
  obtain ⟨htyped, hformed, hplain, hvalues, -⟩ := hadmits.known hs hid hn
  have hnarrow := hadmits.narrow n hformed
  have hchildren : n.children = [a, b, c] := by
    unfold Node.children
    rw [hop]
    rfl
  have hoperates := (Node.typed_ternary hop).mp htyped
  have hone := Node.inputWidth_eq_one hoperates (Node.width_of_narrow hnarrow)
    fun h => absurd h Bool.false_ne_true
  by_cases hselect : op = .select
  · subst hselect
    have hchoice : ∀ t ∈ TernaryOp.select.types, t.result.choice?.isSome = true := by
      decide
    obtain ⟨t, ht, -, hscalar⟩ := exists_type hoperates hone
    refine stays hs ?_
    unfold Node.encodable
    rw [hop, hscalar]
    exact hchoice t ht
  · rw [lowerTernary_eq id a b c n.shape.kind hselect]
    exact moves hs hid hn hchildren rfl (ternary_spells hadmits hplain hnarrow hop hone hoperates
      (by rw [hchildren] at hvalues ⊢; exact hvalues) hselect)

/-- A constructor of one component is its operand. -/
theorem construct_lowers (hadmits : Admits tracked simple E form)
    (hs : Sound (rulesFor tracked simple E.interpretation form).rules g w) (hid : w.live id)
    (hn : g.node? id = some n) {arguments : List NodeId} (hop : n.op = .construct arguments) :
    ∃ a, arguments = [a] ∧ Lowers tracked simple E form g w id n a g := by
  obtain ⟨htyped, hformed, -, -, -⟩ := hadmits.known hs hid hn
  have hnarrow := hadmits.narrow n hformed
  have hchildren : n.children = arguments := by
    unfold Node.children
    rw [hop]
    rfl
  unfold Node.Typed at htyped
  rw [hop] at htyped
  obtain ⟨-, -, hshapes⟩ := htyped
  have hone := Node.width_of_narrow hnarrow
  rw [hone, hchildren] at hshapes
  obtain ⟨a, rfl, hshape⟩ := List.map_eq_singleton_iff.mp hshapes
  refine ⟨a, rfl, operand_lowers hadmits hs hid hn hnarrow (by unfold Node.channel?; rw [hop])
    hchildren (by rw [hshape, ← hone]) ?_⟩
  intro s hs hkind
  unfold Interpretation.component
  rw [hop]
  exact hs

/-- Every node without an instruction is lowered. -/
theorem settles (hadmits : Admits tracked simple E form) :
    SettlesUnder (fun g w => tracked → Followed E.interpretation g w)
      (rulesFor tracked simple E.interpretation form).rules (fun _ => 0)
      (fun n shapes => n.encodable shapes = true) replace refused where
  exchange _ _ _ _ _ hfollowed hn hencodable hframe htrack :=
    (hfollowed htrack).exchange hn hencodable hframe
  step g w id n hs hfollowed hid hn := by
    have hlowers : Ends (replace id) g (Lowers tracked simple E form g w id n) refused := by
      have hstay : (∀ shapes, n.encodable shapes = true) →
          Lowers tracked simple E form g w id n id g := fun h => stays hs (h _)
      unfold replace
      rw [ends_bind, ends_node hn]
      cases hop : n.op with
      | unary op a => exact unary_ends hadmits hs hid hn hop
      | binary op a b => exact binary_ends hadmits hs hid hn hop hfollowed
      | ternary op a b c => exact ternary_ends hadmits hs hid hn hop
      | construct arguments =>
        obtain ⟨a, rfl, hlowers⟩ := construct_lowers hadmits hs hid hn hop
        exact hlowers
      | swizzle components a =>
        have hnarrow := hadmits.narrow n (hadmits.known hs hid hn).2.1
        unfold Node.narrow at hnarrow
        rw [hop] at hnarrow
        simp at hnarrow
      | constant | input | output | call =>
        refine hstay fun shapes => ?_
        unfold Node.encodable
        rw [hop]
    refine hlowers.mono fun new g' ⟨hsteps, hadded⟩ => ⟨hsteps, fun w' hext htrack => ?_⟩
    exact (hfollowed htrack).extends hs hext hadded

/-- After the pass every node has an instruction. Values are as before if all nodes are
lowered to them. -/
theorem pass_keeps (hadmits : Admits tracked simple E form) {made : List Delivery}
    (hs : Sound ((rulesFor tracked simple E.interpretation form).staged fun n _ => form n) g w)
    (hwrites : Writes ((rulesFor tracked simple E.interpretation form).staged fun n _ => form n) g w
      g.outputs made)
    (hfollowed : tracked → Followed E.interpretation g w) (hne : made ≠ []) :
    Ends pass.run g (fun _ g' => Stage ((rulesFor tracked simple E.interpretation form).staged
      fun n shapes => form n && n.encodable shapes) g' made) refused := by
  refine TypedRules.downward_keeps (t := rulesFor tracked simple E.interpretation form) rfl
    (settles hadmits) (fun _ => Nat.zero_le 1) need_pos need_le ?_ hs hwrites (fun _ => hfollowed) hne
  intro n shapes hformed hencodable
  rw [Bool.and_eq_true]
  exact ⟨hformed, hencodable⟩

/-- After the pass every node of a graph of scalars has an instruction. -/
theorem pass_ends {read : String → UInt32} (htracked : tracked → simple) {made : List Delivery}
    (h : Stage ((rules tracked simple read).staged fun n _ => n.narrow) g made) (hne : made ≠ []) :
    Ends pass.run g (fun _ g' => Stage ((rules tracked simple read).staged
      fun n shapes => n.narrow && n.encodable shapes) g' made) refused := by
  rw [rules_eq] at h ⊢
  obtain ⟨w, hs, hwrites⟩ := h
  refine pass_keeps (.scalars htracked _) hs hwrites (fun htrack => ?_) hne
  refine .of_powerless fun id n hid hn => ?_
  obtain ⟨hfits, -, hplain⟩ := (hs.nodeSound hid hn).fits
  rw [← n.isPower_frame]
  exact not_power_of_plain (hfits.typed trivial) (hplain (htracked htrack))

end

end Lowering

end LaneGraph
