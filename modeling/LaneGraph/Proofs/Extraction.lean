import LaneGraph.Proofs.Splitting

/-!
# Selections are resolved

A selected component of an expression becomes the same expression of selected
components. Operators that do not mix components have the same value on selected
operands as the selection of theirs. A selection moves toward the leaves: it ranks
no higher than before, and where it ranks as high it is no selection any more.
-/

namespace LaneGraph

open Build

namespace Node

/-- The node selects components. -/
def selects (n : Node) : Bool :=
  match n.op with
  | .swizzle _ _ => true
  | _ => false

/-- Whether a node selects components is seen in its frame. -/
theorem selects_frame (n : Node) : n.frame.selects = n.selects := by
  unfold selects frame
  cases n.op <;> rfl

variable {n : Node}

/-- A narrow node does not select components. -/
theorem not_selects_of_narrow (h : n.narrow = true) : n.selects = false := by
  unfold narrow at h
  unfold selects
  cases hop : n.op with
  | swizzle components source =>
    rw [hop, Bool.and_false] at h
    cases h
  | _ => rfl

end Node

namespace Scalars

variable {tracked simple : Prop} {S : Semantics} {G : Agreement} {g g' : Graph} {w w' : World}

/-- Components of nodes are selected, one after the other. -/
theorem swizzles_ends (hS : tracked → Separates simple S G)
    (hs : Sound (rulesOf tracked simple S G).rules g w) (c : Component)
    {xs : List NodeId} (hxs : ∀ x ∈ xs, w.live x) :
    Ends (xs.mapM (swizzle [c])) g fun ids g' => ∃ w',
      Sound (rulesOf tracked simple S G).rules g' w' ∧ Extends g w g' w' ∧
      List.Forall₂ (fun x id => Has (rulesOf tracked simple S G).rules g' w' id
        ⟨(g.shapeAt x).kind, 1⟩ (S.part (w.value x) c) (w.rank x + 1)) xs ids := by
  induction xs generalizing g w with
  | nil => exact ⟨w, hs, Extends.refl g w, .nil⟩
  | cons x xs ih =>
    have hx := hxs x List.mem_cons_self
    have hrest : ∀ y ∈ xs, w.live y := fun y hy => hxs y (List.mem_cons_of_mem _ hy)
    rw [List.mapM_cons, ends_bind]
    refine (swizzle_ends hS hs hx c).mono ?_
    rintro id g₁ ⟨w₁, hs₁, hext₁, hid⟩
    rw [ends_bind]
    refine (ih hs₁ fun y hy => hext₁.live y (hrest y hy)).mono ?_
    rintro ids g₂ ⟨w₂, hs₂, hext₂, hids⟩
    refine ⟨w₂, hs₂, hext₁.trans hext₂, .cons (hid.later hs₁ hext₂.toLater) ?_⟩
    refine List.forall₂_iff_get.mpr ⟨hids.length_eq, fun i hi hi' => ?_⟩
    have hget := hids.get hi hi'
    have hlive := hrest _ (List.get_mem xs ⟨i, hi⟩)
    rw [hext₁.shapeAt hs hlive, hext₁.value _ hlive, hext₁.rank _ hlive] at hget
    exact hget

/-- Selections weigh more than other nodes. -/
def weight (n : Node) : Nat := if n.selects then 1 else 0

/-- What the extraction of a component leads to: a scalar of its value that is
further down than a selection would be. -/
def Extracts (tracked simple : Prop) (S : Semantics) (G : Agreement) (g : Graph) (w : World) (x : NodeId)
    (c : Component) (new : NodeId) (g' : Graph) : Prop :=
  ∃ w', Sound (rulesOf tracked simple S G).rules g' w' ∧ Extends g w g' w' ∧
    Has (rulesOf tracked simple S G).rules g' w' new ⟨(g.shapeAt x).kind, 1⟩ (S.part (w.value x) c)
      (w.rank x + 1) ∧
    ∃ n, g'.node? new = some n ∧ w'.rank new + weight n ≤ w.rank x + 1

/-- What is needed of an operator on selected components. -/
structure Selected (simple : Prop) (g : Graph) (n n' : Node) (ids : List NodeId) : Prop where
  children : n'.children = ids
  typed : n'.Typed g.functions (ids.map g.shapeAt)
  plain : simple → n'.plain = true
  isOperator : n'.op.isOperator = true
  unmixed : n'.mixes = false
  lift : ∀ A : Interpretation, n'.lift A = n.lift A
  shape : n'.shape = ⟨n.shape.kind, 1⟩

/-- An operator on selected components is extracted. -/
theorem operator_ends {x : NodeId} {n n' : Node} {c : Component} {ids : List NodeId}
    {g₁ : Graph} {w₁ : World} {steps : Build NodeId} (hS : tracked → Separates simple S G)
    (hs : Sound (rulesOf tracked simple S G).rules g w) (hx : w.live x) (hn : g.node? x = some n)
    (hop : n.op.isOperator = true) (hs₁ : Sound (rulesOf tracked simple S G).rules g₁ w₁)
    (hext : Extends g w g₁ w₁)
    (hids : List.Forall₂ (fun a id => Has (rulesOf tracked simple S G).rules g₁ w₁ id
      ⟨(g.shapeAt a).kind, 1⟩ (S.part (w.value a) c) (w.rank a + 1)) n.children ids)
    (hrun : steps.runOn g₁ = (.ok g₁.nodes.size, g₁.push n')) (h : Selected simple g₁ n n' ids) :
    Ends steps g₁ (Extracts tracked simple S G g w x c) := by
  have hsound := hs.nodeSound hx hn
  have hreads : n'.readsScalar = true := by
    have hoperator := h.isOperator
    unfold Node.readsScalar
    cases hcase : n'.op <;> first | rfl | (rw [hcase] at hoperator; cases hoperator)
  have hselects : n'.selects = false := by
    have hoperator := h.isOperator
    unfold Node.selects
    cases hcase : n'.op <;> first | rfl | (rw [hcase] at hoperator; cases hoperator)
  have hform : split n'.frame (n'.children.map g₁.shapeAt) = true := by
    unfold split
    rw [n'.mixes_frame, n'.readsScalar_frame, h.unmixed, hreads]
    rfl
  have hchild : ∀ id ∈ ids, ∃ a ∈ n.children, w₁.live id ∧ w₁.rank id ≤ w.rank a + 1 := by
    intro id hid
    obtain ⟨k, hk, rfl⟩ := List.getElem_of_mem hid
    have hk' : k < n.children.length := by
      rw [hids.length_eq]
      exact hk
    have hhas := hids.get hk' hk
    exact ⟨n.children[k], List.getElem_mem hk', hhas.live, hhas.rank⟩
  have hchildren := h.children
  have hvalues : tracked → List.Forall₂ G.le ((n.children.map w.value).map (S.part · c))
      (n'.children.map w₁.value) := by
    intro ht
    rw [hchildren, List.map_map, List.forall₂_map_left_iff, List.forall₂_map_right_iff]
    exact hids.imp fun _ _ hid => hid.value ht
  obtain ⟨w₂, hs₂, hext₂, hhas⟩ := hs₁.added_of (w.rank x + 1) (n := n')
    ⟨.inl (Node.typed_frame.mpr (by rw [hchildren]; exact h.typed)), hform,
      fun hsimple => n'.plain_frame.symm ▸ h.plain hsimple⟩
    (fun id hid => by
      obtain ⟨a, -, hlive, -⟩ := hchild id (hchildren ▸ hid)
      exact hlive)
    (fun id hid => by
      obtain ⟨a, ha, -, hrank⟩ := hchild id (hchildren ▸ hid)
      have hbelow : w.rank a + 1 ≤ w.rank x := hsound.below a ha
      show w₁.rank id + 1 ≤ w.rank x + 1
      omega)
    hvalues
  rw [ends_of_runOn hrun]
  refine ⟨w₂, hs₂, hext.trans hext₂, ⟨hhas.live, ?_, fun ht => ?_, hhas.rank⟩, n',
    Graph.node?_push_size g₁ n', ?_⟩
  · rw [hhas.shape, h.shape, Graph.shapeAt_eq hn]
  · have hmixes : n.mixes = false := by
      have hform : split n.frame (n.children.map g.shapeAt) = true := hsound.fits.2.1
      unfold split at hform
      rw [Bool.and_eq_true, n.mixes_frame, Bool.not_eq_true'] at hform
      exact hform.1
    have hnarrows : n.Narrows n' :=
      ⟨hop, hmixes, h.isOperator, h.unmixed, by rw [hchildren, hids.length_eq], h.lift, by rw [h.shape]⟩
    have hoperands : List.Forall₂ S.ValueOf (n.children.map g.shapeAt) (n.children.map w.value) := by
      rw [List.forall₂_map_left_iff, List.forall₂_map_right_iff, List.forall₂_same]
      exact fun a ha => hs.valueOf ht (hsound.live a ha)
    have hpart := (hS ht).operator (c := c) hnarrows (fun hsimple => n.plain_frame ▸ hsound.fits.2.2 hsimple)
      (by rw [List.length_map]) hoperands
      ((hsound.typed trivial).width_le hop hmixes)
    exact G.trans (G.trans (S.part_mono G (hsound.denotes ht) c) hpart) (hhas.value ht)
  · unfold weight
    rw [hselects]
    exact hhas.rank

/-- The shapes of selected operands. -/
theorem shapes_selected {xs ids : List NodeId} {c : Component} {g₁ : Graph} {w₁ : World}
    {R : Rules} (hids : List.Forall₂ (fun a id => Has R g₁ w₁ id ⟨(g.shapeAt a).kind, 1⟩
      (S.part (w.value a) c) (w.rank a + 1)) xs ids) :
    ids.map g₁.shapeAt = (xs.map g.shapeAt).map fun s => ⟨s.kind, 1⟩ := by
  rw [List.map_map]
  exact map_eq_map_of_forall₂ (hids.imp fun a id hid => hid.shape)

/-- Scalars of given kinds. -/
theorem map_shapesOf (kinds : List Kind) (width : Nat) :
    (shapesOf kinds width).map (fun s => (⟨s.kind, 1⟩ : Shape)) = shapesOf kinds 1 := by
  unfold shapesOf
  rw [List.map_map]
  rfl

section

variable {x : NodeId} {n : Node} {c : Component} {ids : List NodeId} {g₁ : Graph} {w₁ : World}

/-- An operator on selected components. -/
theorem operates_selected {types : List OperatorType} {arity : Nat} {reduces : Bool}
    (htable : TypeTable arity types) (harity : 1 ≤ arity)
    (hoperates : n.Operates types reduces (n.children.map g.shapeAt))
    (hshapes : ids.map g₁.shapeAt = (n.children.map g.shapeAt).map fun s => ⟨s.kind, 1⟩)
    (op : Operation) (hop : op.children = ids)
    (hresolved : ∀ (m : Node) (shapes : List Shape), m.op = op →
      m.resolved g₁.functions shapes = m.resolveOperator types shapes reduces)
    (htyped : ∀ (m : Node) (shapes : List Shape), m.op = op → m.Operates types reduces shapes →
      m.Typed g₁.functions shapes) :
    ∃ n' : Node, n'.op = op ∧ n'.inputWidth = 1 ∧ n'.shape = ⟨n.shape.kind, 1⟩ ∧
      n'.Typed g₁.functions (ids.map g₁.shapeAt) ∧
      (Build.plain op Shape.unknown).runOn g₁ = (.ok g₁.nodes.size, g₁.push n') := by
  obtain ⟨k, t, -, ht, -, -, hoperands, hshape⟩ := hoperates
  rw [hoperands, map_shapesOf] at hshapes
  have hrun := runOn_operator op htable harity ht (Nat.le_refl 1) (by decide) hresolved
    (by rw [hop]; exact hshapes)
  have hone : (⟨t.result, if reduces then 1 else 1⟩ : Shape) = ⟨n.shape.kind, 1⟩ := by
    rw [hshape]
    cases reduces <;> rfl
  refine ⟨_, rfl, rfl, hone, ?_, hrun⟩
  rw [hshapes]
  exact htyped _ _ rfl ⟨k, t, rfl, ht, Nat.le_refl 1, (show 1 ≤ 4 by decide), rfl, rfl⟩

/-- An operator with one operand is extracted. -/
theorem unary_selected {op : UnaryOp} {a id : NodeId} (hop : n.op = .unary op a)
    (htyped : n.Typed g.functions (n.children.map g.shapeAt)) (hmixes : n.mixes = false)
    (hplain : simple → n.plain = true)
    (hshapes : [id].map g₁.shapeAt = (n.children.map g.shapeAt).map fun s => ⟨s.kind, 1⟩) :
    ∃ n', Selected simple g₁ n n' [id] ∧
      (if op = .convert then convert id n.shape.kind else unary op id).runOn g₁ =
        (.ok g₁.nodes.size, g₁.push n') := by
  have hfinish : ∀ n' : Node, n'.op = .unary op id → n'.inputWidth = 1 →
      n'.shape = ⟨n.shape.kind, 1⟩ → n'.Typed g₁.functions ([id].map g₁.shapeAt) →
      Selected simple g₁ n n' [id] := by
    intro n' hop' hone hshape htyped'
    refine ⟨by unfold Node.children; rw [hop']; rfl, htyped', fun h => ?_, by rw [hop']; rfl, ?_,
      fun A => ?_, hshape⟩
    · exact Node.plain_of_kind (hplain h) (by rw [hshape]) (by rw [hop'])
    · unfold Node.mixes at hmixes ⊢
      rw [hop] at hmixes
      rw [hop', hone]
      cases op <;> first | rfl | cases hmixes
    · unfold Node.lift
      rw [hop', hop, hshape]
  by_cases hconvert : op = .convert
  · subst hconvert
    rw [if_pos rfl]
    unfold Node.Typed at htyped
    rw [hop] at htyped
    obtain ⟨s, hsource, hsized, hknown, -, -⟩ := htyped
    rw [hsource] at hshapes
    have hid : g₁.shapeAt id = ⟨s.kind, 1⟩ := List.singleton_inj.mp hshapes
    have hsized' : (g₁.shapeAt id).Sized := by
      rw [hid]
      exact ⟨hsized.known, Nat.le_refl 1, (show 1 ≤ 4 by decide)⟩
    have hrun := runOn_convert (g := g₁) (x := id) hknown hsized'
    rw [hid] at hrun
    refine ⟨_, hfinish _ rfl rfl rfl ?_, hrun⟩
    exact ⟨g₁.shapeAt id, rfl, hsized', hknown, by rw [hid], rfl⟩
  · rw [if_neg hconvert]
    obtain ⟨n', hop', hone, hshape, htyped', hrun⟩ := operates_selected op.typeTable
      (Nat.le_refl 1) ((Node.typed_unary hop hconvert).mp htyped) hshapes (.unary op id) rfl
      (fun m shapes hm => Node.resolved_unary hm hconvert)
      fun m shapes hm => (Node.typed_unary hm hconvert).mpr
    exact ⟨n', hfinish n' hop' hone hshape htyped', hrun⟩

/-- An operator with two operands is extracted. -/
theorem binary_selected {op : BinaryOp} {a b l r : NodeId} (hop : n.op = .binary op a b)
    (htyped : n.Typed g.functions (n.children.map g.shapeAt)) (hmixes : n.mixes = false)
    (hplain : simple → n.plain = true)
    (hshapes : [l, r].map g₁.shapeAt = (n.children.map g.shapeAt).map fun s => ⟨s.kind, 1⟩) :
    ∃ n', Selected simple g₁ n n' [l, r] ∧
      (binary op l r).runOn g₁ = (.ok g₁.nodes.size, g₁.push n') := by
  obtain ⟨n', hop', hone, hshape, htyped', hrun⟩ := operates_selected op.typeTable (by decide)
    ((Node.typed_binary hop).mp htyped) hshapes (.binary op l r) rfl
    (fun m shapes hm => Node.resolved_binary hm) fun m shapes hm => (Node.typed_binary hm).mpr
  refine ⟨n', ⟨by unfold Node.children; rw [hop']; rfl, htyped', fun h => ?_, by rw [hop']; rfl, ?_,
    fun A => by unfold Node.lift; rw [hop', hop], hshape⟩, hrun⟩
  · refine Node.plain_of_kind (hplain h) (by rw [hshape]) ?_
    have hpow := Node.op_of_plain (hplain h) hop
    rw [hop']
    cases op <;> first | rfl | exact absurd rfl hpow
  · unfold Node.mixes at hmixes ⊢
    rw [hop] at hmixes
    rw [hop']
    cases op <;> first | rfl | cases hmixes

/-- An operator with three operands is extracted. -/
theorem ternary_selected {op : TernaryOp} {a b d i j k : NodeId} (hop : n.op = .ternary op a b d)
    (htyped : n.Typed g.functions (n.children.map g.shapeAt)) (hplain : simple → n.plain = true)
    (hshapes : [i, j, k].map g₁.shapeAt = (n.children.map g.shapeAt).map fun s => ⟨s.kind, 1⟩) :
    ∃ n', Selected simple g₁ n n' [i, j, k] ∧
      (ternary op i j k).runOn g₁ = (.ok g₁.nodes.size, g₁.push n') := by
  obtain ⟨n', hop', -, hshape, htyped', hrun⟩ := operates_selected op.typeTable (by decide)
    ((Node.typed_ternary hop).mp htyped) hshapes (.ternary op i j k) rfl
    (fun m shapes hm => Node.resolved_ternary hm) fun m shapes hm => (Node.typed_ternary hm).mpr
  refine ⟨n', ⟨by unfold Node.children; rw [hop']; rfl, htyped', fun h => ?_, by rw [hop']; rfl,
    by unfold Node.mixes; rw [hop'], fun A => by unfold Node.lift; rw [hop', hop], hshape⟩, hrun⟩
  exact Node.plain_of_kind (hplain h) (by rw [hshape]) (by rw [hop'])

/-- A call is extracted. -/
theorem call_selected {candidates : List FunctionId} {arguments : List NodeId}
    (hop : n.op = .call candidates arguments)
    (htyped : n.Typed g.functions (n.children.map g.shapeAt)) (hplain : simple → n.plain = true)
    (hfunctions : g₁.functions = g.functions)
    (hshapes : ids.map g₁.shapeAt = (n.children.map g.shapeAt).map fun s => ⟨s.kind, 1⟩) :
    ∃ chosen n', n.overload.bind (candidates[·]?) = some chosen ∧ Selected simple g₁ n n' ids ∧
      (callKnown [chosen] ids).runOn g₁ = (.ok g₁.nodes.size, g₁.push n') := by
  unfold Node.Typed at htyped
  rw [hop] at htyped
  obtain ⟨k, f, s, hoverload, hcandidate, hs, hrequired, hlength, -, -, houtput, hshape, harguments⟩ :=
    htyped
  rw [← hfunctions] at hs
  have hscalars : ∀ x ∈ ids, (g₁.shapeAt x).Sized ∧ (g₁.shapeAt x).width = 1 := by
    intro x hx
    have hmem : g₁.shapeAt x ∈ (n.children.map g.shapeAt).map fun s => ⟨s.kind, 1⟩ :=
      hshapes ▸ List.mem_map_of_mem hx
    obtain ⟨shape, hshape, heq⟩ := List.mem_map.mp hmem
    obtain ⟨i, hi⟩ := List.getElem?_of_mem hshape
    rw [← heq]
    exact ⟨Shape.sized_one (harguments i shape hi).1.known, rfl⟩
  have hcount : ids.length = (n.children.map g.shapeAt).length := by
    have h := congrArg List.length hshapes
    rwa [List.length_map, List.length_map] at h
  have hrun := runOn_callKnown hs (Graph.known_of_shapeAt fun x hx => (hscalars x hx).1.not_unknown)
    (fun x hx => (hscalars x hx).2) (by rw [hcount]; exact hrequired) (by rw [hcount]; exact hlength)
    houtput
  refine ⟨f, _, by rw [hoverload]; exact hcandidate, ⟨rfl, ?_, fun h => ?_, rfl, rfl,
    fun A => ?_, by rw [hshape]⟩, hrun⟩
  · refine ⟨0, f, s, rfl, rfl, hs, ?_, ?_, Nat.le_refl 1, (show 1 ≤ 4 by decide), houtput, rfl, ?_⟩
    · rw [List.length_map, hcount]
      exact hrequired
    · rw [List.length_map, hcount]
      exact hlength
    · intro i shape hi
      rw [hshapes, List.getElem?_map, Option.map_eq_some_iff] at hi
      obtain ⟨old, hold, rfl⟩ := hi
      obtain ⟨hsized, -, hexact⟩ := harguments i old hold
      refine ⟨Shape.sized_one hsized.known, Nat.le_refl 1, fun kind hkind hknown => ?_⟩
      rw [hexact kind hkind hknown]
  · have hno := hplain h
    unfold Node.plain at hno
    rw [hop, Bool.and_false] at hno
    cases hno
  · unfold Node.lift
    rw [hop, hoverload]
    dsimp only [Option.bind_some]
    rw [hcandidate]
    rfl

end

/-- A scalar is its own first component. -/
theorem extract_scalar {x : NodeId} {n : Node} (hS : tracked → Separates simple S G)
    (hs : Sound (rulesOf tracked simple S G).rules g w)
    (hx : w.live x) (hn : g.node? x = some n) (hwidth : n.shape.width = 1) :
    Extracts tracked simple S G g w x .x x g := by
  have hshape := Graph.shapeAt_eq hn
  refine ⟨w, hs, Extends.refl g w, ⟨hx, ?_, fun ht => ?_, Nat.le_succ _⟩, n, hn, ?_⟩
  · rw [hshape, ← hwidth]
  · rw [(hS ht).scalar (by rw [hshape, hwidth]) (hs.valueOf ht hx)]
    exact G.refl _
  · unfold weight
    split <;> omega

/-- A component of a literal is a literal. -/
theorem constant_ends {x : NodeId} {n : Node} {value : Constant} {c : Component} {s : Scalar}
    (hS : tracked → Separates simple S G) (hs : Sound (rulesOf tracked simple S G).rules g w) (hx : w.live x) (hn : g.node? x = some n)
    (hop : n.op = .constant value) (hc : value.component? c = some s) :
    Ends (scalar s) g (Extracts tracked simple S G g w x c) := by
  have hsound := hs.nodeSound hx hn
  obtain ⟨bits, hbits, hscalar⟩ := Option.bind_eq_some_iff.mp hc
  have hkind : s.kind = value.kind := Scalar.kind_of_ofBits? hscalar
  have htyped := hsound.typed trivial
  unfold Node.Typed at htyped
  rw [hop] at htyped
  obtain ⟨-, hvalid, hshape⟩ := htyped
  rw [(Constant.shape_eq hvalid).1] at hshape
  have hsized := (Constant.shape_eq hvalid).2.known
  rw [(Constant.shape_eq hvalid).1] at hsized
  let n' : Node := { op := .constant (.ofScalar s), shape := ⟨s.kind, 1⟩, inputWidth := 1 }
  have hone : (Constant.ofScalar s).shape = ⟨s.kind, 1⟩ := by cases s <;> rfl
  have hrun : (scalar s).runOn g = (.ok g.nodes.size, g.push n') := by
    have hrun := runOn_plain (g := g) (.constant (.ofScalar s)) (Constant.ofScalar s).shape
      fun _ h => (nomatch h)
    unfold scalar constant
    rw [hone] at hrun ⊢
    exact hrun
  have hfits : (rulesOf tracked simple S G).rules.fits g.functions n'.frame
      (n'.children.map g.shapeAt) := by
    refine ⟨.inl (Node.typed_frame.mpr ⟨rfl, ?_, hone.symm⟩), rfl, fun h => ?_⟩
    · cases s <;> rfl
    · rw [Node.plain_frame]
      refine Node.plain_of_kind (n.plain_frame ▸ hsound.fits.2.2 h) ?_ rfl
      rw [hshape]
      exact hkind
  obtain ⟨w', hs', hext, hhas⟩ := hs.added (w.rank x + 1) (n := n') hfits
    (fun _ h => (nomatch h)) fun _ h => (nomatch h)
  rw [ends_of_runOn hrun]
  refine ⟨w', hs', hext, ⟨hhas.live, ?_, fun ht => ?_, hhas.rank⟩, n', Graph.node?_push_size g n',
    hhas.rank⟩
  · rw [hhas.shape, Graph.shapeAt_eq hn, hshape]
    exact congrArg (Shape.mk · 1) hkind
  · have hchildren : n.children = [] := by
      unfold Node.children
      rw [hop]
      rfl
    have hdenotes := S.part_mono G (hsound.denotes ht) c
    rw [hchildren] at hdenotes
    have hliteral : S.part (S.denote n []) c = S.denote n' [] :=
      (hS ht).constant hop hc (by rw [hshape]; rfl) rfl rfl
    exact G.trans (hliteral ▸ hdenotes) (hhas.value ht)

/-- A component of a selection is a component of its source. -/
theorem extracts_selection {x source new : NodeId} {n : Node} {components : List Component}
    {c inner : Component} (hS : tracked → Separates simple S G)
    (hs : Sound (rulesOf tracked simple S G).rules g w) (hx : w.live x) (hn : g.node? x = some n)
    (hop : n.op = .swizzle components source) (hc : components[c.index]? = some inner)
    (h : Extracts tracked simple S G g w source inner new g') :
    Extracts tracked simple S G g w x c new g' := by
  have hsound := hs.nodeSound hx hn
  have hchildren : n.children = [source] := by
    unfold Node.children
    rw [hop]
    rfl
  have hbelow : w.rank source + 1 ≤ w.rank x :=
    hsound.below source (by rw [hchildren]; exact List.mem_singleton_self source)
  have htyped := hsound.typed trivial
  rw [hchildren] at htyped
  unfold Node.Typed at htyped
  rw [hop] at htyped
  obtain ⟨s, hsource, -, hshape⟩ := htyped
  have hs' : g.shapeAt source = s := List.singleton_inj.mp hsource
  have hkind : (g.shapeAt x).kind = (g.shapeAt source).kind := by
    rw [Graph.shapeAt_eq hn, hshape, Shape.kind_of, hs']
  obtain ⟨w', hsound', hext, hhas, m, hm, hrank⟩ := h
  refine ⟨w', hsound', hext, ⟨hhas.live, ?_, fun ht => ?_, by have := hhas.rank; omega⟩, m, hm,
    by omega⟩
  · rw [hhas.shape, hkind]
  · have hknown : s.kind ≠ .unknown := by
      have hsized := hsound.sized.known
      rwa [hshape, Shape.kind_of] at hsized
    have hdenotes := S.part_mono G (hsound.denotes ht) c
    rw [hchildren] at hdenotes
    exact G.trans (G.trans hdenotes ((hS ht).nested hop hc hshape hknown
      fun hsimple => n.plain_frame ▸ hsound.fits.2.2 hsimple)) (hhas.value ht)

/-- A component of a constructor is an argument. -/
theorem extracts_argument {x argument : NodeId} {n : Node} {arguments : List NodeId}
    {c : Component} (hS : tracked → Separates simple S G)
    (hs : Sound (rulesOf tracked simple S G).rules g w) (hx : w.live x)
    (hn : g.node? x = some n) (hop : n.op = .construct arguments)
    (hc : arguments[c.index]? = some argument) :
    Extracts tracked simple S G g w x c argument g := by
  have hsound := hs.nodeSound hx hn
  have hchildren : n.children = arguments := by
    unfold Node.children
    rw [hop]
    rfl
  have hmem : argument ∈ n.children := hchildren ▸ List.mem_of_getElem? hc
  have hlive := hsound.live argument hmem
  have hbelow : w.rank argument + 1 ≤ w.rank x := hsound.below argument hmem
  have htyped := hsound.typed trivial
  rw [hchildren] at htyped
  unfold Node.Typed at htyped
  rw [hop] at htyped
  obtain ⟨-, -, hshapes⟩ := htyped
  have hlt : c.index < n.shape.width := by
    have hlength := congrArg List.length hshapes
    rw [List.length_map, List.length_replicate] at hlength
    rw [← hlength]
    exact (List.getElem?_eq_some_iff.mp hc).1
  have hshape : g.shapeAt argument = ⟨n.shape.kind, 1⟩ :=
    List.eq_of_mem_replicate (hshapes ▸ List.mem_map_of_mem (List.mem_of_getElem? hc))
  obtain ⟨m, hm⟩ := hs.node hlive
  refine ⟨w, hs, Extends.refl g w, ⟨hlive, ?_, fun ht => ?_, by omega⟩, m, hm, ?_⟩
  · rw [hshape, Graph.shapeAt_eq hn]
  · refine G.trans (S.part_mono G (hsound.denotes ht) c) ?_
    refine (hS ht).argument hop ?_ hlt (s := g.shapeAt argument) (by rw [hshape])
      (hs.valueOf ht hlive)
    rw [hchildren, List.getElem?_map, hc]
    rfl
  · unfold weight
    split <;> omega

/-- A component of an operator or call is the operator or call of components. -/
theorem operation_ends {x : NodeId} {n : Node} {c : Component} {op : Operation}
    (build : List NodeId → Build NodeId) (hS : tracked → Separates simple S G)
    (hs : Sound (rulesOf tracked simple S G).rules g w)
    (hx : w.live x) (hn : g.node? x = some n) (hop : n.op = op) (hoperator : op.isOperator = true)
    (hselected : ∀ {ids : List NodeId} {g₁ : Graph}, ids.length = op.children.length →
      g₁.functions = g.functions →
      ids.map g₁.shapeAt = (n.children.map g.shapeAt).map (fun s => ⟨s.kind, 1⟩) →
      ∃ n', Selected simple g₁ n n' ids ∧
        (build ids).runOn g₁ = (.ok g₁.nodes.size, g₁.push n')) :
    Ends (op.children.mapM (swizzle [c]) >>= build) g (Extracts tracked simple S G g w x c) := by
  subst hop
  have hsound := hs.nodeSound hx hn
  rw [ends_bind]
  refine (swizzles_ends hS hs c hsound.live).mono ?_
  rintro ids g₁ ⟨w₁, hs₁, hext, hids⟩
  obtain ⟨n', hn', hrun⟩ := hselected hids.length_eq.symm hext.functions (shapes_selected hids)
  exact operator_ends hS hs hx hn hoperator hs₁ hext hids hrun hn'

/-- A component of an expression is found, and it is further down than a selection
of it would be. -/
theorem extract_ends (hS : tracked → Separates simple S G)
    (hs : Sound (rulesOf tracked simple S G).rules g w) :
    ∀ (depth : Nat) {x : NodeId} (c : Component), w.live x → (Sound.lower g w x).card < depth →
      Ends (extract depth x c) g (Extracts tracked simple S G g w x c) := by
  intro depth
  induction depth with
  | zero => intro x c _ hdepth; omega
  | succ depth ih =>
    intro x c hx hdepth
    obtain ⟨n, hn, hsound⟩ := hs x hx
    have htyped := hsound.typed trivial
    have hplain : simple → n.plain = true := fun h => n.plain_frame ▸ hsound.fits.2.2 h
    have hform : n.mixes = false ∧ n.readsScalar = true := by
      have hsplit : split n.frame (n.children.map g.shapeAt) = true := hsound.fits.2.1
      unfold split at hsplit
      rw [Bool.and_eq_true, n.mixes_frame, n.readsScalar_frame, Bool.not_eq_true'] at hsplit
      exact hsplit
    rw [extract, ends_bind, ends_node hn]
    dsimp only
    split
    · rename_i hscalar
      rw [hscalar.2]
      exact extract_scalar hS hs hx hn (of_decide_eq_true hscalar.1)
    rename_i hwide
    cases hop : n.op with
    | constant value =>
      dsimp only
      cases hc : value.component? c with
      | none => trivial
      | some s => exact constant_ends hS hs hx hn hop hc
    | swizzle components source =>
      dsimp only
      cases hc : components[c.index]? with
      | none => trivial
      | some inner =>
        have hmem : source ∈ n.children := by
          unfold Node.children
          rw [hop]
          exact List.mem_singleton_self source
        have hlower := hs.card_lower_lt (hsound.live source hmem)
          (show w.rank source < w.rank x from hsound.below source hmem)
        refine (ih inner (hsound.live source hmem) (by omega)).mono ?_
        intro new g' h
        exact extracts_selection hS hs hx hn hop hc h
    | input channel =>
      -- A scalar stream has only its first component, which is the stream itself.
      dsimp only
      split
      · trivial
      · rename_i hcount
        have hread := hform.2
        unfold Node.readsScalar at hread
        rw [hop] at hread
        have hone : channel.format.count ≤ 1 := of_decide_eq_true hread
        unfold Node.Typed at htyped
        rw [hop] at htyped
        obtain ⟨-, hpos, hle, hshape⟩ := htyped
        refine absurd ⟨?_, ?_⟩ hwide
        · rw [hshape, (Format.shape_eq hpos hle).1]
          exact decide_eq_true (Nat.le_antisymm hone hpos)
        · cases c <;> first | rfl | (dsimp only [Component.index] at hcount; omega)
    | construct arguments =>
      dsimp only
      cases hc : arguments[c.index]? with
      | none => trivial
      | some argument => exact extracts_argument hS hs hx hn hop hc
    | unary op a =>
      have h := operation_ends (c := c) (fun ids =>
          if op = .convert then convert (ids.getD 0 0) n.shape.kind else unary op (ids.getD 0 0))
        hS hs hx hn hop rfl fun {ids g₁} hlength _ hshapes => by
          obtain ⟨i, rfl⟩ := List.length_eq_one_iff.mp hlength
          exact unary_selected hop htyped hform.1 hplain hshapes
      simp only [Operation.children, List.mapM_cons, List.mapM_nil, bind_assoc, pure_bind] at h
      exact h
    | binary op a b =>
      have h := operation_ends (c := c) (fun ids => binary op (ids.getD 0 0) (ids.getD 1 0))
        hS hs hx hn hop rfl fun {ids g₁} hlength _ hshapes => by
          obtain ⟨i, j, rfl⟩ := List.length_eq_two.mp hlength
          exact binary_selected hop htyped hform.1 hplain hshapes
      simp only [Operation.children, List.mapM_cons, List.mapM_nil, bind_assoc, pure_bind] at h
      exact h
    | ternary op a b d =>
      have h := operation_ends (c := c)
        (fun ids => ternary op (ids.getD 0 0) (ids.getD 1 0) (ids.getD 2 0))
        hS hs hx hn hop rfl fun {ids g₁} hlength _ hshapes => by
          obtain ⟨i, j, k, rfl⟩ := List.length_eq_three.mp hlength
          exact ternary_selected hop htyped hplain hshapes
      simp only [Operation.children, List.mapM_cons, List.mapM_nil, bind_assoc, pure_bind] at h
      exact h
    | call candidates arguments =>
      obtain ⟨k, f, hoverload, hcandidate⟩ :
          ∃ k f, n.overload = some k ∧ candidates[k]? = some f := by
        have h := htyped
        unfold Node.Typed at h
        rw [hop] at h
        obtain ⟨k, f, s, hoverload, hcandidate, -⟩ := h
        exact ⟨k, f, hoverload, hcandidate⟩
      have hchosen : n.overload.bind (candidates[·]?) = some f := by
        rw [hoverload]
        exact hcandidate
      dsimp only
      rw [hchosen]
      exact operation_ends (c := c) (callKnown [f]) hS hs hx hn hop rfl
        fun {ids g₁} _ hfunctions hshapes => by
          obtain ⟨f', n', hf', hn', hrun⟩ := call_selected hop htyped hplain hfunctions hshapes
          rw [hchosen] at hf'
          cases hf'
          exact ⟨n', hn', hrun⟩
    | output channel source => trivial

/-- Selections are resolved: a node that selects is moved, all others stay. -/
theorem swizzle_settles (hS : tracked → Separates simple S G) :
    Settles (rulesOf tracked simple S G).rules weight (fun n _ => n.selects = false) splitSwizzle := by
  intro g w id n hs hid hn
  have hsound := hs.nodeSound hid hn
  have hstay : n.selects = false → Steps (rulesOf tracked simple S G).rules weight
      (fun n _ => n.selects = false) g w id n id g := by
    intro h
    exact Steps.stay hs (by rw [n.selects_frame]; exact h)
  unfold splitSwizzle
  rw [ends_bind, ends_node hn]
  cases hop : n.op with
  | swizzle components source =>
    have hone : ∀ c, components = [c] → Ends (extract (g.nodes.size + 1) source c) g
        (Steps (rulesOf tracked simple S G).rules weight (fun n _ => n.selects = false) g w id n) := by
      rintro c rfl
      have hchildren : n.children = [source] := by
        unfold Node.children
        rw [hop]
        rfl
      have hmem : source ∈ n.children := hchildren ▸ List.mem_singleton_self source
      have hlive := hsound.live source hmem
      have hbelow : w.rank source + 1 ≤ w.rank id := hsound.below source hmem
      have hselects : n.selects = true := by
        unfold Node.selects
        rw [hop]
      have hweight : weight n.frame = 1 := by
        unfold weight
        rw [n.selects_frame, if_pos hselects]
      have htyped := hsound.typed trivial
      rw [hchildren] at htyped
      unfold Node.Typed at htyped
      rw [hop] at htyped
      obtain ⟨s, hsource, hsized, hshape⟩ := htyped
      have hs' : g.shapeAt source = s := List.singleton_inj.mp hsource
      have hshape' : g.shapeAt id = ⟨(g.shapeAt source).kind, 1⟩ := by
        rw [Graph.shapeAt_eq hn, hshape, hs']
        exact Shape.of_eq hsized.known (Nat.le_refl 1) (show 1 ≤ 4 by decide)
      refine (extract_ends hS hs (g.nodes.size + 1) c hlive ?_).mono ?_
      · have := hs.card_lower_lt_size hlive
        omega
      rintro new g' ⟨w', hsound', hext, hhas, m, hm, hrank⟩
      have hframe : weight m.frame = weight m := by
        unfold weight
        rw [m.selects_frame]
      refine ⟨w', hsound', hext, .inr ⟨?_, ⟨hhas.live, ?_, fun ht => ?_, ?_⟩, ⟨m, hm, ?_⟩, ?_⟩⟩
      · rintro rfl
        have hsame := hext.nodes _ _ hn
        rw [hm] at hsame
        cases hsame
        rw [hext.rank _ hid, ← hframe, hweight] at hrank
        omega
      · rw [hhas.shape, hext.shapeAt hs hid, hshape']
      · rw [hext.value id hid]
        have hpart : S.denote n [w.value source] = S.part (w.value source) c :=
          (hS ht).selection hop (by rw [← Graph.shapeAt_eq hn, hshape'])
        have hdenotes := hsound.denotes ht
        rw [hchildren] at hdenotes
        refine G.trans hdenotes ?_
        show G.le (S.denote n [w.value source]) _
        rw [hpart]
        exact hhas.value ht
      · rw [hext.rank id hid]
        have := hhas.rank
        omega
      · rw [hframe, hweight]
        omega
      · unfold Node.channel?
        rw [hop]
    cases components with
    | nil => trivial
    | cons c rest =>
      cases rest with
      | nil =>
        rw [ends_bind, ends_get]
        exact hone c rfl
      | cons d rest => trivial
  | _ =>
    refine hstay ?_
    unfold Node.selects
    rw [hop]

/-- The operands of a scalar that does not mix or select are scalars. -/
theorem width_operands {functions : List Signature} {n : Node} {shapes : List Shape}
    (h : n.Typed functions shapes) (hmixes : n.mixes = false) (hselects : n.selects = false)
    (hwidth : n.shape.width = 1) : ∀ s ∈ shapes, s.width ≤ 1 := by
  by_cases hop : n.op.isOperator = true
  · rw [← hwidth]
    exact h.width_le hop hmixes
  · intro s hs
    unfold Node.Typed at h
    unfold Node.selects at hselects
    cases hcase : n.op <;> rw [hcase] at h hop hselects
    case constant | input =>
      rw [h.1] at hs
      cases hs
    case output =>
      rw [h.1] at hs
      rw [List.mem_singleton.mp hs, hwidth]
    case construct =>
      rw [h.2.2] at hs
      rw [List.eq_of_mem_replicate hs]
    case swizzle => cases hselects
    all_goals exact absurd rfl hop

/-- After the pass every node has one component. Outputs stay. -/
theorem swizzlePass_ends (hS : tracked → Separates simple S G) {made : List Delivery}
    (h : Stage (rulesOf tracked simple S G).rules g made) (hne : made ≠ [])
    (hscalar : ∀ d ∈ made, d.channel.format.count ≤ 1) :
    Ends swizzlePass.run g fun _ g' => g'.outputs = g.outputs ∧
      Stage ((rulesOf tracked simple S G).staged fun n _ => n.narrow) g' made := by
  have hsettles : Settles { (rulesOf tracked simple S G).rules with need := fun _ => 1 } weight
      (fun n _ => n.selects = false) swizzlePass.replace := swizzle_settles hS
  refine (Pass.downward_ends (R := (rulesOf tracked simple S G).rules) weight
    (fun n _ => n.selects = false) (fun _ => 1) rfl hsettles ?_
    (fun _ => Nat.le_refl 1) (fun _ => Nat.le_refl 1) (fun _ => by decide) h hne).mono ?_
  · intro n
    unfold weight
    split <;> omega
  rintro _ g' ⟨houtputs, w', hs, hwrites, hform⟩
  refine ⟨houtputs, ?_⟩
  have hkeep : ∀ id n, w'.live id ∧ (g'.shapeAt id).width = 1 → g'.node? id = some n →
      n.mixes = false ∧ n.selects = false ∧ n.shape.width = 1 := by
    intro id n hid hn
    have hsplit : split n.frame (n.children.map g'.shapeAt) = true :=
      (hs.nodeSound hid.1 hn).fits.2.1
    unfold split at hsplit
    rw [Bool.and_eq_true, n.mixes_frame, Bool.not_eq_true'] at hsplit
    have hselects := hform id n hid.1 hn
    rw [n.selects_frame] at hselects
    rw [Graph.shapeAt_eq hn] at hid
    exact ⟨hsplit.1, hselects, hid.2⟩
  -- Only scalars matter: outputs are scalars, and operands of scalars are.
  have hnarrow := hs.restrict ((rulesOf tracked simple S G).staged fun n _ => n.narrow)
    (fun id => w'.live id ∧ (g'.shapeAt id).width = 1) (fun id hid => hid.1)
    (fun id n hid hn c hc => by
      obtain ⟨hmixes, hselects, hwidth⟩ := hkeep id n hid hn
      have hsound := hs.nodeSound hid.1 hn
      have hle := width_operands (hsound.typed trivial) hmixes hselects hwidth _
        (List.mem_map_of_mem hc)
      have hlive := hsound.live c hc
      obtain ⟨m, hm, hmsound⟩ := hs c hlive
      have hpos := hmsound.sized.pos
      rw [← Graph.shapeAt_eq hm] at hpos
      exact ⟨hlive, by omega⟩)
    (fun h => h)
    (fun id n hid hn hfits => by
      obtain ⟨hmixes, hselects, hwidth⟩ := hkeep id n hid hn
      refine ⟨hfits.1, ?_, hfits.2.2⟩
      show n.frame.narrow = true
      rw [Node.narrow_frame]
      unfold Node.narrow
      unfold Node.selects at hselects
      rw [hmixes, hwidth]
      cases hop : n.op <;> rw [hop] at hselects <;> first | rfl | cases hselects)
    (fun _ _ _ _ => rfl) (fun _ => Nat.le_refl _) rfl
  refine ⟨_, hnarrow, ?_⟩
  unfold Writes
  refine List.forall₂_iff_get.mpr ⟨hwrites.length_eq, fun i hi hi' => ?_⟩
  have hget := hwrites.get hi hi'
  refine ⟨⟨hget.1, ?_⟩, hget.2.1, hget.2.2⟩
  obtain ⟨n, source, hn, hop⟩ := Graph.channelAt_eq_some hget.2.1
  have htyped := (hs.nodeSound hget.1 hn).typed trivial
  have hcount := hscalar _ (List.get_mem made ⟨i, hi'⟩)
  unfold Node.Typed at htyped
  rw [hop] at htyped
  obtain ⟨-, hpos, hle, hshape⟩ := htyped
  rw [Graph.shapeAt_eq hn, hshape, (Format.shape_eq hpos hle).1]
  exact Nat.le_antisymm hcount hpos

end Scalars

end LaneGraph
