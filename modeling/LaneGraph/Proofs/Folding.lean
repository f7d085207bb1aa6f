import LaneGraph.Proofs.Identities
import LaneGraph.Proofs.Lowering

/-!
# Folding keeps values

A node is folded to a literal, to one of its operands, or to other operators with the
literal on the right. Either way there is a node with its value: it is the node itself,
an operand that is there already, or what the lines of an identity make of the operands.
-/

namespace LaneGraph.Folding

open Build

section

variable {tracked simple : Prop} {A : Interpretation} {form : Node → Bool} {lowered : Bool}
  {g : Graph} {w : World} {m : Node} {values : List Value} {refused : GraphError → Prop}

/-- Where values are followed, all of them are there. -/
theorem Admits.evaluates (h : Admits tracked simple A form) (htracked : tracked) :
    (rulesFor tracked simple A form lowered).Evaluates A where
  semantics := rfl
  agreement := rfl
  exact := trivial
  total := h.total
  need _ := Nat.le_refl 1
  narrow n _ hform := h.narrow n (Bool.and_eq_true_iff.mp hform).1
  calls := by
    refine (h.followed htracked).imp id ?_
    rintro ⟨-, outputs, hanswers, hanswered⟩
    exact ⟨outputs, hanswers, fun n _ hform => hanswered n (Bool.and_eq_true_iff.mp hform).1⟩

/-- Where values are followed, no node is a number. -/
theorem Admits.kind_ne_float (h : Admits tracked simple A form) (htracked : tracked)
    (hformed : form m = true) (hplain : simple → m.plain = true) : m.shape.kind ≠ .float := by
  rcases h.followed htracked with hsimple | ⟨hkind, -⟩
  · exact Node.kind_of_plain (hplain hsimple)
  · exact hkind m hformed

/-- Where values are followed, no node is a number. -/
theorem Admits.kindAt_ne_float (h : Admits tracked simple A form) (htracked : tracked)
    (hs : Sound (rulesFor tracked simple A form lowered).rules g w) {id : NodeId}
    (hid : w.live id) : (g.shapeAt id).kind ≠ .float := by
  obtain ⟨n, hn, hsound⟩ := hs id hid
  obtain ⟨-, hformed, hplain⟩ := hsound.fits
  rw [Graph.shapeAt_eq hn]
  exact h.kind_ne_float htracked (h.frame n ▸ (Bool.and_eq_true_iff.mp hformed).1)
    fun hsimple => n.plain_frame ▸ hplain hsimple

/-- Lines of scalars of the kind of a node fit it. -/
theorem Admits.fit (h : Admits tracked simple A form) (hformed : form m = true)
    {shapes : List Shape} {lines : List Line}
    (hfit : Folding.fit lowered shapes lines m.shape.kind = true) :
    Line.fit (fun n shapes => form n && (!lowered || n.encodable shapes)) (fun _ => 1) shapes lines
      ⟨m.shape.kind, 1⟩ 16 = true := by
  refine Line.fit_imp (fun _ _ n _ shapes hn => ?_) hfit
  simp only [Bool.and_eq_true, decide_eq_true_eq] at hn
  obtain ⟨⟨⟨hnarrow, hbasic⟩, hkind⟩, hencodable⟩ := hn
  rw [h.like m n hformed hnarrow hbasic hkind, hencodable]
  rfl

/-- A literal node has its shape and its value. -/
theorem literal_known (hs : Sound (rulesFor tracked simple A form lowered).rules g w) {id : NodeId}
    (hid : w.live id) (hm : g.node? id = some m) {v : Scalar} (hv : m.scalar? = some v) :
    g.shapeAt id = ⟨v.kind, 1⟩ ∧ (tracked → w.value id 0 = some v) := by
  have hsound := hs.nodeSound hid hm
  have htyped := hsound.typed trivial
  unfold Node.scalar? Node.constant? at hv
  cases hop : m.op <;> rw [hop] at hv
  case constant c =>
    unfold Node.Typed at htyped
    rw [hop] at htyped
    obtain ⟨-, hvalid, hshape⟩ := htyped
    obtain ⟨hform, hsized⟩ := Constant.shape_eq hvalid
    rw [Option.bind_some] at hv
    unfold Constant.scalar? at hv
    split at hv
    · rename_i b hb
      have hkind : v.kind = c.kind := by
        rw [hform] at hsized
        obtain ⟨s, hs, hkind⟩ := Scalar.ofBits?_total hsized.known b
        rw [hv] at hs
        cases hs
        exact hkind
      have hscalar : m.shape = ⟨v.kind, 1⟩ := by rw [hshape, hform, hb, hkind]; rfl
      refine ⟨(Graph.shapeAt_eq hm).trans hscalar, fun h => ?_⟩
      have hdenotes : w.value id = A.denote m (m.children.map w.value) := hsound.denotes h
      rw [hdenotes]
      unfold Interpretation.denote Interpretation.component
      rw [if_pos (by rw [hscalar]; exact Nat.one_pos), hop]
      dsimp only
      rw [hb]
      exact hv
    · cases hv
  all_goals cases hv

/-- A node that is there already has the value of a scalar node. -/
theorem known_yields (hs : Sound (rulesFor tracked simple A form lowered).rules g w)
    (hnarrow : m.narrow = true) {c : NodeId} (hc : w.live c) (hshape : g.shapeAt c = m.shape)
    (hvalue : tracked → w.value c 0 = A.component m values 0) :
    Yields (rulesFor tracked simple A form lowered).rules g w m.shape (A.denote m values) c g := by
  have hone := Node.width_of_narrow hnarrow
  refine Yields.known hs hc hshape fun h => Eq.symm ?_
  funext k
  by_cases hk : k < m.shape.width
  · have hzero : k = 0 := by omega
    unfold Interpretation.denote
    rw [if_pos hk, hzero]
    exact hvalue h
  · have hle : m.shape.width ≤ k := Nat.le_of_not_lt hk
    rw [Interpretation.denote_eq_none A hle]
    exact hs.value_eq_none h hc (by rw [hshape]; exact hle)

/-- Lines have the value of a scalar node. -/
theorem lines_yields {ids : List NodeId} {lines : List Line} (hadmits : Admits tracked simple A form)
    (hs : Sound (rulesFor tracked simple A form lowered).rules g w) (hlive : ∀ c ∈ ids, w.live c)
    (hne : lines ≠ []) (hformed : form m = true)
    (hfit : fit lowered (ids.map g.shapeAt) lines m.shape.kind = true)
    (hplain : simple → Line.plain (ids.map g.shapeAt) lines = true)
    (hvalue : tracked → ∀ ns, Line.frames (ids.map g.shapeAt) lines = some ns →
      (Line.result (rulesFor tracked simple A form lowered)
        (Entry.operands (ids.map g.shapeAt) (ids.map w.value)) lines ns).value 0 =
        A.component m values 0) :
    Ends (Line.make ids lines) g (Yields (rulesFor tracked simple A form lowered).rules g w m.shape
      (A.denote m values)) refused := by
  have hone := Node.width_of_narrow (hadmits.narrow m hformed)
  have hscalar : m.shape = ⟨m.shape.kind, 1⟩ := by rw [← hone]
  refine Yields.of_lines (t := rulesFor tracked simple A form lowered) hs hlive hne
    (by rw [hscalar]; exact hadmits.fit hformed hfit) hplain ?_ fun k => Interpretation.denote_eq_none A
  intro h ns hns k hk
  have hzero : k = 0 := by omega
  unfold Interpretation.denote
  rw [if_pos hk, hzero]
  exact hvalue h ns hns

/-- A literal has the value of a scalar node. -/
theorem literal_yields (hadmits : Admits tracked simple A form)
    (hs : Sound (rulesFor tracked simple A form lowered).rules g w)
    (hformed : form m = true) (hplain : simple → m.plain = true) {v : Scalar}
    (hkind : v.kind = m.shape.kind) (hvalue : tracked → A.component m values 0 = some v) :
    Ends (scalar v) g (Yields (rulesFor tracked simple A form lowered).rules g w m.shape
      (A.denote m values)) refused := by
  have hmake : scalar v = Line.make [] [.literal v] := by simp [Line.make, Line.run, Line.build]
  rw [hmake]
  refine lines_yields hadmits hs (fun _ hc => absurd hc List.not_mem_nil) (List.cons_ne_nil _ _)
    hformed
    (by rw [← hkind]; exact literal_fit lowered v) (fun h => ?_) fun h ns hns => ?_
  · exact literal_plain (hkind ▸ Node.kind_of_plain (hplain h))
  · exact (literal_value hns).trans (hvalue h).symm

/-- What folding leads to: the node stays, or another one has its value. -/
def Folds (tracked simple : Prop) (A : Interpretation) (form : Node → Bool) (lowered : Bool)
    (g : Graph) (w : World) (id : NodeId) (m : Node) (values : List Value) (new : NodeId)
    (g' : Graph) : Prop :=
  new = id ∧ g' = g ∨
    Yields (rulesFor tracked simple A form lowered).rules g w m.shape (A.denote m values) new g'

variable {op : BinaryOp} {left right id : NodeId}

/-- What is known of a scalar operator with two operands. -/
structure Applied (simple : Prop) (form : Node → Bool) (g : Graph) (w : World) (m : Node) (op : BinaryOp)
    (left right : NodeId) (t : OperatorType) : Prop where
  operation : m.op = .binary op left right
  narrow : m.narrow = true
  formed : form m = true
  plain : simple → m.plain = true
  type : t ∈ op.types
  shape : m.shape = ⟨t.result, 1⟩
  shapes : [g.shapeAt left, g.shapeAt right] = shapesOf t.operands 1
  liveLeft : w.live left
  liveRight : w.live right

namespace Applied

variable {t : OperatorType}

/-- The value of a scalar operator. -/
theorem component (h : Applied simple form g w m op left right t) (x y : Value) :
    A.component m [x, y] 0 = A.binary op (x 0) (y 0) :=
  Node.binary_component h.operation h.narrow

/-- The shapes of operands of one kind. -/
theorem uniform (h : Applied simple form g w m op left right t) {kind kind' : Kind}
    (ht : t.operands = [kind, kind']) :
    g.shapeAt left = ⟨kind, 1⟩ ∧ g.shapeAt right = ⟨kind', 1⟩ := by
  have hshapes := h.shapes
  rw [ht] at hshapes
  obtain ⟨hleft, hrest⟩ := List.cons.inj hshapes
  exact ⟨hleft, List.singleton_inj.mp hrest⟩

/-- The operands have literal values. -/
theorem literals (hadmits : Admits tracked simple A form)
    (hs : Sound (rulesFor tracked simple A form lowered).rules g w)
    (h : Applied simple form g w m op left right t) (htrack : tracked) :
    ∃ a b, w.value left 0 = some a ∧ w.value right 0 = some b ∧
      a.kind = (g.shapeAt left).kind ∧ b.kind = (g.shapeAt right).kind ∧
      A.component m [w.value left, w.value right] 0 = op.eval? a b := by
  obtain ⟨a, ha, hakind⟩ := hs.single (hadmits.evaluates htrack) htrack h.liveLeft
  obtain ⟨b, hb, hbkind⟩ := hs.single (hadmits.evaluates htrack) htrack h.liveRight
  refine ⟨a, b, ha, hb, hakind, hbkind, ?_⟩
  rw [h.component, hadmits.literals.binary, ha, hb]
  rfl

/-- The value does not change when operands change places. -/
theorem lift_swap {op' : BinaryOp} (hadmits : Admits tracked simple A form)
    (hs : Sound (rulesFor tracked simple A form lowered).rules g w)
    (h : Applied simple form g w m op left right t) (htrack : tracked) (hop : (op, op') ∈ swaps) :
    A.binary op' (w.value right 0) (w.value left 0) =
      A.binary op (w.value left 0) (w.value right 0) := by
  have hpair : ∀ p ∈ swaps, ∀ t ∈ p.1.types,
      t.operands = [t.operands.headD .unknown, t.operands.headD .unknown] := by
    decide
  obtain ⟨hleft, hright⟩ := h.uniform (hpair _ hop t h.type)
  obtain ⟨a, b, ha, hb, hakind, hbkind, -⟩ := h.literals hadmits hs htrack
  have hfloat := hadmits.kindAt_ne_float htrack hs h.liveLeft
  rw [hadmits.literals.binary, ha, hb]
  refine eval_swap hop (by rw [hakind]; exact hfloat) ?_
  rw [hakind, hbkind, hleft, hright]

/-- A scalar operator of the graph is applied to its operands. -/
theorem of_typed (hop : m.op = .binary op left right) (hnarrow : m.narrow = true)
    (hformed : form m = true)
    (hplain : simple → m.plain = true) (htyped : m.Typed g.functions (m.children.map g.shapeAt))
    (hlive : ∀ c ∈ m.children, w.live c) : ∃ t, Applied simple form g w m op left right t := by
  have hchildren : m.children = [left, right] := by
    unfold Node.children
    rw [hop]
    rfl
  rw [hchildren] at htyped hlive
  have hoperates := (Node.typed_binary hop).mp htyped
  obtain ⟨t, ht, hshapes, hshape⟩ :=
    Lowering.exists_type hoperates (Node.binary_inputWidth hop hnarrow hoperates)
  exact ⟨t, hop, hnarrow, hformed, hplain, ht, hshape, hshapes, hlive left List.mem_cons_self,
    hlive right (List.mem_cons_of_mem _ List.mem_cons_self)⟩

end Applied

/-- An operator with a literal on the right only stays, or its value is found. -/
theorem right_ends {t : OperatorType} {c : Scalar} (hadmits : Admits tracked simple A form)
    (hs : Sound (rulesFor tracked simple A form lowered).rules g w)
    (h : Applied simple form g w m op left right t)
    (hc : g.shapeAt right = ⟨c.kind, 1⟩ ∧ (tracked → w.value right 0 = some c)) :
    Ends (foldRight id op left right c) g
      (Folds tracked simple A form lowered g w id m [w.value left, w.value right]) refused := by
  have huniform : ∀ op ∈ [BinaryOp.add, .subtract, .multiply, .divide, .pow, .shiftLeft,
      .shiftRight, .logicalAnd, .logicalOr], ∀ t ∈ op.types, t.operands = [t.result, t.result] := by
    decide
  have hfacts : t.operands = [t.result, t.result] → g.shapeAt left = m.shape ∧
      g.shapeAt right = m.shape ∧ c.kind = m.shape.kind ∧ (tracked → c.kind ≠ .float ∧
        ∃ a, w.value left 0 = some a ∧ a.kind = c.kind ∧
          A.component m [w.value left, w.value right] 0 = op.eval? a c) := by
    intro ht
    obtain ⟨hleft, hright⟩ := h.uniform ht
    have hkind : c.kind = t.result := by
      rw [hc.1] at hright
      exact congrArg (·.kind) hright
    rw [h.shape]
    refine ⟨hleft, hright, hkind, fun htrack => ⟨?_, ?_⟩⟩
    · have hfloat := hadmits.kind_ne_float htrack h.formed h.plain
      rw [h.shape] at hfloat
      rw [hkind]
      exact hfloat
    · obtain ⟨a, b, ha, hb, hakind, -, hcomponent⟩ := h.literals hadmits hs htrack
      rw [hc.2 htrack] at hb
      cases hb
      exact ⟨a, ha, by rw [hakind, hleft, hkind], hcomponent⟩
  rw [foldRight_eq]
  cases hfold : rightFold c op with
  | keep => exact .inl ⟨rfl, rfl⟩
  | left =>
    have hop := rightFold_left hfold
    obtain ⟨hleft, -, -, hvalue⟩ := hfacts (huniform op (List.mem_append_left _ hop) t h.type)
    refine .inr (known_yields hs h.narrow h.liveLeft hleft fun htrack => ?_)
    obtain ⟨hfloat, a, ha, hkind, hcomponent⟩ := hvalue htrack
    rw [hcomponent, ha]
    exact (eval_left hfold hfloat hkind).symm
  | right =>
    have hop := rightFold_right hfold
    have hlisted : ∀ op ∈ [BinaryOp.multiply, .logicalAnd, .logicalOr], op ∈ [.add, .subtract,
        .multiply, .divide, .pow, .shiftLeft, .shiftRight, .logicalAnd, .logicalOr] := by
      decide
    obtain ⟨-, hright, -, hvalue⟩ := hfacts (huniform op (hlisted op hop) t h.type)
    refine .inr (known_yields hs h.narrow h.liveRight hright fun htrack => ?_)
    obtain ⟨hfloat, a, ha, hkind, hcomponent⟩ := hvalue htrack
    rw [hcomponent, hc.2 htrack]
    exact (eval_right hfold hfloat hkind).symm
  | lines lines =>
    obtain ⟨rfl, hcases⟩ := rightFold_lines hfold
    obtain ⟨hleft, hright, hkind, hvalue⟩ := hfacts (huniform .divide (by decide) t h.type)
    have hscalar : m.shape = ⟨c.kind, 1⟩ := by rw [hkind, h.shape]
    have hshapes : [left, right].map g.shapeAt = [⟨c.kind, 1⟩, ⟨c.kind, 1⟩] := by
      rw [List.map_cons, List.map_singleton, hleft, hright, hscalar]
    have hlive : ∀ x ∈ [left, right], w.live x := by
      intro x hx
      rcases List.mem_pair.mp hx with rfl | rfl
      · exact h.liveLeft
      · exact h.liveRight
    refine Ends.mono ?_ fun _ _ => Or.inr
    rcases hcases with ⟨n, k, rfl, hk, rfl⟩ | ⟨x, rfl, rfl⟩
    · refine lines_yields hadmits hs hlive (List.cons_ne_nil _ _) h.formed ?_ (fun _ => ?_) ?_
      · rw [hshapes, ← hkind]
        exact shift_fit lowered _ _ _
      · rw [hshapes]
        exact shift_plain _ _ _
      · intro htrack ns hns
        obtain ⟨-, a, ha, hakind, hcomponent⟩ := hvalue htrack
        rw [hshapes] at hns ⊢
        refine (shift_value hns).trans ?_
        rw [hcomponent, ha, hadmits.literals.binary]
        cases a with
        | bool | float => cases hakind
        | int v => simp [BinaryOp.lift, BinaryOp.eval?, BinaryOp.onInts?, shift_eq_div hk v]
    · refine lines_yields hadmits hs hlive (List.cons_ne_nil _ _) h.formed ?_ (fun hsimple => ?_) ?_
      · rw [hshapes, ← hkind]
        exact product_fit lowered _
      · exact absurd hkind.symm (Node.kind_of_plain (h.plain hsimple))
      · intro htrack
        exact absurd hkind.symm (hadmits.kind_ne_float htrack h.formed h.plain)

/-- The operator with swapped operands is applied too. -/
theorem Applied.swapped {t : OperatorType} {op' : BinaryOp} (hadmits : Admits tracked simple A form)
    (hop : (op, op') ∈ swaps)
    (h : Applied simple form g w m op left right t) :
    Applied simple form g w { m with op := .binary op' right left } op' right left t := by
  have htable : ∀ p ∈ swaps, (p.2 ≠ .dot ∧ p.2 ≠ .cross ∧ p.2 ≠ .reflect) ∧
      (p.2 ≠ .pow ∧ p.2 ≠ .log) ∧
      ∀ t ∈ p.1.types, t.operands.reverse = t.operands ∧ t ∈ p.2.types := by
    decide
  obtain ⟨hscalar, ⟨hpow, hlog⟩, htypes⟩ := htable _ hop
  obtain ⟨hreverse, htype⟩ := htypes t h.type
  have hshapes : [g.shapeAt right, g.shapeAt left] = shapesOf t.operands 1 := by
    have hreversed := congrArg List.reverse h.shapes
    unfold shapesOf at hreversed ⊢
    rw [← List.map_reverse, hreverse] at hreversed
    exact hreversed
  have hone := Node.width_of_narrow h.narrow
  have hnarrow : Node.narrow { m with op := .binary op' right left } = true :=
    Node.narrow_binary rfl hone hscalar
  have hbasic : Node.basic { m with op := .binary op' right left } = true := by
    cases op' <;> first | rfl | exact absurd rfl hpow | exact absurd rfl hlog
  exact {
    operation := rfl
    narrow := hnarrow
    formed := hadmits.like m _ h.formed hnarrow hbasic rfl
    plain := fun hsimple => Node.plain_binary (h.plain hsimple) rfl rfl hpow
    type := htype
    shape := h.shape
    shapes := hshapes
    liveLeft := h.liveRight
    liveRight := h.liveLeft }

/-- An applied operator stays applied when nodes are added. -/
theorem Applied.later {t : OperatorType} {g' : Graph} {w' : World} {R : Rules}
    (h : Applied simple form g w m op left right t) (hs : Sound R g w) (hlater : Later g w g' w') :
    Applied simple form g' w' m op left right t where
  operation := h.operation
  narrow := h.narrow
  formed := h.formed
  plain := h.plain
  type := h.type
  shape := h.shape
  shapes := by
    rw [hlater.shapeAt hs h.liveLeft, hlater.shapeAt hs h.liveRight]
    exact h.shapes
  liveLeft := hlater.live _ h.liveLeft
  liveRight := hlater.live _ h.liveRight

/-- An operator with a literal on the left only stays, or its value is found. -/
theorem left_ends {t : OperatorType} {c : Scalar} (hadmits : Admits tracked simple A form)
    (hs : Sound (rulesFor tracked simple A form lowered).rules g w)
    (h : Applied simple form g w m op left right t)
    (hc : g.shapeAt left = ⟨c.kind, 1⟩ ∧ (tracked → w.value left 0 = some c)) :
    Ends (foldLeft id op c left right) g
      (Folds tracked simple A form lowered g w id m [w.value left, w.value right]) refused := by
  have huniform : ∀ op ∈ [BinaryOp.add, .multiply, .logicalAnd, .logicalOr], ∀ t ∈ op.types,
      t.operands = [t.result, t.result] := by
    decide
  have hcases := leftFold_cases c op
  have hfacts : ∀ kind, t.operands = [kind, kind] → g.shapeAt left = ⟨kind, 1⟩ ∧
      g.shapeAt right = ⟨kind, 1⟩ ∧ (tracked → c.kind ≠ .float ∧ ∃ b, w.value right 0 = some b ∧
        b.kind = c.kind ∧ A.component m [w.value left, w.value right] 0 = op.eval? c b) := by
    intro kind ht
    obtain ⟨hleft, hright⟩ := h.uniform ht
    refine ⟨hleft, hright, fun htrack => ⟨?_, ?_⟩⟩
    · have hfloat := hadmits.kindAt_ne_float htrack hs h.liveLeft
      rw [hc.1] at hfloat
      exact hfloat
    · obtain ⟨a, b, ha, hb, -, hbkind, hcomponent⟩ := h.literals hadmits hs htrack
      rw [hc.2 htrack] at ha
      cases ha
      refine ⟨b, hb, ?_, hcomponent⟩
      rw [hbkind, hright, ← hleft, hc.1]
  unfold foldLeft
  cases hfold : leftFold c op with
  | keep => exact .inl ⟨rfl, rfl⟩
  | literal =>
    rw [hfold] at hcases
    obtain ⟨hleft, -, hvalue⟩ := hfacts _ (huniform op (List.mem_cons_of_mem _ hcases) t h.type)
    refine .inr (known_yields hs h.narrow h.liveLeft (by rw [hleft, h.shape]) fun htrack => ?_)
    obtain ⟨hfloat, b, -, hkind, hcomponent⟩ := hvalue htrack
    rw [hcomponent, hc.2 htrack]
    exact (eval_literal hfold hfloat hkind).symm
  | other =>
    rw [hfold] at hcases
    obtain ⟨-, hright, hvalue⟩ := hfacts _ (huniform op (List.mem_append_left _ hcases) t h.type)
    refine .inr (known_yields hs h.narrow h.liveRight (by rw [hright, h.shape]) fun htrack => ?_)
    obtain ⟨hfloat, b, hb, hkind, hcomponent⟩ := hvalue htrack
    rw [hcomponent, hb]
    exact (eval_other hfold hfloat hkind).symm
  | swap op' =>
    rw [hfold] at hcases
    have hlive : ∀ x ∈ [left, right], w.live x := by
      intro x hx
      rcases List.mem_pair.mp hx with rfl | rfl
      · exact h.liveLeft
      · exact h.liveRight
    have hshapes : [left, right].map g.shapeAt = shapesOf t.operands 1 := h.shapes
    have hmake : binary op' right left = Line.make [left, right] [.binary op' 1 0] := by
      simp [Line.make, Line.run, Line.build]
    have hswap : tracked → A.binary op' (w.value right 0) (w.value left 0) =
        A.component m [w.value left, w.value right] 0 := by
      intro htrack
      rw [h.component]
      exact h.lift_swap hadmits hs htrack hcases
    have hmade : Ends (Line.make [left, right] [.binary op' 1 0]) g
        (Yields (rulesFor tracked simple A form lowered).rules g w m.shape
          (A.denote m [w.value left, w.value right])) refused := by
      refine lines_yields hadmits hs hlive (List.cons_ne_nil _ _) h.formed ?_ (fun hsimple => ?_) ?_
      · rw [hshapes, h.shape]
        exact swap_fits lowered _ hcases t h.type
      · rw [hshapes]
        have hfloat := Node.kind_of_plain (h.plain hsimple)
        rw [h.shape] at hfloat
        exact swap_plain _ hcases t h.type hfloat
      · intro htrack ns hns
        rw [hshapes] at hns ⊢
        exact (swap_value hcases h.type hns).trans (hswap htrack)
    dsimp only
    rw [ends_bind, hmake]
    refine hmade.mono ?_
    rintro turned g' ⟨w', bound, hs', hext, hturned⟩
    have hswapped := (h.swapped hadmits hcases).later hs hext.toLater
    refine (right_ends hadmits hs' hswapped ?_).mono ?_
    · refine ⟨(hext.shapeAt hs h.liveLeft).trans hc.1, fun htrack => ?_⟩
      rw [hext.value left h.liveLeft]
      exact hc.2 htrack
    · rintro new g'' (⟨rfl, rfl⟩ | hyields)
      · exact .inr ⟨w', bound, hs', hext, hturned⟩
      · refine .inr ((hyields.congr fun htrack => Eq.symm ?_).after hext)
        funext k
        unfold Interpretation.denote
        split
        · rename_i hk
          have hzero : k = 0 := by
            have hone := Node.width_of_narrow h.narrow
            dsimp only at hk
            omega
          rw [hzero, hswapped.component, hext.value left h.liveLeft, hext.value right h.liveRight]
          exact hswap htrack
        · rfl

/-- An operator with one operand is folded. -/
theorem unary_ends {op : UnaryOp} {a : NodeId} (hadmits : Admits tracked simple A form)
    (hs : Sound (rulesFor tracked simple A form lowered).rules g w) (hop : m.op = .unary op a)
    (hformed : form m = true) (hplain : simple → m.plain = true)
    (htyped : m.Typed g.functions [g.shapeAt a]) (hlive : w.live a) :
    Ends (do literalOr id ((← scalarAt? a).bind (op.eval? m.shape.kind))) g
      (Folds tracked simple A form lowered g w id m [w.value a]) refused := by
  have hnarrow := hadmits.narrow m hformed
  obtain ⟨n, hn⟩ := hs.node hlive
  rw [ends_bind, Lowering.ends_scalarAt hn]
  cases hv : n.scalar? with
  | none => exact .inl ⟨rfl, rfl⟩
  | some v =>
    rw [Option.bind_some]
    obtain ⟨hshape, hvalue⟩ := literal_known hs hlive hn hv
    rw [hshape] at htyped
    obtain ⟨r, hr, hkind⟩ : ∃ r, op.eval? m.shape.kind v = some r ∧ r.kind = m.shape.kind := by
      by_cases hconvert : op = .convert
      · subst hconvert
        unfold Node.Typed at htyped
        rw [hop] at htyped
        obtain ⟨s, -, -, hknown, -, -⟩ := htyped
        exact v.convert?_total hknown
      · have hoperates := (Node.typed_unary hop hconvert).mp htyped
        have hone := Node.unary_inputWidth hop hnarrow hoperates
        obtain ⟨t, ht, hshapes, hshape'⟩ := Lowering.exists_type hoperates hone
        obtain ⟨kind, hkind⟩ := List.length_eq_one_iff.mp (op.typeTable.arity t ht)
        rw [hkind] at hshapes
        have hv : v.kind = kind := congrArg (·.kind) (List.singleton_inj.mp hshapes)
        obtain ⟨r, hr, hkind'⟩ := UnaryOp.eval?_total ht (by rw [hkind, hv])
          (Node.unary_of_narrow hop hnarrow) m.shape.kind
        exact ⟨r, hr, by rw [hkind', hshape']⟩
    rw [hr]
    refine (literal_yields hadmits hs hformed hplain hkind fun h => ?_).mono fun _ _ => Or.inr
    rw [Node.unary_component hop hnarrow, hadmits.literals.unary, hvalue h]
    exact hr

/-- An operator with two operands is folded. -/
theorem binary_ends {t : OperatorType} (hadmits : Admits tracked simple A form)
    (hs : Sound (rulesFor tracked simple A form lowered).rules g w)
    (h : Applied simple form g w m op left right t) :
    Ends (do
      match ← scalarAt? left, ← scalarAt? right with
      | some a, some b => literalOr id (op.eval? a b)
      | some a, none => foldLeft id op a left right
      | none, some b => foldRight id op left right b
      | none, none => return id) g
      (Folds tracked simple A form lowered g w id m [w.value left, w.value right]) refused := by
  obtain ⟨n, hn⟩ := hs.node h.liveLeft
  obtain ⟨n', hn'⟩ := hs.node h.liveRight
  rw [ends_bind, Lowering.ends_scalarAt hn, ends_bind, Lowering.ends_scalarAt hn']
  cases ha : n.scalar? with
  | none =>
    cases hb : n'.scalar? with
    | none => exact .inl ⟨rfl, rfl⟩
    | some b => exact right_ends hadmits hs h (literal_known hs h.liveRight hn' hb)
  | some a =>
    cases hb : n'.scalar? with
    | none => exact left_ends hadmits hs h (literal_known hs h.liveLeft hn ha)
    | some b =>
      obtain ⟨hkindLeft, hvalue⟩ := literal_known hs h.liveLeft hn ha
      obtain ⟨hkindRight, hvalue'⟩ := literal_known hs h.liveRight hn' hb
      obtain ⟨kind, kind', hkinds⟩ := List.length_eq_two.mp (op.typeTable.arity t h.type)
      obtain ⟨hl, hr⟩ := h.uniform hkinds
      obtain ⟨rfl, -⟩ := Shape.mk.inj (hkindLeft.symm.trans hl)
      obtain ⟨rfl, -⟩ := Shape.mk.inj (hkindRight.symm.trans hr)
      obtain ⟨r, heval, hkind⟩ := BinaryOp.eval?_total h.type hkinds
        (Node.binary_of_narrow h.operation h.narrow)
      dsimp only
      rw [heval]
      refine (literal_yields hadmits hs h.formed h.plain (by rw [hkind, h.shape]) fun htrack => ?_).mono
        fun _ _ => Or.inr
      rw [h.component, hadmits.literals.binary, hvalue htrack, hvalue' htrack]
      exact heval

/-- An operator with three operands is folded. -/
theorem ternary_ends {op : TernaryOp} {a b c : NodeId} (hadmits : Admits tracked simple A form)
    (hs : Sound (rulesFor tracked simple A form lowered).rules g w) (hop : m.op = .ternary op a b c)
    (hformed : form m = true) (hplain : simple → m.plain = true)
    (hoperates : m.Operates op.types false [g.shapeAt a, g.shapeAt b, g.shapeAt c])
    (ha : w.live a) (hb : w.live b) (hc : w.live c) :
    Ends (do
      let x ← scalarAt? a
      let y ← scalarAt? b
      let z ← scalarAt? c
      if op = .select then
        match x with
        | some (.bool true) => return b
        | some (.bool false) => return c
        | _ => return id
      else
        match x, y, z with
        | some x, some y, some z => literalOr id (op.eval? x y z)
        | _, _, _ => return id) g
      (Folds tracked simple A form lowered g w id m [w.value a, w.value b, w.value c]) refused := by
  have hnarrow := hadmits.narrow m hformed
  obtain ⟨na, hna⟩ := hs.node ha
  obtain ⟨nb, hnb⟩ := hs.node hb
  obtain ⟨nc, hnc⟩ := hs.node hc
  have hone := Node.inputWidth_eq_one hoperates (Node.width_of_narrow hnarrow)
    fun h => absurd h Bool.false_ne_true
  obtain ⟨t, ht, hshapes, hshape⟩ := Lowering.exists_type hoperates hone
  obtain ⟨kind, kind', kind'', hkinds⟩ := List.length_eq_three.mp (op.typeTable.arity t ht)
  rw [hkinds] at hshapes
  obtain ⟨hsa, hrest⟩ := List.cons.inj hshapes
  obtain ⟨hsb, hrest⟩ := List.cons.inj hrest
  have hsc := List.singleton_inj.mp hrest
  have hcomponent : A.component m [w.value a, w.value b, w.value c] 0 =
      op.lift (w.value a 0) (w.value b 0) (w.value c 0) := by
    rw [Node.ternary_component hop hnarrow, hadmits.literals.ternary]
  rw [ends_bind, Lowering.ends_scalarAt hna, ends_bind, Lowering.ends_scalarAt hnb, ends_bind,
    Lowering.ends_scalarAt hnc]
  by_cases hselect : op = .select
  · subst hselect
    have hresults : ∀ t ∈ TernaryOp.select.types, t.operands = [.bool, t.result, t.result] := by
      decide
    obtain ⟨rfl, htail⟩ := List.cons.inj (hkinds.symm.trans (hresults t ht))
    obtain ⟨rfl, hlast⟩ := List.cons.inj htail
    obtain rfl := List.singleton_inj.mp hlast
    rw [if_pos rfl]
    cases hx : na.scalar? with
    | none => exact .inl ⟨rfl, rfl⟩
    | some v =>
      obtain ⟨hkind, hvalue⟩ := literal_known hs ha hna hx
      have hbool : v.kind = .bool := congrArg (·.kind) (hkind.symm.trans hsa)
      cases v with
      | int | float => cases hbool
      | bool v =>
        cases v with
        | true =>
          refine .inr (known_yields hs hnarrow hb (by rw [hsb, hshape]) fun h => ?_)
          rw [hcomponent, hvalue h]
          rfl
        | false =>
          refine .inr (known_yields hs hnarrow hc (by rw [hsc, hshape]) fun h => ?_)
          rw [hcomponent, hvalue h]
          rfl
  · rw [if_neg hselect]
    split
    · rename_i x y z hx hy hz
      obtain ⟨hka, hx⟩ := literal_known hs ha hna hx
      obtain ⟨hkb, hy⟩ := literal_known hs hb hnb hy
      obtain ⟨hkc, hz⟩ := literal_known hs hc hnc hz
      obtain ⟨rfl, -⟩ := Shape.mk.inj (hka.symm.trans hsa)
      obtain ⟨rfl, -⟩ := Shape.mk.inj (hkb.symm.trans hsb)
      obtain ⟨rfl, -⟩ := Shape.mk.inj (hkc.symm.trans hsc)
      have hlift : op.lift (some x) (some y) (some z) = op.eval? x y z := by
        cases op <;> first | rfl | exact absurd rfl hselect
      obtain ⟨r, hr, hkind⟩ := TernaryOp.lift_total ht hkinds
      rw [← hlift, hr]
      refine (literal_yields hadmits hs hformed hplain (by rw [hkind, hshape]) fun h => ?_).mono
        fun _ _ => Or.inr
      rw [hcomponent, hx h, hy h, hz h]
      exact hr
    · exact .inl ⟨rfl, rfl⟩

/-- Every node is folded. -/
theorem replace_ends (hadmits : Admits tracked simple A form)
    (hs : Sound (rulesFor tracked simple A form lowered).rules g w) (hn : g.node? id = some m)
    (hlive : ∀ c ∈ m.children, w.live c)
    (hfits : (rulesFor tracked simple A form lowered).rules.fits g.functions m.frame
      (m.children.map g.shapeAt)) :
    Ends (replace id) g
      (Folds tracked simple A form lowered g w id m (m.children.map w.value)) refused := by
  obtain ⟨htyped, hform, hplain⟩ := hfits
  have hformed : form m = true := hadmits.frame m ▸ (Bool.and_eq_true_iff.mp hform).1
  have hnarrow := hadmits.narrow m hformed
  have hplain' : simple → m.plain = true := fun h => m.plain_frame ▸ hplain h
  have htyped' := (Node.fits_frame.mp htyped).typed trivial
  have hchildren : m.children = m.op.children := rfl
  unfold replace
  rw [ends_bind, ends_node hn]
  cases hop : m.op with
  | unary op a =>
    rw [hop] at hchildren
    rw [hchildren] at hlive htyped' ⊢
    exact unary_ends hadmits hs hop hformed hplain' htyped' (hlive a (List.mem_singleton_self a))
  | binary op a b =>
    obtain ⟨t, happlied⟩ := Applied.of_typed hop hnarrow hformed hplain' htyped' hlive
    rw [hop] at hchildren
    rw [hchildren]
    exact binary_ends hadmits hs happlied
  | ternary op a b c =>
    rw [hop] at hchildren
    rw [hchildren] at hlive htyped' ⊢
    have hoperates := (Node.typed_ternary hop).mp htyped'
    exact ternary_ends hadmits hs hop hformed hplain' hoperates (hlive a (by simp [Operation.children]))
      (hlive b (by simp [Operation.children])) (hlive c (by simp [Operation.children]))
  | _ => exact .inl ⟨rfl, rfl⟩

/-- A node that writes a stream stays. -/
theorem replace_steady : Steady replace := by
  intro g id n channel hn hchannel
  obtain ⟨source, hop⟩ := Node.op_of_channel? hchannel
  unfold replace
  rw [runOn_bind, runOn_node hn]
  dsimp only
  rw [hop]
  rfl

/-- Folding gives every node another one that has its value. -/
theorem replaces (hadmits : Admits tracked simple A form) :
    Replaces (rulesFor tracked simple A form lowered).rules
      (rulesFor tracked simple A form lowered).rules (fun _ _ => True) replace refused := by
  intro g w id n hs hinv hn hdead hlive hfits
  have hmeaning : (rulesFor tracked simple A form lowered).rules.meaning g.functions n.frame
      (n.children.map g.shapeAt) (n.children.map w.value) =
        A.denote n (n.children.map w.value) := A.denote_frame n _
  rw [hmeaning]
  have hstay : ∃ w', True ∧ Replaced (rulesFor tracked simple A form lowered).rules g w id n
      (A.denote n (n.children.map w.value)) id g w' := by
    obtain ⟨rank, hreplaced⟩ := Replaced.stay hs hn hdead hlive hfits fun _ => hmeaning.symm
    exact ⟨_, trivial, hreplaced⟩
  cases hchannel : n.channel? with
  | some channel =>
    rw [ends_of_runOn (replace_steady g id n channel hn hchannel)]
    exact hstay
  | none =>
    refine (replace_ends hadmits hs hn hlive hfits).mono ?_
    rintro new g' (⟨rfl, rfl⟩ | ⟨w', bound, hs', hext, hhas⟩)
    · exact hstay
    · exact ⟨w', trivial, Replaced.by_other hs' hext hhas rfl hchannel⟩

/-- After the pass values are as before, and so is the form of nodes. -/
theorem pass_ends_for (hadmits : Admits tracked simple A form) {made : List Delivery}
    (h : Stage (rulesFor tracked simple A form lowered).rules g made) (hne : made ≠ []) :
    Ends pass.run g (fun _ g' => Stage (rulesFor tracked simple A form lowered).rules g' made)
      refused :=
  Pass.upward_ends rfl (replaces hadmits) (fun h => h) (fun _ => Nat.le_refl 1) h hne rfl

/-- After the pass the values of a graph of scalars are as before. -/
theorem pass_ends {read : String → UInt32} (htracked : tracked → simple) {made : List Delivery}
    (h : Stage (rules tracked simple read lowered).rules g made) (hne : made ≠ []) :
    Ends pass.run g (fun _ g' => Stage (rules tracked simple read lowered).rules g' made)
      refused := by
  rw [rules_eq] at h ⊢
  exact pass_ends_for (.scalars htracked read) h hne

/-- Nodes are narrow. -/
theorem narrow_of_form {n : Node} {shapes : List Shape} (h : Folding.form lowered n shapes = true) :
    n.narrow = true := by
  unfold Folding.form at h
  rw [Bool.and_eq_true] at h
  exact h.1

end

end LaneGraph.Folding
