import LaneGraph.Proofs.Sketches

/-!
# Types are deduced

A draft is a graph as its factories leave it: where the shapes of all operands
are known, a node has chosen what it does with them, but an operand may have
another kind than the node expects, or be one component where a vector is
expected. Deduction converts and spreads such operands, or refuses the graph.
The value of a node does not change, since a draft already means its operands to
be converted and spread. This is so even where a call has recorded another choice
than it made, but then only its shape is known afterwards.
-/

namespace LaneGraph

open Build

/-- A draft: its nodes are as their factories resolve them where all operands are
known, and operands are meant to be brought to the shapes that are expected. -/
def draftRulesOf (exact tracked : Prop) (S : Semantics) (coerce : Shape → Shape → Value → Value) :
    Rules where
  tracked := tracked
  fits functions n shapes :=
    (n.shape.isUnknown = false → n.shape.Sized) ∧
      ((∀ s ∈ shapes, s.isUnknown = false) → n.Sketched exact functions shapes)
  meaning functions n shapes values :=
    S.denote n ((shapes.zip values).zipIdx.map fun p =>
      coerce (n.expected functions p.2) p.1.1 p.1.2)
  need _ := 1
  mono _ _ _ values values' h := by
    have heq : values = values' := by
      rw [← List.forall₂_eq_eq_eq]
      exact h
    subst heq
    exact Agreement.equal.refl _

/-- A draft on the literals of the program. -/
def draftRules (exact tracked : Prop) (read : String → UInt32) : Rules :=
  draftRulesOf exact tracked (.literal read) Value.coerce

namespace Semantics

/-- A value of some shape, brought to a kind: it is converted unless it has the kind. -/
def recast (S : Semantics) (kind : Kind) (actual : Shape) (v : Value) : Value :=
  if kind = actual.kind then v
  else S.denote { op := .unary .convert 0, shape := ⟨kind, actual.width⟩,
                  inputWidth := actual.width, overload := some 0 } [v]

/-- A scalar, spread to a shape. -/
def spread (S : Semantics) (expected : Shape) (v : Value) : Value :=
  S.denote { op := .construct (List.replicate expected.width 0), shape := expected, inputWidth := 1,
             overload := some 0 } (List.replicate expected.width v)

/-- Which scalar is spread does not matter beside its value. -/
theorem denote_spread (S : Semantics) (expected : Shape) (id : NodeId) (v : Value) :
    S.denote { op := .construct (List.replicate expected.width id), shape := expected,
               inputWidth := 1, overload := some 0 } (List.replicate expected.width v) =
      S.spread expected v := by
  unfold spread
  rw [← S.frame]
  unfold Node.frame Operation.mapChildren
  dsimp only
  rw [List.map_replicate]

/-- What operands are meant to be is what becomes of them: one that is as expected stays,
and any other is recast and spread. -/
structure Coerces (S : Semantics) (coerce : Shape → Shape → Value → Value) : Prop where
  stays : ∀ {expected actual : Shape} {v : Value}, actual.Sized →
    expected.isUnknown = true ∨ expected = actual → coerce expected actual v = v
  recasts : ∀ {expected actual : Shape} {v : Value}, expected.Sized → actual.Sized →
    expected ≠ actual → expected.width = actual.width → (∀ k, actual.width ≤ k → v k = none) →
    coerce expected actual v = S.recast expected.kind actual v
  spreads : ∀ {expected actual : Shape} {v : Value}, expected.Sized → actual.Sized →
    actual.width = 1 → 1 < expected.width → (∀ k, actual.width ≤ k → v k = none) →
    coerce expected actual v = S.spread expected (S.recast expected.kind actual v)

/-- On the literals of the program, a value of another kind is converted component by
component. -/
theorem recast_literal (read : String → UInt32) {kind : Kind} {actual : Shape} {v : Value}
    (hnone : ∀ k, actual.width ≤ k → v k = none) :
    (literal read).recast kind actual v = fun k => (v k).bind fun s =>
      if kind = actual.kind then some s else s.convert? kind := by
  unfold recast
  funext k
  by_cases hkind : kind = actual.kind
  · simp only [if_pos hkind]
    cases v k <;> rfl
  · simp only [if_neg hkind]
    by_cases hk : k < actual.width
    · exact if_pos hk
    · rw [hnone k (Nat.le_of_not_lt hk)]
      exact if_neg hk

/-- Literals of the program are meant to be converted and spread. -/
theorem literal_coerces (read : String → UInt32) : (literal read).Coerces Value.coerce where
  stays _ h := by
    unfold Value.coerce
    rw [if_pos h]
  recasts {expected actual v} hexpected _ hne hwidth hnone := by
    rw [recast_literal read hnone]
    funext k
    unfold Value.coerce
    rw [if_neg (by rw [not_or, hexpected.not_unknown]; exact ⟨Bool.false_ne_true, hne⟩)]
    by_cases hk : k < expected.width
    · rw [if_pos hk, if_neg (by omega)]
    · rw [if_neg hk, hnone k (by omega)]
      rfl
  spreads {expected actual v} hexpected _ hone hwide hnone := by
    rw [recast_literal read hnone]
    funext k
    unfold Value.coerce spread
    rw [if_neg (by
      rw [not_or, hexpected.not_unknown]
      refine ⟨Bool.false_ne_true, ?_⟩
      rintro rfl
      omega)]
    show _ = if k < expected.width then _ else none
    by_cases hk : k < expected.width
    · rw [if_pos hk, if_pos hk, if_pos (by omega)]
      refine Eq.symm ?_
      unfold Node.component
      dsimp only
      rw [List.getElem?_replicate, if_pos hk, Option.bind_some]
    · rw [if_neg hk, if_neg hk]

end Semantics

namespace Typing

/-- The rules for deduced types. -/
def rulesOf (tracked : Prop) (S : Semantics) (exact : Prop := True) : TypedRules :=
  { tracked, simple := False, semantics := S, form := fun _ _ => true, need := fun _ => 1, exact }

/-- The rules for deduced types on the literals of the program. -/
def rules (tracked : Prop) (read : String → UInt32) : TypedRules := rulesOf tracked (.literal read)

/-- The rules for deduced types, where little is known of a call unless calls are exact. -/
abbrev looseRules (exact tracked : Prop) (S : Semantics) : Rules :=
  (rulesOf tracked S exact).rules

variable {exact tracked : Prop} {S : Semantics} {coerce : Shape → Shape → Value → Value}
  {g : Graph} {w : World}

section Loose

variable (hs : Sound (looseRules exact tracked S) g w)

include hs

/-- The shapes of nodes that matter are sized. -/
theorem sized {id : NodeId} (hid : w.live id) : (g.shapeAt id).Sized := by
  obtain ⟨n, hn, hsound⟩ := hs id hid
  rw [Graph.shapeAt_eq hn]
  exact hsound.sized

/-- Values have no components beyond the shapes of their nodes. -/
theorem value_eq_none (ht : tracked) {id : NodeId} (hid : w.live id) {k : Nat}
    (hk : (g.shapeAt id).width ≤ k) : w.value id k = none := by
  obtain ⟨n, hn, hsound⟩ := hs id hid
  rw [Graph.shapeAt_eq hn] at hk
  have hvalue : w.value id = S.denote n.frame (n.children.map w.value) := hsound.value ht
  rw [hvalue]
  exact S.beyond n.frame _ k hk

/-- A typed node may be added, and all is known about it. -/
theorem added (bound : Nat) {n : Node} (htyped : n.Typed g.functions (n.children.map g.shapeAt))
    (hlive : ∀ c ∈ n.children, w.live c) (hbound : ∀ c ∈ n.children, w.rank c + 1 ≤ bound) :
    ∃ w', Sound (looseRules exact tracked S) (g.push n) w' ∧ Extends g w (g.push n) w' ∧
      Has (looseRules exact tracked S) (g.push n) w' g.nodes.size n.shape
        (S.denote n (n.children.map w.value)) bound :=
  Sound.added hs bound ⟨Node.fits_frame.mpr htyped.fits, rfl, fun h => h.elim⟩ hlive hbound

end Loose

/-- A value of the expected kind, but of the width that it had. -/
def Converted (exact tracked : Prop) (S : Semantics) (g : Graph) (w : World) (child : NodeId)
    (expected : Shape) (id : NodeId) (g' : Graph) : Prop :=
  ∃ w', Sound (looseRules exact tracked S) g' w' ∧ Extends g w g' w' ∧ w'.live id ∧
    g'.shapeAt id = ⟨expected.kind, (g.shapeAt child).width⟩ ∧
    (tracked → w'.value id = S.recast expected.kind (g.shapeAt child) (w.value child))

/-- A value of another kind is converted. -/
theorem convert_ends (hs : Sound (looseRules exact tracked S) g w) {child : NodeId}
    {expected : Shape} (hchild : w.live child) (hexpected : expected.Sized)
    (hkind : expected.kind ≠ (g.shapeAt child).kind) :
    Ends (convert child expected.kind) g (Converted exact tracked S g w child expected) := by
  have hsized := sized hs hchild
  let n : Node :=
    { op := .unary .convert child, shape := ⟨expected.kind, (g.shapeAt child).width⟩,
      inputWidth := (g.shapeAt child).width, overload := some 0 }
  have htyped : n.Typed g.functions (n.children.map g.shapeAt) :=
    ⟨g.shapeAt child, rfl, hsized, hexpected.known, rfl, rfl⟩
  obtain ⟨w', hs', hext, hhas⟩ := added hs (w.rank child + 1) (n := n) htyped
    (fun c hc => List.mem_singleton.mp hc ▸ hchild)
    fun c hc => by rw [List.mem_singleton.mp hc]
  rw [ends_of_runOn (runOn_convert hexpected.known hsized)]
  refine ⟨w', hs', hext, hhas.live, hhas.shape, fun ht => (hhas.value ht).symm.trans ?_⟩
  unfold Semantics.recast
  rw [if_neg hkind]
  exact (S.frame n _).symm

/-- A value of the expected kind is spread if it is a scalar, and has to have the
expected width otherwise. -/
theorem spread_ends (hcoerce : tracked → S.Coerces coerce)
    (hs : Sound (looseRules exact tracked S) g w) {child id : NodeId}
    {expected : Shape} {g₁ : Graph} (hchild : w.live child) (hexpected : expected.Sized)
    (hne : expected ≠ g.shapeAt child) (h : Converted exact tracked S g w child expected id g₁) :
    Ends (do
      let shape ← Build.shape id
      if shape.width < expected.width ∧ shape.isScalar then construct expected [id]
      else if shape.width ≠ expected.width then
        throw (.implicitConversion (g.shapeAt child) expected)
      else return id) g₁
      (Yields (looseRules exact tracked S) g w expected
        (coerce expected (g.shapeAt child) (w.value child))) := by
  obtain ⟨w₁, hs₁, hext₁, hlive, hshape, hvalue⟩ := h
  obtain ⟨m, hm⟩ := hs₁.node hlive
  have hmshape : m.shape = ⟨expected.kind, (g.shapeAt child).width⟩ := by
    rw [← Graph.shapeAt_eq hm, hshape]
  have hsized := sized hs hchild
  have hnone : tracked → ∀ k, (g.shapeAt child).width ≤ k → w.value child k = none :=
    fun ht _ hk => value_eq_none hs ht hchild hk
  rw [ends_bind, ends_shape hm, hmshape]
  dsimp only
  split
  · -- A scalar is spread.
    rename_i hspread
    have hone : (g.shapeAt child).width = 1 := of_decide_eq_true hspread.2
    let n : Node :=
      { op := .construct (List.replicate expected.width id), shape := expected, inputWidth := 1,
        overload := some 0 }
    have hscalar : g₁.shapeAt id = ⟨expected.kind, 1⟩ := by rw [hshape, hone]
    have hknown : g₁.Known [id] := by
      refine Graph.known_of_shapeAt fun c hc => ?_
      rw [List.mem_singleton.mp hc, hscalar]
      exact decide_eq_false hexpected.known
    have hmem : ∀ c ∈ n.children, c = id := fun c hc => List.eq_of_mem_replicate hc
    have htyped : n.Typed g₁.functions (n.children.map g₁.shapeAt) := by
      refine ⟨hexpected, rfl, ?_⟩
      show (List.replicate expected.width id).map g₁.shapeAt = _
      rw [List.map_replicate, hscalar]
    obtain ⟨w₂, hs₂, hext₂, hhas⟩ := added hs₁ (w₁.rank id + 1) (n := n) htyped
      (fun c hc => hmem c hc ▸ hlive)
      fun c hc => by rw [hmem c hc]
    rw [ends_of_runOn (runOn_construct_scalar hexpected hknown hscalar)]
    refine ⟨w₂, _, hs₂, hext₁.trans hext₂, hhas.live, hhas.shape, fun ht => ?_, hhas.rank⟩
    rw [(hcoerce ht).spreads hexpected hsized hone (by rw [← hone]; exact hspread.1) (hnone ht),
      ← hvalue ht]
    refine Eq.trans ?_ (hhas.value ht)
    rw [← S.denote_spread expected id, ← List.map_replicate]
    rfl
  · rename_i hspread
    split
    · trivial
    · rename_i hwidth
      have hsame : (g.shapeAt child).width = expected.width := not_not.mp hwidth
      refine ⟨w₁, _, hs₁, hext₁, hlive, ?_, fun ht => ?_, Nat.le_refl _⟩
      · rw [hshape, hsame]
      · rw [(hcoerce ht).recasts hexpected hsized hne hsame.symm (hnone ht)]
        exact (hvalue ht).symm

/-- A value that is made to fit a shape has it, and is converted and spread. -/
theorem fit_ends (hcoerce : tracked → S.Coerces coerce)
    (hs : Sound (looseRules exact tracked S) g w) {child : NodeId} {expected : Shape}
    (hchild : w.live child) (hexpected : expected.Sized) (hne : expected ≠ g.shapeAt child) :
    Ends (fit child (g.shapeAt child) expected) g
      (Yields (looseRules exact tracked S) g w expected
        (coerce expected (g.shapeAt child) (w.value child))) := by
  unfold fit
  dsimp only
  by_cases hkind : expected.kind ≠ (g.shapeAt child).kind
  · rw [if_pos hkind, ends_bind]
    exact (convert_ends hs hchild hexpected hkind).mono fun id g₁ h =>
      spread_ends hcoerce hs hchild hexpected hne h
  · have heq : expected.kind = (g.shapeAt child).kind := not_not.mp hkind
    rw [if_neg hkind, ends_bind, ends_pure]
    exact spread_ends hcoerce hs hchild hexpected hne
      ⟨w, hs, Extends.refl g w, hchild, by rw [heq], fun _ => (if_pos heq).symm⟩

/-- What an operand becomes. -/
structure Fits (tracked : Prop) (coerce : Shape → Shape → Value → Value) (g : Graph) (w : World)
    (n : Node) (g' : Graph) (w' : World) (operand : NodeId × Nat) (new : NodeId) : Prop where
  live : w'.live new
  shape : g'.shapeAt new = if (n.expected g.functions operand.2).isUnknown then
    g.shapeAt operand.1 else n.expected g.functions operand.2
  value : tracked → w'.value new = coerce (n.expected g.functions operand.2)
    (g.shapeAt operand.1) (w.value operand.1)

/-- Where the fitting of operands stands: nodes are added, and one node that does
not matter yet has other operands. -/
structure Fitting (R : Rules) (id : NodeId) (n : Node) (children : List NodeId) (g : Graph)
    (w : World) (g' : Graph) (w' : World) : Prop where
  sound : Sound R g' w'
  later : Later g w g' w'
  kept : ∀ x m, x ≠ id → g.node? x = some m → g'.node? x = some m
  fresh : ∀ x, w'.live x → w.live x ∨ g.nodes.size ≤ x
  node : ∃ m, g'.node? id = some m ∧ m.frame = n.frame ∧ m.children = children

/-- One operand is made to fit. -/
theorem fitChild_ends (hcoerce : tracked → S.Coerces coerce) {id child : NodeId} {m : Node}
    {before after : List NodeId}
    (hs : Sound (looseRules exact tracked S) g w) (hm : g.node? id = some m) (hdead : ¬w.live id)
    (hchildren : m.children = before ++ child :: after) (hchild : w.live child)
    (hexpected : (m.expected g.functions before.length).isUnknown = false →
      (m.expected g.functions before.length).Sized) :
    Ends (fitChild id before.length child) g fun _ g' => ∃ w' new,
      Fitting (looseRules exact tracked S) id m (before ++ new :: after) g w g' w' ∧
      Fits tracked coerce g w m g' w' (child, before.length) new := by
  obtain ⟨c, hc⟩ := hs.node hchild
  have hshape : c.shape = g.shapeAt child := (Graph.shapeAt_eq hc).symm
  unfold fitChild
  rw [ends_bind, ends_node hm, ends_bind, ends_get]
  dsimp only
  rw [Node.expectedShape_eq, ends_bind, ends_shape hc, hshape]
  generalize hexp : m.expected g.functions before.length = expected at hexpected ⊢
  by_cases hopen : expected.isUnknown = true ∨ expected = g.shapeAt child
  · rw [if_pos hopen, ends_pure]
    refine ⟨w, child, ⟨hs, Later.refl g w, fun _ _ _ h => h, fun _ h => .inl h, m, hm, rfl,
      hchildren⟩, hchild, ?_, fun ht => ?_⟩
    · dsimp only
      rw [hexp]
      split
      · rfl
      · rename_i hknown
        exact (hopen.resolve_left hknown).symm
    · dsimp only
      rw [hexp, (hcoerce ht).stays (sized hs hchild) hopen]
  · rw [if_neg hopen, ends_bind]
    rw [not_or] at hopen
    have hknown := Bool.eq_false_iff.mpr hopen.1
    refine (fit_ends hcoerce hs hchild (hexpected hknown) hopen.2).mono ?_
    rintro new g₁ ⟨w₁, bound, hs₁, hext, hhas⟩
    have hm₁ := hext.nodes id m hm
    have hdead₁ : ¬w₁.live id := by
      intro hlive
      rcases hext.fresh id hlive with hold | hsize
      · exact hdead hold
      · exact absurd (Graph.lt_size hm) (Nat.not_lt.mpr hsize)
    obtain ⟨hnew, hframe⟩ := Node.setChild_append hchildren new
    have hlater : Later g₁ w₁ (g₁.setNode id (m.setChild before.length new)) w₁ :=
      Sound.later_redirect w₁ hm₁ hframe fun hlive => absurd hlive hdead₁
    have hkept : ∀ x k, x ≠ id → g₁.node? x = some k →
        (g₁.setNode id (m.setChild before.length new)).node? x = some k := by
      intro x k hne hk
      rw [Graph.node?_setNode_of_ne _ hne]
      exact hk
    rw [ends_setChild hm₁]
    refine ⟨w₁, new, ⟨hs₁.of_kept hlater fun x k hx hk => hkept x k ?_ hk, hext.toLater.trans hlater,
      fun x k hne hk => hkept x k hne (hext.nodes x k hk), hext.fresh, _,
      Graph.node?_setNode_self _ hm₁, hframe, hnew⟩, hhas.live, ?_, fun ht => ?_⟩
    · rintro rfl
      exact hdead₁ hx
    · dsimp only
      rw [hlater.shapeAt hs₁ hhas.live, hhas.shape, hexp, hknown]
      rfl
    · dsimp only
      rw [hexp]
      exact (hhas.value ht).symm

/-- All operands are made to fit, one after the other. -/
theorem fitChildren_ends (hcoerce : tracked → S.Coerces coerce) {id : NodeId} (after : List NodeId) :
    ∀ {g : Graph} {w : World} {m : Node} {before : List NodeId},
      Sound (looseRules exact tracked S) g w → g.node? id = some m → ¬w.live id →
      m.children = before ++ after → (∀ c ∈ after, w.live c) →
      (∀ i, (m.expected g.functions i).isUnknown = false → (m.expected g.functions i).Sized) →
      Ends ((after.zipIdx before.length).forM fun (child, index) => fitChild id index child) g
        fun _ g' => ∃ w' new,
          Fitting (looseRules exact tracked S) id m (before ++ new) g w g' w' ∧
          List.Forall₂ (Fits tracked coerce g w m g' w') (after.zipIdx before.length) new := by
  induction after with
  | nil =>
    intro g w m before hs hm hdead hchildren _ _
    exact ⟨w, [], ⟨hs, Later.refl g w, fun _ _ _ h => h, fun _ h => .inl h, m, hm, rfl, hchildren⟩,
      .nil⟩
  | cons child after ih =>
    intro g w m before hs hm hdead hchildren hlive hexpected
    rw [List.zipIdx_cons, List.forM, ends_bind]
    refine (fitChild_ends hcoerce hs hm hdead hchildren (hlive child List.mem_cons_self)
      (hexpected before.length)).mono ?_
    rintro _ g₁ ⟨w₁, new, hfitting, hfits⟩
    obtain ⟨m₁, hm₁, hframe, hchildren₁⟩ := hfitting.node
    have hdead₁ : ¬w₁.live id := by
      intro h
      rcases hfitting.fresh id h with hold | hsize
      · exact hdead hold
      · exact absurd (Graph.lt_size hm) (Nat.not_lt.mpr hsize)
    have hsame : ∀ i, m₁.expected g₁.functions i = m.expected g.functions i := by
      intro i
      rw [hfitting.later.functions, ← m₁.expected_frame, hframe, m.expected_frame]
    have happend : before ++ new :: after = (before ++ [new]) ++ after := by
      rw [List.append_assoc, List.singleton_append]
    have hlength : (before ++ [new]).length = before.length + 1 := List.length_append
    have hnext := ih hfitting.sound hm₁ hdead₁ (hchildren₁.trans happend)
      (fun c hc => hfitting.later.live c (hlive c (List.mem_cons_of_mem _ hc)))
      (fun i h => hsame i ▸ hexpected i (hsame i ▸ h))
    rw [hlength] at hnext
    refine hnext.mono ?_
    rintro _ g₂ ⟨w₂, rest, hfitting₂, hrest⟩
    refine ⟨w₂, new :: rest, ⟨hfitting₂.sound, hfitting.later.trans hfitting₂.later,
      fun x k hne hk => hfitting₂.kept x k hne (hfitting.kept x k hne hk), fun x hx => ?_, ?_⟩,
      .cons ?_ ?_⟩
    · rcases hfitting₂.fresh x hx with hold | hsize
      · exact hfitting.fresh x hold
      · exact .inr (Nat.le_trans hfitting.later.size hsize)
    · obtain ⟨m₂, hm₂, hframe₂, hchildren₂⟩ := hfitting₂.node
      refine ⟨m₂, hm₂, hframe₂.trans hframe, ?_⟩
      rw [hchildren₂, List.append_assoc, List.singleton_append]
    · refine ⟨hfitting₂.later.live _ hfits.live, ?_, fun ht => ?_⟩
      · rw [hfitting₂.later.shapeAt hfitting.sound hfits.live, hfits.shape]
      · rw [hfitting₂.later.value _ hfits.live, hfits.value ht]
    · refine List.forall₂_iff_get.mpr ⟨hrest.length_eq, fun i hi hi' => ?_⟩
      have hget := hrest.get hi hi'
      have hmem : ((after.zipIdx (before.length + 1)).get ⟨i, hi⟩).1 ∈ after :=
        List.fst_mem_of_mem_zipIdx (List.get_mem _ _)
      have hold := hlive _ (List.mem_cons_of_mem child hmem)
      refine ⟨hget.live, ?_, fun ht => ?_⟩
      · rw [hget.shape, hsame, hfitting.later.shapeAt hs hold]
      · rw [hget.value ht, hsame, hfitting.later.shapeAt hs hold, hfitting.later.value _ hold]

/-- A sketched node stays as it is when it is resolved once more. -/
theorem resolve_ends {id : NodeId} {n : Node} (hn : g.node? id = some n)
    (hknown : g.Known n.children)
    (h : n.Sketched exact g.functions (n.children.map g.shapeAt))
    {post : Unit → Graph → Prop} (hpost : post () g) : Ends (resolve id) g post := by
  have hplain : Ends (resolvePlain id) g post := by
    unfold resolvePlain
    rw [ends_bind, ends_node hn]
    by_cases hoverload : n.overload.isSome = true
    · rw [if_pos hoverload]
      exact hpost
    · rw [if_neg hoverload, ends_bind, ends_ask (Graph.knownShapes?_eq hknown)]
      dsimp only
      rw [ends_bind, ends_get, ends_set,
        (h.resolved_eq (Option.not_isSome_iff_eq_none.mp hoverload)).1, Graph.setNode_self hn]
      exact hpost
  unfold resolve
  rw [ends_bind, ends_node hn]
  cases hop : n.op with
  | construct arguments =>
    have hoverload : n.overload.isSome = true := by
      by_contra hnone
      exact (h.resolved_eq (Option.not_isSome_iff_eq_none.mp hnone)).2 arguments hop
    dsimp only
    rw [if_pos hoverload]
    exact hpost
  | _ => exact hplain

end Typing

/-- What is expected of an operand is sized, if it is known. -/
theorem Node.expected_sized {functions : List Signature} {n : Node}
    (hshape : n.shape.isUnknown = false → n.shape.Sized) (index : Nat)
    (h : (n.expected functions index).isUnknown = false) :
    (n.expected functions index).Sized := by
  have hof : ∀ (kind : Kind) (width : Nat), (Shape.of kind width).isUnknown = false →
      (Shape.of kind width).Sized := by
    intro kind width hknown
    refine Shape.sized_of ?_ width
    unfold Shape.isUnknown at hknown
    rw [Shape.kind_of] at hknown
    exact of_decide_eq_false hknown
  revert h
  unfold expected Graph.expectedShape
  dsimp only
  intro h
  split at h
  case h_1 => exact hshape h
  case h_9 => exact hof _ _ h
  -- What an operator or a call expects is known if the operand has a place in its type.
  case h_5 | h_6 | h_7 | h_8 =>
    revert h
    split
    · exact hof _ _
    · intro h
      cases h
  all_goals cases h

/-- What a call expects of an operand is as wide as the widest argument that it was given,
if it expects anything. -/
theorem Node.expected_call {functions : List Signature} {n : Node} (hcall : n.op.isCall = true)
    (index : Nat) : (n.expected functions index).isUnknown = true ∨
      ∃ kind, n.expected functions index = Shape.of kind n.inputWidth := by
  unfold expected Graph.expectedShape
  cases hop : n.op with
  | call candidates arguments =>
    cases n.overload with
    | none => exact .inl rfl
    | some k =>
      dsimp only
      split
      · exact .inr ⟨_, rfl⟩
      · exact .inl rfl
  | _ =>
    rw [hop] at hcall
    cases hcall

/-- A call whose operands fit holds them. -/
theorem Node.Records.holds {functions : List Signature} {n : Node} {shapes : List Shape}
    (h : n.Records shapes) (hsized : ∀ s ∈ shapes, s.Sized) (hshape : n.shape.Sized) :
    n.Holds (n.fitted functions shapes) := by
  obtain ⟨kind, hkind⟩ := h.shape
  have hwidth : ∀ k, k ≠ .unknown → (Shape.of k n.inputWidth).width = n.inputWidth :=
    fun k hk => congrArg Shape.width (Shape.of_eq hk h.pos h.le_four)
  have hself : n.shape.width = n.inputWidth := by
    have hknown := hshape.known
    rw [hkind, Shape.kind_of] at hknown
    rw [hkind]
    exact hwidth kind hknown
  refine ⟨h.isCall, hshape, fun s hs => ?_⟩
  obtain ⟨i, hi⟩ := List.getElem?_of_mem hs
  rw [getElem?_fitted, Option.map_eq_some_iff] at hi
  obtain ⟨old, hold, hnew⟩ := hi
  have hmem := List.mem_of_getElem? hold
  rw [hself]
  split at hnew
  · exact hnew ▸ ⟨hsized old hmem, h.operands old hmem⟩
  · rename_i hunknown
    obtain ⟨k, hk⟩ := (expected_call h.isCall i).resolve_left hunknown
    have hknown : k ≠ .unknown := by
      rintro rfl
      exact hunknown (hk ▸ rfl)
    rw [← hnew, hk]
    exact ⟨Shape.sized_of hknown _, Nat.le_of_eq (hwidth k hknown)⟩

/-- A sketched node whose operands fit does so, if its shape is known. -/
theorem Node.Sketched.fits {exact : Prop} {functions : List Signature} {n : Node}
    {shapes : List Shape} (h : n.Sketched exact functions shapes) (hsized : ∀ s ∈ shapes, s.Sized)
    (hknown : n.shape.isUnknown = false) (hshape : n.shape.Sized) :
    n.Fits exact functions (n.fitted functions shapes) :=
  h.imp (fun hdrafted => hdrafted.typed hsized hknown hshape)
    fun hrecords => ⟨hrecords.1, hrecords.2.holds hsized hshape⟩

namespace Typing

variable {exact tracked : Prop} {S : Semantics} {coerce : Shape → Shape → Value → Value}
  {g : Graph} {w : World}

/-- Operands that fit have the shapes that fit. -/
theorem shapes_eq_fitted {n : Node} {g' : Graph} {w' : World} {new : List NodeId}
    (h : List.Forall₂ (Fits tracked coerce g w n g' w') (n.children.zipIdx 0) new) :
    new.map g'.shapeAt = n.fitted g.functions (n.children.map g.shapeAt) := by
  unfold Node.fitted
  rw [List.zipIdx_map, List.map_map]
  exact map_eq_map_of_forall₂ (h.imp fun p id hid => hid.shape)

/-- Operands that fit have the values that are meant. -/
theorem values_eq_coerced {n : Node} {g' : Graph} {w' : World} {new : List NodeId} (ht : tracked)
    (h : List.Forall₂ (Fits tracked coerce g w n g' w') (n.children.zipIdx 0) new) :
    new.map w'.value =
      (((n.children.map g.shapeAt).zip (n.children.map w.value)).zipIdx.map fun p =>
        coerce (n.expected g.functions p.2) p.1.1 p.1.2) := by
  rw [List.zip_map', List.zipIdx_map, List.map_map]
  exact map_eq_map_of_forall₂ (h.imp fun p id hid => hid.value ht)

/-- A sketched node is typed, or refused. -/
theorem replaces (hcoerce : tracked → S.Coerces coerce) :
    Replaces (draftRulesOf exact tracked S coerce) (looseRules exact tracked S)
      (fun _ _ => True) replace := by
  intro g w id n hs _ hn hdead hlive hfits
  obtain ⟨hshape, hdraft⟩ := hfits
  have hsized : ∀ s ∈ n.children.map g.shapeAt, s.Sized := by
    intro s hs'
    obtain ⟨c, hc, rfl⟩ := List.mem_map.mp hs'
    exact sized hs (hlive c hc)
  have hsketched : n.Sketched exact g.functions (n.children.map g.shapeAt) :=
    Node.sketched_frame.mp (hdraft fun s hs' => (hsized s hs').not_unknown)
  have hknown : g.Known n.children :=
    Graph.known_of_shapeAt fun c hc => (sized hs (hlive c hc)).not_unknown
  unfold replace
  rw [ends_bind]
  refine resolve_ends hn hknown hsketched ?_
  rw [ends_bind, ends_node hn]
  split
  · trivial
  rename_i hunknown
  have hknownShape := Bool.eq_false_iff.mpr hunknown
  rw [ends_bind]
  refine (fitChildren_ends hcoerce n.children hs hn hdead (List.nil_append n.children).symm hlive
    (Node.expected_sized hshape)).mono ?_
  rintro _ g' ⟨w', new, hfitting, hfits⟩
  rw [ends_pure]
  obtain ⟨m, hm, hframe, hchildren⟩ := hfitting.node
  rw [List.nil_append] at hchildren
  have hdead' : ¬w'.live id := by
    intro h
    rcases hfitting.fresh id h with hold | hsize
    · exact hdead hold
    · exact absurd (Graph.lt_size hn) (Nat.not_lt.mpr hsize)
  have hlive' : ∀ c ∈ m.children, w'.live c := by
    intro c hc
    rw [hchildren] at hc
    obtain ⟨i, hi, rfl⟩ := List.getElem_of_mem hc
    exact (hfits.get (by rw [hfits.length_eq]; exact hi) hi).live
  have hfits' : m.frame.Fits exact g'.functions (m.children.map g'.shapeAt) := by
    rw [hframe, hchildren, shapes_eq_fitted hfits, hfitting.later.functions, Node.fits_frame]
    exact hsketched.fits hsized hknownShape (hshape hknownShape)
  have hvalue : tracked → (draftRulesOf exact tracked S coerce).meaning g.functions n.frame
      (n.children.map g.shapeAt) (n.children.map w.value) =
        S.denote m.frame (m.children.map w'.value) := by
    intro ht
    rw [hchildren, values_eq_coerced ht hfits, hframe]
    show S.denote n.frame _ = S.denote n.frame _
    simp only [n.expected_frame]
  obtain ⟨rank, hstay⟩ := Replaced.stay (R := looseRules exact tracked S) hfitting.sound hm hdead'
    hlive' ⟨hfits', rfl, fun h => h.elim⟩ hvalue
  refine ⟨_, trivial, hstay.sound, hfitting.later.trans hstay.later, ?_, ?_, hstay.live, ?_,
    hstay.value, ?_⟩
  · intro x k hne hk
    exact hstay.kept x k hne (hfitting.kept x k hne hk)
  · intro x hx
    rcases hstay.fresh x hx with hold | heq | hsize
    · rcases hfitting.fresh x hold with hold | hsize
      · exact .inl hold
      · exact .inr (.inr hsize)
    · exact .inr (.inl heq)
    · exact .inr (.inr (Nat.le_trans hfitting.later.size hsize))
  · rw [hstay.shape]
    exact congrArg (fun k => k.shape) hframe
  · intro channel hchannel
    apply hstay.channel
    rw [← Node.channel?_frame, hframe, Node.channel?_frame]
    exact hchannel

/-- After the pass every node is typed but for calls that are not exact, and outputs deliver
what they are meant to. -/
theorem pass_ends_loose (hcoerce : tracked → S.Coerces coerce) {made : List Delivery}
    (h : Stage (draftRulesOf exact tracked S coerce) g made) (hne : made ≠ []) :
    Ends pass.run g fun _ g' => Stage (looseRules exact tracked S) g' made :=
  Pass.upward_ends rfl (replaces hcoerce) (fun h => h) (fun _ => Nat.le_refl 1) h hne rfl

/-- After the pass every node is typed, and outputs deliver what they are meant to. -/
theorem pass_ends_of (hcoerce : tracked → S.Coerces coerce) {made : List Delivery}
    (h : Stage (draftRulesOf True tracked S coerce) g made) (hne : made ≠ []) :
    Ends pass.run g fun _ g' => Stage (rulesOf tracked S).rules g' made :=
  pass_ends_loose hcoerce h hne

/-- After the pass every node is typed, and outputs deliver the literals of the program. -/
theorem pass_ends {read : String → UInt32} {made : List Delivery}
    (h : Stage (draftRules True tracked read) g made) (hne : made ≠ []) :
    Ends pass.run g fun _ g' => Stage (rules tracked read).rules g' made :=
  pass_ends_of (fun _ => Semantics.literal_coerces read) h hne

end Typing

end LaneGraph
