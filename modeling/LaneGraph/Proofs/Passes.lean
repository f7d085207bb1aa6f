import LaneGraph.Pass.Pipeline
import LaneGraph.Proofs.Downward
import LaneGraph.Proofs.Recipes

/-!
# Passes over staged graphs

A pass takes a graph from one stage to the next if its replacements do what its
sweep asks for. Before a downward sweep, ranks are spread so that a replacement
has room below the node it stands in for.
-/

namespace LaneGraph

open Build

variable {R R' : Rules} {g g' : Graph} {w w' : World} {made : List Delivery}
  {refused : GraphError → Prop}

/-- Questions with answers change nothing. -/
theorem Build.ends_forM {ids : List NodeId} {f : NodeId → Build Unit}
    (h : ∀ id ∈ ids, ∀ post : Unit → Graph → Prop, Ends (f id) g post refused ↔ post () g)
    {post : Unit → Graph → Prop} : Ends (ids.forM f) g post refused ↔ post () g := by
  induction ids with
  | nil => exact Iff.rfl
  | cons id rest ih =>
    rw [List.forM, ends_bind, h id List.mem_cons_self]
    exact ih fun x hx => h x (List.mem_cons_of_mem _ hx)

/-- Looking at nodes changes nothing. -/
theorem Build.checkedNodes_any (ids : List NodeId) :
    Ends (ids.forM fun id => do let _ ← ask (·.checkedNode id)) g (fun _ g' => g' = g)
      fun _ => True := by
  induction ids with
  | nil => exact rfl
  | cons id rest ih =>
    rw [List.forM, ends_bind, ends_bind, ends_ask_any]
    exact fun _ _ => ih

namespace Pass

/-- A pass whose sweep ends well does so. -/
theorem run_any (pass : Pass) {post : Unit → Graph → Prop}
    (h : Ends (match pass.direction with
      | .upward => sweepUpward pass.replace
      | .downward => sweepDownward pass.replace) g post fun _ => True) :
    Ends pass.run g post fun _ => True := by
  unfold Pass.run
  rw [ends_bind, ends_get]
  by_cases hnone : g.outputs.isEmpty = true
  · rw [if_pos hnone]
    trivial
  · rewrite [if_neg hnone, ends_bind]
    refine (checkedNodes_any g.outputs).mono ?_
    intro _ g₁ hsame
    rw [hsame]
    exact h

/-- A pass sweeps over a graph whose outputs matter. -/
theorem run_ends (pass : Pass) (h : Stage R g made) (hne : made ≠ [])
    {post : Unit → Graph → Prop} :
    Ends pass.run g post refused ↔
      Ends (match pass.direction with
        | .upward => sweepUpward pass.replace
        | .downward => sweepDownward pass.replace) g post refused := by
  obtain ⟨w, hs, hwrites⟩ := h
  have houtputs : g.outputs.isEmpty = false := by
    rw [List.isEmpty_eq_false_iff]
    intro hnil
    rw [hnil] at hwrites
    cases hwrites
    exact hne rfl
  unfold Pass.run
  rewrite [ends_bind, ends_get, if_neg (by rw [houtputs]; exact Bool.false_ne_true), ends_bind,
    ends_forM]
  · rfl
  · intro id hid post
    obtain ⟨n, hn⟩ := hs.node (hwrites.live hid)
    have hchecked : g.checkedNode id = .ok n := by
      unfold Graph.checkedNode
      rw [hn]
    rw [ends_bind, ends_ask hchecked, ends_pure]

/-- A graph without outputs is refused. -/
theorem runOn_of_no_outputs (pass : Pass) (h : g.outputs = []) :
    pass.run.runOn g = (.error .noOutputs, g) := by
  have hempty : g.outputs.isEmpty = true := List.isEmpty_iff.mpr h
  unfold Pass.run
  rw [runOn_bind]
  show (if g.outputs.isEmpty then _ else _ : Build _).runOn _ = _
  rw [if_pos hempty]
  rfl

/-- A pass that sweeps upward takes a graph from stage to stage, and the invariant
of its steps holds until the outputs are redirected. Outputs stay where nodes that
write streams do. -/
theorem upward_keeps {pass : Pass} {inv : Graph → World → Prop}
    (hdirection : pass.direction = .upward) (hreplace : Replaces R R' inv pass.replace refused)
    (hinv : ∀ g w id n, Sound R' g w → ¬w.live id → inv g w → inv (g.setNode id n) w)
    (hstart : ∀ w : World, inv g { w with live := fun _ => False })
    (htracked : R'.tracked → R.tracked) (hneed : ∀ op, 1 ≤ R.need op) (h : Stage R g made)
    (hne : made ≠ []) (hagree : R'.agreement = R.agreement) :
    Ends pass.run g (fun _ g' => (Steady pass.replace → g'.outputs = g.outputs) ∧
      ∃ w' outputs, Sound R' g' w' ∧ Writes R' g' w' g'.outputs made ∧
        inv { g' with outputs := outputs } w') refused := by
  rw [pass.run_ends h hne, hdirection]
  exact sweepUpward_ends hreplace hinv hstart htracked hneed h hagree

/-- A pass that sweeps upward takes a graph from stage to stage. -/
theorem upward_ends {pass : Pass} (hdirection : pass.direction = .upward)
    (hreplace : Replaces R R' (fun _ _ => True) pass.replace refused)
    (htracked : R'.tracked → R.tracked) (hneed : ∀ op, 1 ≤ R.need op) (h : Stage R g made)
    (hne : made ≠ []) (hagree : R'.agreement = R.agreement) :
    Ends pass.run g (fun _ g' => Stage R' g' made) refused := by
  refine (upward_keeps hdirection hreplace (fun _ _ _ _ _ _ h => h) (fun _ => trivial) htracked
    hneed h hne hagree).mono ?_
  rintro _ g' ⟨-, w', -, hs, hwrites, -⟩
  exact ⟨w', hs, hwrites⟩

/-- A pass that sweeps downward over a sound graph brings nodes into a form, and ranks are
spread to make room for what is added. Its steps may rely on an invariant. Outputs stay. -/
theorem downward_keeps {pass : Pass} {inv : Graph → World → Prop} (weight : Node → Nat)
    (form : Node → List Shape → Prop) (need : Operation → Nat)
    (hdirection : pass.direction = .downward)
    (hsettles : SettlesUnder inv { R with need := need } weight form pass.replace refused)
    (hweight : ∀ n, weight n ≤ 1) (hneed : ∀ op, 1 ≤ R.need op) (hneed' : ∀ op, R.need op ≤ need op)
    (hroom : ∀ op, need op ≤ 16) (hs : Sound R g w) (hwrites : Writes R g w g.outputs made)
    (hinv : ∀ rank, inv g { w with rank := rank }) (hne : made ≠ []) :
    Ends pass.run g (fun _ g' => g'.outputs = g.outputs ∧ ∃ w', Sound R g' w' ∧
      Writes R g' w' g'.outputs made ∧ ∀ id n, w'.live id → g'.node? id = some n →
        form n.frame (n.children.map g'.shapeAt)) refused := by
  rw [pass.run_ends ⟨w, hs, hwrites⟩ hne, hdirection]
  obtain ⟨rank, hs', hrank⟩ := hs.rescale { R with need := need } 16 hneed hroom rfl rfl rfl rfl
  have hwrites' : Writes { R with need := need } g { w with rank := rank } g.outputs made := hwrites
  refine (sweepDownward_ends hsettles hweight (fun op => Nat.le_trans (hneed op) (hneed' op)) hs'
    (hinv rank) hwrites' fun id hid => ?_).mono ?_
  · have hle := hrank id hid
    dsimp only
    omega
  · rintro _ g' ⟨houtputs, w', hs'', hform, hwrites''⟩
    refine ⟨houtputs, w', ?_, hwrites'', hform⟩
    intro id hid
    obtain ⟨n, hn, hsound⟩ := hs'' id hid
    refine ⟨n, hn, hsound.fits, hsound.live, fun c hc => ?_, hsound.value⟩
    have hbelow : w'.rank c + need n.frame.op ≤ w'.rank id := hsound.below c hc
    have hle := hneed' n.frame.op
    omega

/-- A pass that sweeps downward takes a graph from stage to stage: nodes get a
form, and ranks are spread to make room for what is added. Outputs stay. -/
theorem downward_ends {pass : Pass} (weight : Node → Nat) (form : Node → List Shape → Prop)
    (need : Operation → Nat) (hdirection : pass.direction = .downward)
    (hsettles : Settles { R with need := need } weight form pass.replace refused)
    (hweight : ∀ n, weight n ≤ 1) (hneed : ∀ op, 1 ≤ R.need op) (hneed' : ∀ op, R.need op ≤ need op)
    (hroom : ∀ op, need op ≤ 16) (h : Stage R g made) (hne : made ≠ []) :
    Ends pass.run g (fun _ g' => g'.outputs = g.outputs ∧ ∃ w', Sound R g' w' ∧
      Writes R g' w' g'.outputs made ∧ ∀ id n, w'.live id → g'.node? id = some n →
        form n.frame (n.children.map g'.shapeAt)) refused := by
  obtain ⟨w, hs, hwrites⟩ := h
  exact downward_keeps weight form need hdirection hsettles.under hweight hneed hneed' hroom hs
    hwrites (fun _ => trivial) hne

end Pass

namespace TypedRules

/-- The same rules for another form; a node only has to rank above its
operands. -/
def staged (t : TypedRules) (form : Node → List Shape → Bool) : Rules :=
  { t with form := form, need := fun _ => 1 : TypedRules }.rules

/-- Nodes that are in another form as well. -/
theorem stage_of_forall {t : TypedRules} {form form' : Node → List Shape → Bool} {w : World}
    (hs : Sound (t.staged form) g w) (hwrites : Writes (t.staged form) g w g.outputs made)
    (hform : ∀ id n, w.live id → g.node? id = some n →
      form' n.frame (n.children.map g.shapeAt) = true) :
    Stage (t.staged form') g made := by
  refine ⟨w, ?_, hwrites⟩
  intro id hid
  obtain ⟨n, hn, hsound⟩ := hs id hid
  obtain ⟨htyped, -, hplain⟩ := hsound.fits
  exact ⟨n, hn, ⟨htyped, hform id n hid hn, hplain⟩, hsound.live, hsound.below, hsound.value⟩

/-- A pass that sweeps downward brings the typed nodes of a sound graph into form, and its
steps may rely on an invariant. -/
theorem downward_keeps {t : TypedRules} {pass : Pass} {inv : Graph → World → Prop}
    {weight : Node → Nat} {form : Node → List Shape → Prop} (hdirection : pass.direction = .downward)
    (hsettles : SettlesUnder inv t.rules weight form pass.replace refused)
    (hweight : ∀ n, weight n ≤ 1) (hneed : ∀ op, 1 ≤ t.need op) (hroom : ∀ op, t.need op ≤ 16)
    {form' : Node → List Shape → Bool}
    (hform : ∀ n shapes, t.form n shapes = true → form n shapes → form' n shapes = true)
    (hs : Sound (t.staged t.form) g w) (hwrites : Writes (t.staged t.form) g w g.outputs made)
    (hinv : ∀ rank, inv g { w with rank := rank }) (hne : made ≠ []) :
    Ends pass.run g (fun _ g' => Stage (t.staged form') g' made) refused := by
  refine (Pass.downward_keeps (R := t.staged t.form) weight form t.need hdirection hsettles hweight
    (fun _ => Nat.le_refl 1) hneed hroom hs hwrites hinv hne).mono ?_
  rintro _ g' ⟨-, w', hs', hwrites', hformed⟩
  refine stage_of_forall hs' hwrites' ?_
  intro id n hid hn
  exact hform n.frame _ (hs'.nodeSound hid hn).fits.2.1 (hformed id n hid hn)

/-- A pass that sweeps downward brings typed nodes into form. -/
theorem downward_ends {t : TypedRules} {pass : Pass} {weight : Node → Nat} {form : Node → List Shape → Prop}
    (hdirection : pass.direction = .downward)
    (hsettles : Settles t.rules weight form pass.replace refused) (hweight : ∀ n, weight n ≤ 1)
    (hneed : ∀ op, 1 ≤ t.need op) (hroom : ∀ op, t.need op ≤ 16) {form' : Node → List Shape → Bool}
    (hform : ∀ n shapes, t.form n shapes = true → form n shapes → form' n shapes = true)
    (h : Stage (t.staged t.form) g made) (hne : made ≠ []) :
    Ends pass.run g (fun _ g' => Stage (t.staged form') g' made) refused := by
  obtain ⟨w, hs, hwrites⟩ := h
  exact downward_keeps hdirection hsettles.under hweight hneed hroom hform hs hwrites
    (fun _ => trivial) hne

end TypedRules

/-- A node that follows the rules may be added, and all is known about it. -/
theorem Sound.added {t : TypedRules} (hs : Sound t.rules g w) (bound : Nat) {n : Node}
    (hfits : t.rules.fits g.functions n.frame (n.children.map g.shapeAt))
    (hlive : ∀ c ∈ n.children, w.live c)
    (hbound : ∀ c ∈ n.children, w.rank c + t.need n.frame.op ≤ bound) :
    ∃ w', Sound t.rules (g.push n) w' ∧ Extends g w (g.push n) w' ∧
      Has t.rules (g.push n) w' g.nodes.size n.shape
        (t.semantics.denote n (n.children.map w.value)) bound := by
  let value := t.semantics.denote n (n.children.map w.value)
  have hsound : NodeSound t.rules g w n bound value :=
    ⟨hfits, hlive, hbound, fun _ => t.meaning_frame _ n _ _ ▸ t.agreement.refl value⟩
  exact ⟨w.add g.nodes.size bound value, hs.push n bound value hsound,
    Extends.push hs n bound value, World.has_add t.rules w (Graph.node?_push_size g n) bound value⟩

/-- A node that follows the rules may be added, and its value is what it makes of
what is known of its operands. -/
theorem Sound.added_of {t : TypedRules} (hs : Sound t.rules g w) (bound : Nat) {n : Node}
    (hfits : t.rules.fits g.functions n.frame (n.children.map g.shapeAt))
    (hlive : ∀ c ∈ n.children, w.live c)
    (hbound : ∀ c ∈ n.children, w.rank c + t.need n.frame.op ≤ bound) {values : List Value}
    (hvalues : t.tracked → List.Forall₂ t.agreement.le values (n.children.map w.value)) :
    ∃ w', Sound t.rules (g.push n) w' ∧ Extends g w (g.push n) w' ∧
      Has t.rules (g.push n) w' g.nodes.size n.shape (t.semantics.denote n values) bound := by
  obtain ⟨w', hs', hext, hhas⟩ := hs.added bound hfits hlive hbound
  exact ⟨w', hs', hext, hhas.weaken fun ht => t.agreement.mono t.semantics n (hvalues ht)⟩

/-- What is known of the operands of a recipe. -/
def Entry.operands (shapes : List Shape) (values : List Value) : List Entry :=
  List.zipWith (fun shape value => { shape, value }) shapes values

namespace Line

/-- The frames of lines are in form, and the result has a shape and a level below a
bound. -/
def fit (form : Node → List Shape → Bool) (need : Operation → Nat) (shapes : List Shape) (lines : List Line)
    (shape : Shape) (bound : Nat) : Bool :=
  match frames shapes lines with
  | none => false
  | some ns =>
    formed form shapes lines ns && ns.getLast?.map (·.shape) = some shape &&
      (levels need (shapes.map fun _ => 0) lines ns).getLastD 0 < bound

/-- The nodes of lines are plain. -/
def plain (shapes : List Shape) (lines : List Line) : Bool :=
  (frames shapes lines).all (·.all Node.plain)

/-- Lines that fit one form fit another one that all their nodes have then. -/
theorem fit_imp {form form' : Node → List Shape → Bool} {need : Operation → Nat}
    {shapes : List Shape} {lines : List Line} {shape : Shape} {bound : Nat}
    (hform : ∀ ns, frames shapes lines = some ns → ∀ n ∈ ns, ∀ shapes, form n shapes = true →
      form' n shapes = true)
    (h : fit form need shapes lines shape bound = true) :
    fit form' need shapes lines shape bound = true := by
  have hformed : ∀ (lines : List Line) (shapes : List Shape) (ns : List Node),
      (∀ n ∈ ns, ∀ shapes, form n shapes = true → form' n shapes = true) →
      formed form shapes lines ns = true → formed form' shapes lines ns = true := by
    intro lines
    induction lines with
    | nil => intro shapes ns _ _; cases ns <;> rfl
    | cons l rest ih =>
      intro shapes ns hns h
      cases ns with
      | nil => rfl
      | cons n ns =>
        rw [formed, Bool.and_eq_true] at h ⊢
        exact ⟨hns n List.mem_cons_self _ h.1,
          ih _ ns (fun m hm => hns m (List.mem_cons_of_mem _ hm)) h.2⟩
  unfold fit at h ⊢
  cases hns : frames shapes lines with
  | none =>
    rw [hns] at h
    cases h
  | some ns =>
    rw [hns] at h
    simp only [Bool.and_eq_true] at h ⊢
    exact ⟨⟨hformed _ _ _ (hform ns hns) h.1.1, h.1.2⟩, h.2⟩

/-- The nodes of lines that fit a form have it. -/
theorem form_of_fit {form : Node → List Shape → Bool} {need : Operation → Nat} {shapes : List Shape}
    {lines : List Line} {shape : Shape} {bound : Nat} {ns : List Node}
    (h : fit form need shapes lines shape bound = true) (hns : frames shapes lines = some ns) :
    ∀ n ∈ ns, ∃ shapes, form n shapes = true := by
  have hformed : ∀ (lines : List Line) (shapes : List Shape) (ns : List Node),
      frames shapes lines = some ns → formed form shapes lines ns = true →
      ∀ n ∈ ns, ∃ shapes, form n shapes = true := by
    intro lines
    induction lines with
    | nil =>
      intro shapes ns hns _ n hn
      cases hns
      cases hn
    | cons l rest ih =>
      intro shapes ns hns h n hn
      obtain ⟨m, ns, -, hrest, rfl⟩ := frames_cons hns
      rw [formed, Bool.and_eq_true] at h
      rcases List.mem_cons.mp hn with rfl | hn
      · exact ⟨_, h.1⟩
      · exact ih _ ns hrest h.2 n hn
  unfold fit at h
  rw [hns] at h
  simp only [Bool.and_eq_true] at h
  exact hformed lines shapes ns hns h.1.1

end Line

/-- Lines that are an expansion of a node: they make typed nodes in form, and the
result is like the node, but lower. -/
structure Expands (t : TypedRules) (n : Node) (shapes : List Shape) (values : List Value)
    (lines : List Line) : Prop where
  someLine : lines ≠ []
  someOperand : shapes ≠ []
  fit : Line.fit t.form t.need shapes lines n.shape (t.need n.frame.op) = true
  plain : t.simple → Line.plain shapes lines = true
  value : t.tracked → ∀ ns, Line.frames shapes lines = some ns → ∀ k < n.shape.width,
    (Line.result t (Entry.operands shapes values) lines ns).value k = t.semantics.denote n values k
  channel : n.channel? = none

/-- Nodes that matter and rank no higher than a base are known. -/
theorem HasAll.of_live {base : Nat} {ids : List NodeId} (hlive : ∀ c ∈ ids, w.live c)
    (hrank : ∀ c ∈ ids, w.rank c ≤ base) :
    HasAll R g w base ids (Entry.operands (ids.map g.shapeAt) (ids.map w.value)) := by
  induction ids with
  | nil => exact .nil
  | cons x xs ih =>
    exact .cons ((World.has R g (hlive x List.mem_cons_self)).mono (hrank x List.mem_cons_self))
      (ih (fun c hc => hlive c (List.mem_cons_of_mem _ hc))
        fun c hc => hrank c (List.mem_cons_of_mem _ hc))

/-- The operands of a node are known. -/
theorem Sound.hasAll (hs : Sound R g w) {id : NodeId} {n : Node} (hid : w.live id)
    (hn : g.node? id = some n) :
    HasAll R g w (w.rank id - R.need n.frame.op) n.children
      (Entry.operands (n.children.map g.shapeAt) (n.children.map w.value)) := by
  have hsound := hs.nodeSound hid hn
  refine HasAll.of_live hsound.live fun c hc => ?_
  have hbelow := hsound.below c hc
  omega

/-- The shapes of operands. -/
theorem Entry.operands_shapes {shapes : List Shape} {values : List Value}
    (h : shapes.length = values.length) : (operands shapes values).map (·.shape) = shapes := by
  unfold operands
  rw [List.map_zipWith]
  induction shapes generalizing values with
  | nil => rfl
  | cons s rest ih =>
    cases values with
    | nil => cases h
    | cons v values => exact congrArg (s :: ·) (ih (Nat.succ.inj h))

/-- The values of operands. -/
theorem Entry.operands_values {shapes : List Shape} {values : List Value}
    (h : shapes.length = values.length) : (operands shapes values).map (·.value) = values := by
  unfold operands
  rw [List.map_zipWith]
  induction shapes generalizing values with
  | nil => exact (List.eq_nil_of_length_eq_zero h.symm).symm
  | cons s rest ih =>
    cases values with
    | nil => cases h
    | cons v values => exact congrArg (v :: ·) (ih (Nat.succ.inj h))

/-- The levels of operands. -/
theorem Entry.operands_levels {shapes : List Shape} {values : List Value}
    (h : shapes.length = values.length) :
    (operands shapes values).map (·.level) = shapes.map fun _ => 0 := by
  unfold operands
  rw [List.map_zipWith]
  induction shapes generalizing values with
  | nil => rfl
  | cons s rest ih =>
    cases values with
    | nil => cases h
    | cons v values => exact congrArg (0 :: ·) (ih (Nat.succ.inj h))

/-- What an expansion results in. -/
theorem Expands.result {t : TypedRules} {n : Node} {shapes : List Shape} {values : List Value}
    {lines : List Line} (h : Expands t n shapes values lines)
    (hlength : shapes.length = values.length) :
    ∃ ns, Line.frames shapes lines = some ns ∧ Line.formed t.form shapes lines ns = true ∧
      (t.simple → ∀ m ∈ ns, m.plain = true) ∧
      (Line.result t (Entry.operands shapes values) lines ns).shape = n.shape ∧
      (t.tracked → (Line.result t (Entry.operands shapes values) lines ns).value =
        t.semantics.denote n values) ∧
      (Line.result t (Entry.operands shapes values) lines ns).level < t.need n.frame.op := by
  have hfit := h.fit
  unfold Line.fit at hfit
  cases hns : Line.frames shapes lines with
  | none =>
    rw [hns] at hfit
    cases hfit
  | some ns =>
    rw [hns] at hfit
    simp only [Bool.and_eq_true, decide_eq_true_eq] at hfit
    obtain ⟨⟨hform, hshape⟩, hlevel⟩ := hfit
    obtain ⟨init, last, inner, hentries, hlast, hlastShape, hlastValue⟩ :=
      Line.exists_result hns h.someLine t (Entry.operands shapes values)
    rw [hlast] at hshape
    have hresult := hlastShape.trans (Option.some.inj hshape)
    refine ⟨ns, rfl, hform, ?_, hresult, ?_, ?_⟩
    · intro hsimple
      have hplain := h.plain hsimple
      unfold Line.plain at hplain
      rw [hns] at hplain
      exact List.all_eq_true.mp hplain
    · intro ht
      funext k
      by_cases hk : k < n.shape.width
      · exact h.value ht ns hns k hk
      · have hle : n.shape.width ≤ k := Nat.le_of_not_lt hk
        rw [t.semantics.beyond n values k hle, hlastValue]
        exact t.semantics.beyond last inner k (by rw [← hlastShape, hresult]; exact hle)
    · have hlevels := Line.map_level_entries t (Entry.operands shapes values) lines ns
      rw [Entry.operands_levels hlength, hentries, List.map_append] at hlevels
      rw [← hlevels, List.map_singleton, List.getLastD_concat] at hlevel
      exact hlevel

/-- An expansion stands in for its node. -/
theorem Expands.moved {t : TypedRules} {id : NodeId} {n : Node} {lines : List Line}
    {form : Node → List Shape → Prop} (hs : Sound t.rules g w) (hid : w.live id)
    (hn : g.node? id = some n)
    (h : Expands t n (n.children.map g.shapeAt) (n.children.map w.value) lines) :
    Ends (Line.make n.children lines) g (Steps t.rules (fun _ => 0) form g w id n) refused := by
  have hsound := hs.nodeSound hid hn
  have hlength : (n.children.map g.shapeAt).length = (n.children.map w.value).length := by
    rw [List.length_map, List.length_map]
  have hshapes := Entry.operands_shapes hlength
  obtain ⟨ns, hns, hform, hplain, hshape, hvalue, hlevel⟩ := h.result hlength
  refine (Line.make_ends hs (hs.hasAll hid hn) h.someLine (by rw [hshapes]; exact hns)
    (by rw [hshapes]; exact hform) hplain).mono ?_
  rintro new g' ⟨w', hs', hext, hnew⟩
  have hrank : w'.rank new < w.rank id := by
    have hbound := hnew.rank
    obtain ⟨c, hc⟩ := List.exists_mem_of_ne_nil n.children fun hnil =>
      h.someOperand (by rw [hnil]; rfl)
    have hbelow : w.rank c + t.need n.frame.op ≤ w.rank id := hsound.below c hc
    have hneed : t.rules.need n.frame.op = t.need n.frame.op := rfl
    rw [hneed] at hbound
    omega
  refine ⟨w', hs', hext, .inr ⟨?_, ?_⟩⟩
  · rintro rfl
    rw [hext.rank _ hid] at hrank
    exact Nat.lt_irrefl _ hrank
  · obtain ⟨n', hn', -⟩ := hnew.node hs'
    refine ⟨⟨hnew.live, ?_, fun ht => ?_, ?_⟩, ⟨n', hn', hrank⟩, h.channel⟩
    · rw [hnew.shape, hshape, hext.shapeAt hs hid, Graph.shapeAt_eq hn]
    · rw [hext.value id hid]
      refine t.agreement.trans (hsound.denotes ht) ?_
      rw [← hvalue ht]
      exact hnew.value ht
    · rw [hext.rank id hid]
      exact Nat.le_of_lt hrank

/-- Where all nodes are plain, none is a number. -/
theorem Sound.kind_ne_float {t : TypedRules} (hs : Sound t.rules g w) (hsimple : t.simple)
    {id : NodeId} (hid : w.live id) : (g.shapeAt id).kind ≠ .float := by
  obtain ⟨n, hn, hsound⟩ := hs id hid
  rw [Graph.shapeAt_eq hn]
  exact Node.kind_of_plain (n.plain_frame ▸ hsound.fits.2.2 hsimple)

/-- Values have no components beyond the shapes of their nodes. -/
theorem Sound.value_eq_none {t : TypedRules} (hs : Sound t.rules g w) (ht : t.tracked)
    {id : NodeId} (hid : w.live id) {k : Nat} (hk : (g.shapeAt id).width ≤ k) :
    w.value id k = none := by
  obtain ⟨n, hn, hsound⟩ := hs id hid
  rw [Graph.shapeAt_eq hn] at hk
  refine Option.eq_none_iff_forall_ne_some.mpr fun s hvalue => ?_
  have hsome := t.agreement.within (hsound.denotes ht) k s hvalue
  rw [t.semantics.beyond n _ k hk] at hsome
  cases hsome

/-- An operand of the same shape and value stands in for a node. -/
theorem Steps.operand {t : TypedRules} {id c : NodeId} {n : Node}
    {form : Node → List Shape → Prop} (hs : Sound t.rules g w) (hid : w.live id)
    (hn : g.node? id = some n) (hneed : ∀ op, 1 ≤ t.need op) (hc : c ∈ n.children)
    (hshape : g.shapeAt c = n.shape)
    (hvalue : t.tracked → ∀ k < n.shape.width,
      w.value c k = t.semantics.denote n (n.children.map w.value) k)
    (hchannel : n.channel? = none) : Steps t.rules (fun _ => 0) form g w id n c g := by
  have hsound := hs.nodeSound hid hn
  have hlive := hsound.live c hc
  have hrank : w.rank c < w.rank id := by
    have hbelow : w.rank c + t.need n.frame.op ≤ w.rank id := hsound.below c hc
    have hpos := hneed n.frame.op
    omega
  obtain ⟨m, hm⟩ := hs.node hlive
  refine ⟨w, hs, Extends.refl g w, .inr ⟨?_, ?_⟩⟩
  · rintro rfl
    exact Nat.lt_irrefl _ hrank
  refine ⟨⟨hlive, ?_, fun ht => ?_, Nat.le_of_lt hrank⟩, ⟨m, hm, hrank⟩, hchannel⟩
  · rw [hshape, Graph.shapeAt_eq hn]
  · refine t.agreement.trans (hsound.denotes ht) ?_
    have hsame : t.semantics.denote n (n.children.map w.value) = w.value c := by
      funext k
      by_cases hk : k < n.shape.width
      · exact (hvalue ht k hk).symm
      · have hle : n.shape.width ≤ k := Nat.le_of_not_lt hk
        rw [t.semantics.beyond n _ k hle]
        exact (hs.value_eq_none ht hlive (by rw [hshape]; exact hle)).symm
    rw [hsame]
    exact t.agreement.refl _

/-- Nodes are added, and one that matters has a shape and a value. -/
def Yields (R : Rules) (g : Graph) (w : World) (shape : Shape) (value : Value) (new : NodeId)
    (g' : Graph) : Prop :=
  ∃ w' bound, Sound R g' w' ∧ Extends g w g' w' ∧ Has R g' w' new shape value bound

namespace Yields

variable {shape : Shape} {value : Value} {new : NodeId}

/-- A node that is there already may have the shape and the value. -/
theorem known (hs : Sound R g w) {c : NodeId} (hc : w.live c) (hshape : g.shapeAt c = shape)
    (hvalue : R.tracked → R.agreement.le value (w.value c)) : Yields R g w shape value c g :=
  ⟨w, w.rank c, hs, Extends.refl g w, hc, hshape, hvalue, Nat.le_refl _⟩

/-- What is added later is added. -/
theorem after (hext : Extends g w g' w') {g'' : Graph} (h : Yields R g' w' shape value new g'') :
    Yields R g w shape value new g'' := by
  obtain ⟨w'', bound, hs, hext', hhas⟩ := h
  exact ⟨w'', bound, hs, hext.trans hext', hhas⟩

/-- The value does not matter unless it is followed. -/
theorem congr {value' : Value} (h : Yields R g w shape value new g')
    (hvalue : R.tracked → R.agreement.le value' value) : Yields R g w shape value' new g' := by
  obtain ⟨w', bound, hs, hext, hhas⟩ := h
  exact ⟨w', bound, hs, hext, hhas.live, hhas.shape,
    fun ht => R.agreement.trans (hvalue ht) (hhas.value ht), hhas.rank⟩

/-- A node that is no output is replaced by one that has its shape and value. -/
theorem replaced (id : NodeId) {n : Node} (h : Yields R g w n.shape value new g')
    (hchannel : n.channel? = none) : ∃ w', Replaced R g w id n value new g' w' := by
  obtain ⟨w', bound, hs, hext, hhas⟩ := h
  exact ⟨w', Replaced.by_other hs hext hhas rfl hchannel⟩

/-- Lines that fit yield their result. -/
theorem of_lines {t : TypedRules} {ids : List NodeId} {lines : List Line} {bound : Nat}
    (hs : Sound t.rules g w) (hlive : ∀ c ∈ ids, w.live c) (hne : lines ≠ [])
    (hfit : Line.fit t.form t.need (ids.map g.shapeAt) lines shape bound = true)
    (hplain : t.simple → Line.plain (ids.map g.shapeAt) lines = true)
    (hvalue : t.tracked → ∀ ns, Line.frames (ids.map g.shapeAt) lines = some ns →
      ∀ k < shape.width, (Line.result t (Entry.operands (ids.map g.shapeAt) (ids.map w.value))
        lines ns).value k = value k)
    (hnone : ∀ k, shape.width ≤ k → value k = none) :
    Ends (Line.make ids lines) g (Yields t.rules g w shape value) refused := by
  have hlength : (ids.map g.shapeAt).length = (ids.map w.value).length := by
    rw [List.length_map, List.length_map]
  have hshapes := Entry.operands_shapes hlength
  let base := (ids.map w.rank).foldl max 0
  have hall : HasAll t.rules g w base ids (Entry.operands (ids.map g.shapeAt) (ids.map w.value)) :=
    HasAll.of_live hlive fun c hc => le_foldl_max (List.mem_map_of_mem hc) 0
  unfold Line.fit at hfit
  cases hns : Line.frames (ids.map g.shapeAt) lines with
  | none =>
    rw [hns] at hfit
    cases hfit
  | some ns =>
    rw [hns] at hfit
    simp only [Bool.and_eq_true, decide_eq_true_eq] at hfit
    obtain ⟨⟨hform, hshape⟩, -⟩ := hfit
    obtain ⟨_, last, inner, -, hlast, hlastShape, hlastValue⟩ :=
      Line.exists_result hns hne t (Entry.operands (ids.map g.shapeAt) (ids.map w.value))
    rw [hlast] at hshape
    have hresult := hlastShape.trans (Option.some.inj hshape)
    refine (Line.make_ends hs hall hne (by rw [hshapes]; exact hns) (by rw [hshapes]; exact hform)
      fun hsimple => ?_).mono ?_
    · have h := hplain hsimple
      unfold Line.plain at h
      rw [hns] at h
      exact List.all_eq_true.mp h
    · rintro new g' ⟨w', hs', hext, hnew⟩
      refine ⟨w', _, hs', hext, hnew.live, hnew.shape.trans hresult, fun ht => ?_, hnew.rank⟩
      have hsame : value = (Line.result t (Entry.operands (ids.map g.shapeAt) (ids.map w.value))
          lines ns).value := by
        funext k
        by_cases hk : k < shape.width
        · exact (hvalue ht ns hns k hk).symm
        · have hle : shape.width ≤ k := Nat.le_of_not_lt hk
          rw [hnone k hle, hlastValue]
          exact (t.semantics.beyond last inner k (by rw [← hlastShape, hresult]; exact hle)).symm
      rw [hsame]
      exact hnew.value ht

end Yields

end LaneGraph
