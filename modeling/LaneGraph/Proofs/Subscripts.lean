import LaneGraph.Proofs.Lacks
import LaneGraph.Proofs.Refusals

/-!
# Components that do not exist are refused

An output that selects a component beyond the shape of what it selects from delivers
something that lacks its first component. This is known where all that the selection
depends on is firm, and then it stays known: while types are deduced, while vector
operators are written out, and while vectors are split. In the end there are only
scalars, and none of them lacks its first component. So the pipeline cannot get there,
and the graph is refused.

A call without arguments is split into itself, whichever component is selected. There
the pipeline finds nothing to refuse.
-/

namespace LaneGraph

open Build

variable {g : Graph} {w : World} {made : List Delivery}

/-! ## Values by rank -/

/-- The value of a node under rules, following operands that rank below it. -/
def Rules.valueAt (R : Rules) (g : Graph) (rank : NodeId → Nat) (id : NodeId) : Value :=
  match g.node? id with
  | none => Value.absent
  | some n =>
    R.meaning g.functions n.frame (n.children.map g.shapeAt)
      (n.children.map fun c => if rank c < rank id then R.valueAt g rank c else Value.absent)
termination_by rank id

/-- The values of a sound world follow from those of operands, under any rules that ask the
same of nodes. -/
theorem Sound.valueAt_eq {R R' : Rules} (hs : Sound R g w) (hneed : ∀ op, 1 ≤ R.need op)
    {id : NodeId} {n : Node} (hid : w.live id) (hn : g.node? id = some n) :
    R'.valueAt g w.rank id = R'.meaning g.functions n.frame (n.children.map g.shapeAt)
      (n.children.map (R'.valueAt g w.rank)) := by
  have hsound := hs.nodeSound hid hn
  rw [Rules.valueAt, hn]
  dsimp only
  congr 1
  refine List.map_congr_left fun c hc => ?_
  rw [if_pos (hsound.rank_lt (hneed _) hc)]

/-- A sound world may have its values under any rules that ask the same of nodes. -/
theorem Sound.valued {R R' : Rules} (hs : Sound R g w) (hneed : ∀ op, 1 ≤ R.need op)
    (hfits : R'.fits = R.fits) (hneed' : R'.need = R.need) :
    Sound R' g { w with value := R'.valueAt g w.rank } := by
  intro id hid
  obtain ⟨n, hn, hsound⟩ := hs id hid
  refine ⟨n, hn, ?_, hsound.live, ?_, fun _ => ?_⟩
  · rw [hfits]
    exact hsound.fits
  · rw [hneed']
    exact hsound.below
  · dsimp only
    rw [hs.valueAt_eq hneed hid hn]
    exact R'.agreement.refl _

/-- Every entry of a list has a partner for its partner. -/
theorem exists_forall₂ {α β γ : Type} {R : α → β → Prop} {P : α → γ → Prop} {Q : β → γ → Prop}
    {xs : List α} {ys : List β} (h : List.Forall₂ R xs ys)
    (hz : ∀ x ∈ xs, ∀ y, R x y → ∃ z, P x z ∧ Q y z) :
    ∃ zs, List.Forall₂ P xs zs ∧ List.Forall₂ Q ys zs := by
  induction h with
  | nil => exact ⟨[], .nil, .nil⟩
  | @cons x y xs ys hxy _ ih =>
    obtain ⟨z, hx, hy⟩ := hz x List.mem_cons_self y hxy
    obtain ⟨zs, hxs, hys⟩ := ih fun x hx => hz x (List.mem_cons_of_mem _ hx)
    exact ⟨z :: zs, .cons hx hxs, .cons hy hys⟩

/-- A narrow node lacks its first component only if an operand does. -/
theorem Node.lacks_x_of_narrow {n : Node} (h : n.narrow = true) {ls : List Lack}
    (hls : ∀ l ∈ ls, l .x = false) (deep : Bool) : n.lacks deep ls .x = false := by
  have hany : ls.any (· .x) = false := List.any_eq_false.mpr fun l hl => by
    rw [hls l hl]
    exact Bool.false_ne_true
  have hselects := Node.not_selects_of_narrow h
  unfold lacks
  rw [Node.width_of_narrow h, hany]
  unfold selects at hselects
  cases hop : n.op <;> rw [hop] at hselects
  case swizzle components x => cases hselects
  case construct arguments =>
    cases hl : ls[Component.x.index]? with
    | none => rfl
    | some l => exact hls l (List.mem_of_getElem? hl)
  case unary op x =>
    cases op
    case convert => rfl
    all_goals exact Bool.and_false deep
  case output => rfl
  all_goals exact Bool.and_false deep

namespace Lack

/-! ## In a draft -/

/-- The rules of drafts where values tell what is lacking. -/
abbrev draft : Rules := draftRulesOf True True (reading false) (coerce false)

/-- The value of a node of a draft is what it makes of what its operands are meant to be. -/
theorem value_draft (hs : Sound draft g w) {id : NodeId} {n : Node} (hid : w.live id)
    (hn : g.node? id = some n) :
    w.value id = (reading false).denote n (n.children.zipIdx.map fun p =>
      coerce false (n.expected g.functions p.2) (g.shapeAt p.1) (w.value p.1)) := by
  refine ((hs.nodeSound hid hn).value trivial).trans ?_
  show (reading false).denote n.frame _ = _
  rw [List.zip_map', List.zipIdx_map, List.map_map, (reading false).frame]
  congr 1
  refine List.map_congr_left fun p _ => ?_
  show coerce false (n.frame.expected g.functions p.2) (g.shapeAt p.1) (w.value p.1) = _
  rw [n.expected_frame]

/-- Nodes of a draft are sized if their shapes are known. -/
theorem sized_draft (hs : Sound draft g w) {id : NodeId} (hid : w.live id)
    (hknown : (g.shapeAt id).isUnknown = false) : (g.shapeAt id).Sized := by
  obtain ⟨n, hn, hsound⟩ := hs id hid
  rw [Graph.shapeAt_eq hn] at hknown ⊢
  exact hsound.fits.1 hknown

/-- What a node expects is sized, if it is known. -/
theorem expected_draft (hs : Sound draft g w) {id : NodeId} {n : Node} (hid : w.live id)
    (hn : g.node? id = some n) (i : Nat) (hknown : (n.expected g.functions i).isUnknown = false) :
    (n.expected g.functions i).Sized := by
  have hshape : n.shape.isUnknown = false → n.shape.Sized := (hs.nodeSound hid hn).fits.1
  exact Node.expected_sized hshape i hknown

/-- It is known what a node of known shape lacks, if all that it depends on is firm. -/
theorem exists_of_draft (hs : Sound draft g w) {id : NodeId} (hid : w.live id)
    (hfirm : ∀ x n, Relation.ReflTransGen g.Uses id x → g.node? x = some n → n.firm = true)
    (hknown : (g.shapeAt id).isUnknown = false) : ∃ l, (w.value id).lack? = some l := by
  induction hr : w.rank id using Nat.strong_induction_on generalizing id with
  | _ r ih =>
    obtain ⟨n, hn, hsound⟩ := hs id hid
    have hpos : 1 ≤ n.shape.width := by
      rw [← Graph.shapeAt_eq hn]
      exact (sized_draft hs hid hknown).pos
    have hoperands : ∀ p ∈ n.children.zipIdx, ∃ l, (coerce false (n.expected g.functions p.2)
        (g.shapeAt p.1) (w.value p.1)).lack? = some l := by
      intro p hp
      have hmem := List.fst_mem_of_mem_zipIdx hp
      have hlive := hsound.live _ hmem
      have hchild : (g.shapeAt p.1).isUnknown = false →
          (g.shapeAt p.1).Sized ∧ ∃ l, (w.value p.1).lack? = some l := fun hchild =>
        ⟨sized_draft hs hlive hchild, ih (w.rank p.1) (hr ▸ hsound.rank_lt (Nat.le_refl 1) hmem)
          hlive (fun x m hx => hfirm x m (.head ⟨n, hn, hmem⟩ hx)) hchild rfl⟩
      obtain ⟨l, hl, -⟩ := exists_coerce (expected_draft hs hid hn p.2) hchild
      exact ⟨l, hl⟩
    obtain ⟨ls, hls, -⟩ := exists_forall₂ (Q := fun _ _ => True)
      (List.forall₂_same.mpr fun _ _ => rfl) fun p hp _ _ =>
        (hoperands p hp).imp fun _ hl => ⟨hl, trivial⟩
    rw [value_draft hs hid hn, denote_of_forall hpos (hfirm id n .refl hn)
      (List.forall₂_map_left_iff.mpr hls), Value.lack?_value]
    exact ⟨_, rfl⟩

/-- Nodes of a draft have values of their shapes. -/
theorem valueOf_draft (hs : Sound draft g w) {id : NodeId} (hid : w.live id) :
    (reading false).ValueOf (g.shapeAt id) (w.value id) := by
  obtain ⟨n, hn⟩ := hs.node hid
  have hvalue := value_draft hs hid hn
  exact ⟨n, _, (Graph.shapeAt_eq hn).symm, fun k _ hk => (congrFun hvalue k).symm.trans hk⟩

/-- A selection from a node of known shape expects nothing of it. -/
theorem expected_selection (hs : Sound draft g w) {id source : NodeId} {n : Node}
    {components : List Component} (hid : w.live id) (hn : g.node? id = some n)
    (hop : n.op = .swizzle components source) (hknown : (g.shapeAt source).isUnknown = false) :
    n.expected g.functions 0 = Shape.unknown := by
  have hdrafted : n.Drafted g.functions (n.children.map g.shapeAt) := by
    refine (Node.sketched_frame.mp ((hs.nodeSound hid hn).fits.2 ?_)).drafted
    unfold Node.children
    rw [hop]
    exact fun s hs => List.mem_singleton.mp hs ▸ hknown
  have hoverload : n.overload = none := by
    unfold Node.Drafted at hdrafted
    rw [hop] at hdrafted
    exact hdrafted.1
  unfold Node.expected Graph.expectedShape
  rw [hop, hoverload]

/-- A selection of a component beyond the shape of its source lacks its first component, if it
is known what it lacks. -/
theorem lacks_selection (hs : Sound draft g w) {id source : NodeId} {n : Node} {c : Component}
    (hid : w.live id) (hn : g.node? id = some n) (hop : n.op = .swizzle [c] source)
    (hmissing : (g.shapeAt source).width ≤ c.index) {l : Lack}
    (hl : (w.value id).lack? = some l) : l .x = true := by
  have hchildren : n.children = [source] := by
    unfold Node.children
    rw [hop]
    rfl
  have hlive : w.live source :=
    (hs.nodeSound hid hn).live _ (hchildren ▸ List.mem_singleton_self source)
  rw [value_draft hs hid hn, hchildren] at hl
  obtain ⟨-, -, ls, hls, rfl⟩ := exists_of_denote hl
  obtain ⟨l, rest, hsource, hnil, rfl⟩ := List.forall₂_cons_left_iff.mp hls
  cases hnil
  change (coerce false (n.expected g.functions 0) (g.shapeAt source) (w.value source)).lack? =
    some l at hsource
  -- The source lacks the component, and one of unknown shape lacks everything.
  have hlacks : l c = true := by
    unfold coerce at hsource
    by_cases hunknown : (g.shapeAt source).isUnknown = true
    · rw [if_pos hunknown, Value.lack?_value] at hsource
      cases hsource
      rfl
    · have hopen : (n.expected g.functions 0).isUnknown = true := by
        rw [expected_selection hs hid hn hop (Bool.eq_false_iff.mpr hunknown)]
        rfl
      rw [if_neg hunknown, if_pos (.inl hopen)] at hsource
      exact (eq_of_valueOf (valueOf_draft hs hlive)).2 l hsource c hmissing
  unfold Node.lacks
  rw [hop]
  show (_ || (l c || false)) = true
  rw [hlacks, Bool.true_or, Bool.or_true]

/-- An output whose source lacks its first component lacks it too. It is known if it is
known of the source. -/
theorem lacks_written (hs : Sound draft g w) {id source : NodeId} {n : Node} {channel : Channel}
    (hid : w.live id) (hn : g.node? id = some n) (hop : n.op = .output channel source)
    (hsized : (g.shapeAt id).Sized)
    (hsource : (g.shapeAt source).isUnknown = false → ∃ l, (w.value source).lack? = some l)
    (hlacks : ∀ l, (w.value source).lack? = some l → l .x = true) :
    ∃ l, (w.value id).lack? = some l ∧ l .x = true := by
  have hchildren : n.children = [source] := by
    unfold Node.children
    rw [hop]
    rfl
  have hlive : w.live source :=
    (hs.nodeSound hid hn).live _ (hchildren ▸ List.mem_singleton_self source)
  have hpos : 1 ≤ n.shape.width := by
    rw [← Graph.shapeAt_eq hn]
    exact hsized.pos
  have hchild : (g.shapeAt source).isUnknown = false →
      (g.shapeAt source).Sized ∧ ∃ l, (w.value source).lack? = some l := fun hknown =>
    ⟨sized_draft hs hlive hknown, hsource hknown⟩
  obtain ⟨l, hl, hx⟩ := exists_coerce (expected_draft hs hid hn 0) hchild
  rw [value_draft hs hid hn, hchildren, List.zipIdx_singleton, List.map_singleton]
  refine ⟨n.lacks false [l], ?_, ?_⟩
  · rw [denote_of_forall hpos (firm_output hop) (.cons hl .nil), Value.lack?_value]
  · rw [lacks_output hop, hx hlacks, Bool.or_true]

/-! ## In the pipeline -/

/-- Something is delivered that is known to lack its first component. -/
def Delivered (made : List Delivery) : Prop :=
  ∃ d ∈ made, ∃ l, d.value.lack? = some l ∧ l .x = true

/-- Where something is delivered there are deliveries. -/
theorem Delivered.ne_nil (h : Delivered made) : made ≠ [] := by
  obtain ⟨d, hd, -⟩ := h
  exact List.ne_nil_of_mem hd

/-- The rules under which vectors are split, where it is followed what operands lack. -/
abbrev splitting : TypedRules := Scalars.rulesOf True False (reading true) .growing

/-- What is known to be lacking is known if it is followed what operands lack. -/
theorem exists_deep {value : NodeId → Value}
    (hs : Sound ((Vectors.rules True False (reading false)).staged Scalars.unmixed) g w)
    (hvalue : ∀ id n, w.live id → g.node? id = some n →
      value id = (reading true).denote n (n.children.map value))
    {id : NodeId} (hid : w.live id) {l : Lack} (hl : (w.value id).lack? = some l) :
    ∃ l', (value id).lack? = some l' ∧ ∀ c, l c = true → l' c = true := by
  induction hr : w.rank id using Nat.strong_induction_on generalizing id l with
  | _ r ih =>
    obtain ⟨n, hn, hsound⟩ := hs id hid
    have hdenotes : w.value id = (reading false).denote n (n.children.map w.value) :=
      hsound.denotes trivial
    rw [hdenotes] at hl
    obtain ⟨hpos, hfirm, ls, hls, rfl⟩ := exists_of_denote hl
    obtain ⟨ls', hls', hmore⟩ := exists_forall₂ (List.forall₂_map_left_iff.mp hls)
      fun c hc l hl => ih (w.rank c) (hr ▸ hsound.rank_lt (Nat.le_refl 1) hc) (hsound.live c hc)
        hl rfl
    rw [hvalue id n hid hn, denote_of_forall hpos hfirm (List.forall₂_map_left_iff.mpr hls'),
      Value.lack?_value]
    exact ⟨_, rfl, fun c => Node.lacks_mono (fun h => absurd h Bool.false_ne_true) n hmore⟩

/-- Once vector operators are written out, it can be followed what operands lack. -/
theorem Delivered.deep (hlost : Delivered made)
    (h : Stage ((Vectors.rules True False (reading false)).staged Scalars.unmixed) g made) :
    ∃ made', Stage (splitting.staged Scalars.unmixed) g made' ∧ Delivered made' := by
  obtain ⟨w, hs, hwrites⟩ := h
  let value := (splitting.staged Scalars.unmixed).valueAt g w.rank
  have hneed : ∀ op, 1 ≤ ((Vectors.rules True False (reading false)).staged Scalars.unmixed).need op :=
    fun _ => Nat.le_refl 1
  have hvalue : ∀ id n, w.live id → g.node? id = some n →
      value id = (reading true).denote n (n.children.map value) := fun id n hid hn =>
    (hs.valueAt_eq hneed hid hn).trans ((reading true).frame n _)
  have hdelivers : ∀ id ∈ g.outputs, ∀ d : Delivery,
      (w.live id ∧ g.channelAt id = some d.channel ∧ (True → d.value = w.value id)) →
      ∃ d' : Delivery, (w.live id ∧ g.channelAt id = some d'.channel ∧
        (True → d'.value.Within (value id))) ∧
        ∀ l, d.value.lack? = some l → l .x = true → ∃ l', d'.value.lack? = some l' ∧ l' .x = true := by
    rintro id - d ⟨hid, hchannel, hd⟩
    refine ⟨⟨d.channel, value id⟩, ⟨hid, hchannel, fun _ => .refl _⟩, fun l hl hx => ?_⟩
    obtain ⟨l', hl', hmore⟩ := exists_deep hs hvalue hid (hd trivial ▸ hl)
    exact ⟨l', hl', hmore .x hx⟩
  obtain ⟨made', hwrites', hmore⟩ := exists_forall₂ hwrites hdelivers
  refine ⟨made', ⟨{ w with value := value }, hs.valued hneed rfl rfl, hwrites'⟩, ?_⟩
  obtain ⟨d, hd, l, hl, hx⟩ := hlost
  obtain ⟨i, hi, rfl⟩ := List.getElem_of_mem hd
  have hi' : i < made'.length := hmore.length_eq ▸ hi
  exact ⟨made'[i], List.getElem_mem hi', hmore.get hi hi' l hl hx⟩

/-- Parts of what lacks its first component lack theirs. -/
theorem Delivered.parts (h : Delivered made) :
    Delivered (made.flatMap (Delivery.partsOf (reading true))) := by
  obtain ⟨d, hd, l, hl, hx⟩ := h
  by_cases hcount : d.channel.format.count ≤ 1
  · refine ⟨d, List.mem_flatMap.mpr ⟨d, hd, ?_⟩, l, hl, hx⟩
    unfold Delivery.partsOf
    rw [if_pos hcount]
    exact List.mem_singleton_self d
  · refine ⟨⟨d.channel.component .x, (reading true).part d.value .x⟩,
      List.mem_flatMap.mpr ⟨d, hd, ?_⟩, single (l .x), ?_, hx⟩
    · unfold Delivery.partsOf
      rw [if_neg hcount]
      refine List.mem_map.mpr ⟨.x, ?_, rfl⟩
      obtain ⟨count, hd⟩ : ∃ count, d.channel.format.count = count + 1 :=
        ⟨d.channel.format.count - 1, by omega⟩
      rw [hd]
      exact List.mem_cons_self
    · show ((reading true).part d.value .x).lack? = _
      rw [part_eq, Value.lack?_value, hl]
      rfl

/-- Among scalars, nothing is known to lack its first component. -/
theorem not_lacks_of_narrow (hs : Sound (splitting.staged fun n _ => n.narrow) g w) {id : NodeId}
    (hid : w.live id) {l : Lack} (hl : (w.value id).lack? = some l) : l .x = false := by
  induction hr : w.rank id using Nat.strong_induction_on generalizing id l with
  | _ r ih =>
    obtain ⟨n, hn, hsound⟩ := hs id hid
    have hnarrow : n.narrow = true := n.narrow_frame ▸ hsound.fits.2.1
    have hwithin : (w.value id).Within ((reading true).denote n (n.children.map w.value)) :=
      hsound.denotes trivial
    obtain ⟨-, -, ls, hls, rfl⟩ := exists_of_denote (hwithin.lack? hl)
    refine Node.lacks_x_of_narrow hnarrow (fun l' hl' => ?_) true
    obtain ⟨i, hi, rfl⟩ := List.getElem_of_mem hl'
    rw [List.forall₂_map_left_iff] at hls
    have hi' : i < n.children.length := hls.length_eq ▸ hi
    have hmem := List.getElem_mem hi'
    exact ih (w.rank n.children[i]) (hr ▸ hsound.rank_lt (Nat.le_refl 1) hmem) (hsound.live _ hmem)
      (hls.get hi' hi) rfl

/-- No graph of scalars delivers anything that is known to lack its first component. -/
theorem Delivered.not_narrow (hlost : Delivered made)
    (h : Stage (splitting.staged fun n _ => n.narrow) g made) : False := by
  obtain ⟨w, hs, hwrites⟩ := h
  obtain ⟨d, hd, l, hl, hx⟩ := hlost
  obtain ⟨i, hi, rfl⟩ := List.getElem_of_mem hd
  have hi' : i < g.outputs.length := hwrites.length_eq ▸ hi
  obtain ⟨hlive, -, hvalue⟩ := hwrites.get hi' hi
  have hwithin : made[i].value.Within (w.value g.outputs[i]) := hvalue trivial
  rw [not_lacks_of_narrow hs hlive (hwithin.lack? hl)] at hx
  cases hx

/-- A draft that delivers something that is known to lack its first component is refused. -/
theorem Delivered.refused (hlost : Delivered made) (h : Stage draft g made) (wanted : Bool) :
    Ends (Pipeline.run wanted) g fun _ _ => False := by
  have hne := hlost.ne_nil
  rw [Pipeline.run_eq, ends_bind]
  refine (Pipeline.stage_ends (Typing.pass_ends_of (fun _ => coerces false) h hne) wanted).mono
    fun _ g₁ h₁ => ?_
  rw [ends_bind]
  suffices hends : Ends (Pipeline.afterTyping wanted) g₁ fun _ _ => False from
    hends.mono fun _ _ h => h.elim
  change Stage ((Vectors.rules True False (reading false)).staged fun _ _ => true) g₁ made at h₁
  unfold Pipeline.afterTyping
  rw [ends_bind]
  refine (Pipeline.stage_ends (Vectors.pass_ends (fun _ => written) (fun _ _ _ => trivial) h₁ hne)
    wanted).mono fun _ g₂ h₂ => ?_
  obtain ⟨made', h₃, hlost'⟩ := hlost.deep h₂
  exact Pipeline.split_ends (fun _ => separates False) hlost'.ne_nil h₃ wanted
    fun _ _ _ g₄ h₄ => (hlost'.parts.not_narrow h₄).elim

end Lack

namespace Graph

/-- An output writes the selection of one component of a node. -/
def Writes (g : Graph) (c : Component) (source : NodeId) : Prop :=
  ∃ output ∈ g.outputs, ∃ channel selection n m, g.node? output = some n ∧
    n.op = .output channel selection ∧ g.node? selection = some m ∧ m.op = .swizzle [c] source

/-- All that a node depends on is firm: no call without arguments, and no selection of more
than 255 components. -/
def FirmBelow (g : Graph) (id : NodeId) : Prop :=
  ∀ x n, Relation.ReflTransGen g.Uses id x → g.node? x = some n → n.firm = true

/-- What a draft delivers is known to lack its first component, if an output writes a component
that does not exist. -/
theorem Draft.delivered (h : g.Draft True w) {source : NodeId} {c : Component}
    (hwrites : g.Writes c source) (hmissing : (g.shapeAt source).width ≤ c.index)
    (hfirm : g.FirmBelow source) : ∃ made, Stage Lack.draft g made ∧ Lack.Delivered made := by
  obtain ⟨output, houtput, channel, selection, n, m, hn, hop, hm, hselects⟩ := hwrites
  have hs : Sound Lack.draft g { w with value := Lack.draft.valueAt g w.rank } :=
    h.sound.valued (fun _ => Nat.le_refl 1) rfl rfl
  have hlive := h.live_output houtput
  have hselection : w.live selection := h.live _ (lt_size hm)
  have hchannel : g.channelAt output = some channel := by
    unfold channelAt Node.channel?
    rw [hn, Option.bind_some, hop]
  have hfirmSelection : g.FirmBelow selection := by
    intro x k hx hk
    rcases hx.cases_head with rfl | ⟨y, ⟨m', hm', hy⟩, hx⟩
    · cases hm.symm.trans hk
      unfold Node.firm
      rw [hselects]
      rfl
    · cases hm.symm.trans hm'
      unfold Node.children at hy
      rw [hselects] at hy
      exact hfirm x k (List.mem_singleton.mp hy ▸ hx) hk
  obtain ⟨l, hl, hx⟩ := Lack.lacks_written hs hlive hn hop (h.sized output houtput)
    (fun hknown => Lack.exists_of_draft hs hselection hfirmSelection hknown)
    (fun _ hl => Lack.lacks_selection hs hselection hm hselects hmissing hl)
  refine ⟨_, ⟨_, hs, h.writes Lack.draft _⟩, ⟨channel, _⟩, ?_, l, hl, hx⟩
  refine List.mem_filterMap.mpr ⟨output, houtput, ?_⟩
  rw [hchannel]
  rfl

end Graph

/-- Components that do not exist never compile. Take a graph that is built by factories, where
calls have at most 256 candidates and none that requires more operands than it has inputs, with an
output that writes the selection of a single component of a node, and let the node have no
such component. If no call without arguments and no selection of more than 255 components is
among what the node depends on, then the pipeline refuses the graph: whatever the node is,
however deep the operators, conversions and calls that it is made of, and whether or not its
type can be deduced at all. -/
theorem pipeline_refuses_missing_component (g : Graph) (h : g.Built) (source : NodeId)
    (c : Component) (hwrites : g.Writes c source) (hmissing : (g.shapeAt source).width ≤ c.index)
    (hfirm : g.FirmBelow source) (wanted : Bool) :
    ∃ e, ((Pipeline.run wanted).runOn g).1 = .error e ∧ e.IsRefusal := by
  obtain ⟨w, hdraft⟩ := h.draft
  obtain ⟨made, hstage, hlost⟩ := hdraft.delivered hwrites hmissing hfirm
  have hends := hlost.refused hstage wanted
  unfold Build.Ends at hends
  cases hrun : (Pipeline.run wanted).runOn g with
  | mk result g' =>
    rw [hrun] at hends
    cases result with
    | ok stages => exact hends.elim
    | error e => exact ⟨e, rfl, hends⟩

namespace Beyond

/-- A pair is read. -/
def pair : Graph := ((Build.input ⟨"v", .of .float 2⟩).runOn Graph.empty).2

/-- The pair has no third component. -/
def third : Graph := ((Build.swizzle [.z] 0).runOn pair).2

/-- The third component of the pair is written. -/
def graph : Graph := ((Build.output ⟨"o", .of .float 1⟩ 1).runOn third).2

/-- The graph is made by three factories. -/
theorem built : graph.Built := by
  have hpair : pair.Built := .made .empty (.input "v" .float 2) rfl
  have hthird : third.Built := .made hpair (.swizzle [.z] (x := 0) (by decide)) rfl
  exact .made hthird (.output "o" .float 1 (x := 1) (by decide)) rfl

/-- The third component is written. -/
theorem writes : graph.Writes .z 0 :=
  ⟨2, by decide, ⟨"o", .of .float 1⟩, 1, _, _, rfl, rfl, rfl, rfl⟩

/-- A stream is firm. -/
theorem firmBelow : graph.FirmBelow 0 := by
  have hall : ∀ n ∈ graph.nodes, n.firm = true := by decide
  exact fun _ n _ hn => hall n (Array.mem_of_getElem? hn)

end Beyond

/-- The third component of a pair is refused. -/
theorem pipeline_refuses_missing_component_pair :
    (Beyond.graph.Built ∧ Beyond.graph.Writes .z 0 ∧
      (Beyond.graph.shapeAt 0).width ≤ Component.z.index ∧ Beyond.graph.FirmBelow 0) ∧
    ∃ e, ((Pipeline.run false).runOn Beyond.graph).1 = .error e ∧ e.IsRefusal :=
  ⟨⟨Beyond.built, Beyond.writes, by decide, Beyond.firmBelow⟩,
    pipeline_refuses_missing_component Beyond.graph Beyond.built 0 .z Beyond.writes (by decide)
      Beyond.firmBelow false⟩

namespace Unfounded

/-- A function without arguments is called. -/
def calling : Graph := ((Build.call [.ofInputs "f" [] .float] []).runOn Graph.empty).2

/-- A number has no second component. -/
def second : Graph := ((Build.swizzle [.y] 0).runOn calling).2

/-- The second component of the number is written. -/
def graph : Graph := ((Build.output ⟨"o", .of .float 1⟩ 1).runOn second).2

/-- The graph is made by three factories. -/
theorem built : graph.Built := by
  have hfactory : Factory Graph.empty (Build.call [.ofInputs "f" [] .float] []) :=
    .call (by decide) (by decide) (by decide)
  have hcalling : calling.Built := .made .empty hfactory rfl
  have hsecond : second.Built := .made hcalling (.swizzle [.y] (x := 0) (by decide)) rfl
  exact .made hsecond (.output "o" .float 1 (x := 1) (by decide)) rfl

end Unfounded

/-- The second component of what a function without arguments returns compiles, though that
is a single number. -/
theorem pipeline_passes_missing_component :
    Unfounded.graph.Built ∧ Unfounded.graph.Writes .y 0 ∧
      (Unfounded.graph.shapeAt 0).width = 1 ∧ Component.y.index = 1 ∧
      ((Pipeline.run false).runOn Unfounded.graph).1 = .ok [] :=
  ⟨Unfounded.built, ⟨2, by decide, ⟨"o", .of .float 1⟩, 1, _, _, rfl, rfl, rfl, rfl⟩, by decide, rfl,
    by decide +kernel⟩

end LaneGraph
