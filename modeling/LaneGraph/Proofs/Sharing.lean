import LaneGraph.Proofs.Evaluation
import LaneGraph.Proofs.Folding

/-!
# Equal nodes are shared

A node is replaced by an earlier one that does the same to the same operands.
Operands of a commutative operator may stand in either order. Fingerprints narrow
the search: whether two nodes are the same is decided by comparing them, so that
colliding fingerprints do no harm, and nodes that are the same have the same
fingerprint, so that none of them is missed. What is replaced depends on the
current operands of a node, which are representatives already.
-/

namespace LaneGraph

open Build

namespace Graph

variable {g g' : Graph} {m n : Node}

/-- The operations of two nodes are equal and choose the same candidate, or a
commutative operator has its operands the other way round. -/
def Matching (m n : Node) : Prop :=
  (m.op = n.op ∧ ∀ candidates arguments, m.op = .call candidates arguments →
    m.overload = n.overload) ∨
  ∃ op l r, op.isCommutative = true ∧ m.op = .binary op l r ∧ n.op = .binary op r l

/-- Matching goes both ways. -/
theorem Matching.symm (h : Matching m n) : Matching n m := by
  rcases h with ⟨hop, hoverload⟩ | ⟨op, l, r, hcommutes, hm, hn⟩
  · refine .inl ⟨hop.symm, fun candidates arguments hn => ?_⟩
    exact (hoverload candidates arguments (hop.trans hn)).symm
  · exact .inr ⟨op, r, l, hcommutes, hn, hm⟩

/-- Nodes are the same if they have one shape and their operations match. -/
theorem sameNode_iff : sameNode m n = true ↔ m.shape = n.shape ∧ Matching m n := by
  unfold sameNode Matching
  rw [Bool.and_eq_true, decide_eq_true_eq]
  refine and_congr_right fun _ => ?_
  split
  · rename_i op l r op' l' r' hm hn
    rw [hm, hn]
    constructor
    · intro h
      simp only [Bool.and_eq_true, Bool.or_eq_true, decide_eq_true_eq] at h
      obtain ⟨rfl, ⟨rfl, rfl⟩ | ⟨⟨hcommutes, rfl⟩, rfl⟩⟩ := h
      · exact .inl ⟨rfl, fun _ _ h => nomatch h⟩
      · exact .inr ⟨op, l, r, hcommutes, rfl, rfl⟩
    · rintro (⟨hop, -⟩ | ⟨op₁, x, y, hcommutes, hx, hy⟩)
      · cases hop
        simp
      · cases hx
        cases hy
        simp [hcommutes]
  · rename_i candidates arguments candidates' arguments' hm hn
    rw [Bool.and_eq_true, decide_eq_true_eq, decide_eq_true_eq, hm, hn]
    constructor
    · rintro ⟨hoverload, hop⟩
      exact .inl ⟨hop, fun _ _ _ => hoverload⟩
    · rintro (⟨hop, hoverload⟩ | ⟨_, _, _, _, h, _⟩)
      · exact ⟨hoverload _ _ rfl, hop⟩
      · cases h
  · rename_i hbinary hcall
    rw [decide_eq_true_eq]
    constructor
    · intro hop
      refine .inl ⟨hop, fun candidates arguments hm => ?_⟩
      exact absurd (hop.symm.trans hm) (hcall _ _ _ _ hm)
    · rintro (⟨hop, -⟩ | ⟨op, l, r, _, hm, hn⟩)
      · exact hop
      · exact absurd hn (hbinary _ _ _ _ _ _ hm)

/-- Being the same goes both ways. -/
theorem sameNode_comm (m n : Node) : sameNode m n = sameNode n m := by
  rw [Bool.eq_iff_iff, sameNode_iff, sameNode_iff]
  exact ⟨fun h => ⟨h.1.symm, h.2.symm⟩, fun h => ⟨h.1.symm, h.2.symm⟩⟩

/-- A fingerprint is mixed from the operation, the shape and the fingerprints of the
operands. -/
theorem fingerprintOf_eq_ok {print : UInt64} : g.fingerprintOf n = .ok print ↔
    ∃ prints, List.Forall₂ (fun c p => (g.node c).map (·.fingerprint) = .ok p) n.children prints ∧
      ((operandOrder n.op prints).foldl Fingerprint.word64 (g.mixOperation
        ((Fingerprint.start.number n.shape.kind.level).number n.shape.width) n.op)).state =
          print := by
  unfold fingerprintOf
  simp only [bind_eq_ok, mapM_eq_ok_iff]
  refine exists_congr fun prints => and_congr_right fun _ => ?_
  exact ⟨fun h => by cases h; rfl, fun h => by rw [h]; rfl⟩

/-- A node whose operands are in the arena has a fingerprint. -/
theorem fingerprintOf_total (h : ∀ c ∈ n.children, ∃ m, g.node? c = some m) :
    ∃ print, g.fingerprintOf n = .ok print := by
  obtain ⟨prints, hprints⟩ : ∃ prints,
      (n.children.mapM fun c => (g.node c).map (·.fingerprint)) = .ok prints := by
    refine mapM_total fun c hc => ?_
    obtain ⟨m, hm⟩ := h c hc
    refine ⟨m.fingerprint, ?_⟩
    unfold Graph.node
    rw [hm]
    rfl
  exact ⟨_, fingerprintOf_eq_ok.mpr ⟨prints, mapM_eq_ok_iff.mp hprints, rfl⟩⟩

/-- A fingerprint depends on the functions and the operands of a node only. -/
theorem fingerprintOf_congr (hfunctions : g'.functions = g.functions)
    (hnodes : ∀ c ∈ n.children, g'.node? c = g.node? c) :
    g'.fingerprintOf n = g.fingerprintOf n := by
  have hmix : ∀ f, g'.mixOperation f n.op = g.mixOperation f n.op := by
    intro f
    unfold mixOperation signatures
    rw [hfunctions]
  have hprints : (n.children.mapM fun c => (g'.node c).map (·.fingerprint)) =
      n.children.mapM fun c => (g.node c).map (·.fingerprint) := by
    refine mapM_congr_of_mem fun c hc => ?_
    unfold Graph.node
    rw [hnodes c hc]
  unfold fingerprintOf
  simp only [hmix, hprints]

/-- Fingerprints of the operands of commutative operators are put in order. -/
theorem operandOrder_swap {op : BinaryOp} (hcommutes : op.isCommutative = true)
    (l r l' r' : NodeId) (a b : UInt64) :
    operandOrder (.binary op l r) [a, b] = operandOrder (.binary op l' r') [b, a] := by
  unfold operandOrder
  simp only [hcommutes, Bool.true_and, decide_eq_true_eq]
  by_cases h : a < b
  · rw [if_neg (UInt64.lt_asymm h), if_pos h]
  · by_cases h' : b < a
    · rw [if_pos h', if_neg h]
    · rw [UInt64.le_antisymm (UInt64.not_lt.mp h') (UInt64.not_lt.mp h)]

/-- Nodes that are the same have the same fingerprint. -/
theorem fingerprintOf_of_same (h : sameNode m n = true) {print : UInt64}
    (hn : g.fingerprintOf n = .ok print) : g.fingerprintOf m = .ok print := by
  obtain ⟨hshape, ⟨hop, -⟩ | ⟨op, l, r, hcommutes, hm, hn'⟩⟩ := sameNode_iff.mp h
  · unfold fingerprintOf Node.children at hn ⊢
    rw [hop, hshape]
    exact hn
  · obtain ⟨prints, hprints, rfl⟩ := fingerprintOf_eq_ok.mp hn
    unfold Node.children at hprints
    rw [hn'] at hprints
    obtain ⟨b, prints', hb, hprints', rfl⟩ := List.forall₂_cons_left_iff.mp hprints
    obtain ⟨a, prints'', ha, hnil, rfl⟩ := List.forall₂_cons_left_iff.mp hprints'
    obtain rfl := List.forall₂_nil_left_iff.mp hnil
    refine fingerprintOf_eq_ok.mpr ⟨[a, b], ?_, ?_⟩
    · unfold Node.children
      rw [hm]
      exact .cons ha (.cons hb .nil)
    · rw [hm, hn', hshape, operandOrder_swap hcommutes l r r l a b]
      rfl

end Graph

/-- Representatives make no difference to what is known of nodes. -/
theorem Sound.forget {R : Rules} {g : Graph} {w : World} (hs : Sound R g w) :
    Sound R { g with representatives := [] } w := by
  intro id hid
  obtain ⟨n, hn, hsound⟩ := hs id hid
  exact ⟨n, hn, hsound.fits, hsound.live, hsound.below, hsound.value⟩

/-- Representatives make no difference to a stage. -/
theorem Stage.forget {R : Rules} {g : Graph} {made : List Delivery} (h : Stage R g made) :
    Stage R { g with representatives := [] } made := by
  obtain ⟨w, hs, hwrites⟩ := h
  exact ⟨w, hs.forget, hwrites⟩

namespace Sharing

variable {R : Rules} {g g' : Graph} {w w' : World} {m n : Node} {id : NodeId}
  {refused : GraphError → Prop}

/-! ## Representatives -/

/-- The nodes that matter are the representatives, each under the fingerprint of
its node, and no two of them are the same. -/
structure Canonical (g : Graph) (w : World) : Prop where
  live : ∀ p ∈ g.representatives, w.live p.2
  listed : ∀ x, w.live x → ∃ print, (print, x) ∈ g.representatives
  print : ∀ p ∈ g.representatives, ∀ n, g.node? p.2 = some n → g.fingerprintOf n = .ok p.1
  distinct : ∀ x y m n, w.live x → w.live y → x ≠ y → g.node? x = some m → g.node? y = some n →
    Graph.sameNode m n = false

namespace Canonical

/-- A node that does not matter may be changed. -/
theorem setNode (hs : Sound R g w) (hdead : ¬w.live id) (n : Node) (h : Canonical g w) :
    Canonical (g.setNode id n) w := by
  have hkept : ∀ x, w.live x → (g.setNode id n).node? x = g.node? x := fun x hx =>
    Graph.node?_setNode_of_ne n fun heq => hdead (heq ▸ hx)
  refine ⟨h.live, h.listed, fun p hp m hm => ?_, fun x y k m hx hy hne hk hm => ?_⟩
  · rw [hkept _ (h.live p hp)] at hm
    rw [← h.print p hp m hm]
    refine Graph.fingerprintOf_congr rfl fun c hc => hkept c ?_
    exact (hs.nodeSound (h.live p hp) hm).live c hc
  · rw [hkept x hx] at hk
    rw [hkept y hy] at hm
    exact h.distinct x y k m hx hy hne hk hm

/-- A node that is the same as a representative is found under its own
fingerprint. -/
theorem sameNode_eq_false (h : Canonical g w) {print : UInt64}
    (hprint : g.fingerprintOf n = .ok print)
    (hnone : ∀ p ∈ g.representatives, p.1 = print → ∀ m, g.node? p.2 = some m →
      Graph.sameNode m n = false) {x : NodeId} (hx : w.live x) (hm : g.node? x = some m) :
    Graph.sameNode m n = false := by
  obtain ⟨other, hmem⟩ := h.listed x hx
  by_contra hsame
  rw [Bool.not_eq_false] at hsame
  have hother : (.ok print : Except GraphError UInt64) = .ok other :=
    (Graph.fingerprintOf_of_same hsame hprint).symm.trans (h.print _ hmem m hm)
  cases hother
  exact Bool.false_ne_true ((hnone _ hmem rfl m hm).symm.trans hsame)

/-- A node that is not the same as any representative becomes its own. -/
theorem add (h : Canonical g w) (hn : g.node? id = some n) {print : UInt64}
    (hprint : g.fingerprintOf n = .ok print)
    (hnone : ∀ x m, w.live x → g.node? x = some m → Graph.sameNode m n = false) (rank : Nat)
    (value : Value) :
    Canonical { g with representatives := g.representatives ++ [(print, id)] }
      (w.add id rank value) := by
  have hsame : ∀ m, Graph.fingerprintOf
      { g with representatives := g.representatives ++ [(print, id)] } m = g.fingerprintOf m :=
    fun m => Graph.fingerprintOf_congr rfl fun _ _ => rfl
  refine ⟨fun p hp => ?_, fun x hx => ?_, fun p hp m hm => ?_, fun x y k m hx hy hne hk hm => ?_⟩
  · rcases List.mem_append.mp hp with hp | hp
    · exact .inr (h.live p hp)
    · rw [List.mem_singleton.mp hp]
      exact .inl rfl
  · rcases hx with rfl | hx
    · exact ⟨print, List.mem_append_right _ (List.mem_singleton_self _)⟩
    · obtain ⟨other, hmem⟩ := h.listed x hx
      exact ⟨other, List.mem_append_left _ hmem⟩
  · rw [hsame]
    rcases List.mem_append.mp hp with hp | hp
    · exact h.print p hp m hm
    · rw [List.mem_singleton.mp hp] at hm ⊢
      have heq : some m = some n := hm.symm.trans hn
      cases heq
      exact hprint
  · rcases hx with rfl | hx <;> rcases hy with rfl | hy
    · exact absurd rfl hne
    · have heq : some k = some n := hk.symm.trans hn
      cases heq
      rw [Graph.sameNode_comm]
      exact hnone y m hy hm
    · have heq : some m = some n := hm.symm.trans hn
      cases heq
      exact hnone x k hx hk
    · exact h.distinct x y k m hx hy hne hk hm

end Canonical

/-- A search for a representative changes nothing. What it finds is the same, and
if it finds nothing, no representative of the fingerprint is. -/
theorem representative_ends (hs : Sound R g w) (hn : g.node? id = some n) (hdead : ¬w.live id)
    (print : UInt64) {reps : List (UInt64 × NodeId)} (hlive : ∀ p ∈ reps, w.live p.2) :
    Ends (representative? print id reps) g (fun found g' => g' = g ∧
      match found with
      | some x => w.live x ∧ ∃ m, g.node? x = some m ∧ Graph.sameNode m n = true
      | none => ∀ p ∈ reps, p.1 = print → ∀ m, g.node? p.2 = some m →
          Graph.sameNode m n = false) refused := by
  induction reps with
  | nil => exact ⟨rfl, fun _ h => (nomatch h)⟩
  | cons p rest ih =>
    obtain ⟨other, candidate⟩ := p
    have hcandidate : w.live candidate := hlive _ List.mem_cons_self
    have hrest := ih fun p hp => hlive p (List.mem_cons_of_mem _ hp)
    obtain ⟨m, hm⟩ := hs.node hcandidate
    have hsame : g.same candidate id = .ok (Graph.sameNode m n) := by
      have hne : candidate ≠ id := fun heq => hdead (heq ▸ hcandidate)
      unfold Graph.same Graph.node
      rw [if_neg hne, hm, hn]
      rfl
    have hskip : (other = print → Graph.sameNode m n = false) →
        Ends (representative? print id rest) g (fun found g' => g' = g ∧
          match found with
          | some x => w.live x ∧ ∃ m, g.node? x = some m ∧ Graph.sameNode m n = true
          | none => ∀ p ∈ (other, candidate) :: rest, p.1 = print → ∀ m, g.node? p.2 = some m →
              Graph.sameNode m n = false) refused := by
      refine fun hfirst => hrest.mono ?_
      rintro (_ | x) g' ⟨rfl, hfound⟩
      · refine ⟨rfl, fun p hp hprint k hk => ?_⟩
        rcases List.mem_cons.mp hp with rfl | hp
        · have heq : some k = some m := hk.symm.trans hm
          cases heq
          exact hfirst hprint
        · exact hfound p hp hprint k hk
      · exact ⟨rfl, hfound⟩
    unfold representative?
    split
    · rw [ends_bind, ends_ask hsame]
      split
      · rename_i htrue
        exact ⟨rfl, hcandidate, m, hm, htrue⟩
      · rename_i hfalse
        exact hskip fun _ => Bool.eq_false_iff.mpr hfalse
    · rename_i hne
      exact hskip fun heq => absurd heq hne

/-- A new fingerprint makes no difference to what a node is replaced by. -/
theorem replaced_of_refreshed {new : NodeId} {n' : Node} {value : Value}
    (hn : g.node? id = some n) (hdead : ¬w.live id) (hframe : n'.frame = n.frame)
    (h : Replaced R (g.setNode id n') w id n' value new g' w') :
    Replaced R g w id n value new g' w' where
  sound := h.sound
  later := (Sound.later_redirect w hn hframe fun hlive => absurd hlive hdead).trans h.later
  kept x m hx hm := h.kept x m hx (by rw [Graph.node?_setNode_of_ne n' hx]; exact hm)
  fresh x hx := by
    have hfresh := h.fresh x hx
    rw [Graph.size_setNode] at hfresh
    exact hfresh
  live := h.live
  shape := h.shape.trans (congrArg (·.shape) hframe)
  value := h.value
  channel channel hchannel := by
    refine h.channel channel ?_
    rw [← n'.channel?_frame, hframe, n.channel?_frame]
    exact hchannel

/-- Representatives make no difference to what a node is replaced by. -/
theorem replaced_withRepresentatives {new : NodeId} {value : Value}
    (reps : List (UInt64 × NodeId)) (h : Replaced R g w id n value new g' w') :
    Replaced R g w id n value new { g' with representatives := reps } w' where
  sound x hx := by
    obtain ⟨m, hm, hsound⟩ := h.sound x hx
    exact ⟨m, hm, hsound.fits, hsound.live, hsound.below, hsound.value⟩
  later := ⟨h.later.functions, h.later.outputs, h.later.size, h.later.live, h.later.rank,
    h.later.value, h.later.frame⟩
  kept := h.kept
  fresh := h.fresh
  live := h.live
  shape := h.shape
  value := h.value
  channel := h.channel

/-- A node that matters has the value of every node that is the same. -/
def Congruent (R : Rules) : Prop :=
  ∀ {g : Graph} {w : World} {x : NodeId} {m n : Node}, Sound R g w → R.tracked → w.live x →
    g.node? x = some m → (∀ c ∈ n.children, w.live c) →
    R.fits g.functions n.frame (n.children.map g.shapeAt) → Graph.sameNode m n = true →
    R.agreement.le (R.meaning g.functions n.frame (n.children.map g.shapeAt)
      (n.children.map w.value)) (w.value x)

/-- A node that is the same as an output is an output of the same stream. -/
theorem channel?_of_same (h : Graph.sameNode m n = true) {channel : Channel}
    (hn : n.channel? = some channel) : m.channel? = some channel := by
  unfold Node.channel? at hn ⊢
  rcases (Graph.sameNode_iff.mp h).2 with ⟨hop, -⟩ | ⟨op, l, r, -, -, hnop⟩
  · rw [hop]
    exact hn
  · rw [hnop] at hn
    cases hn

/-- Every node is replaced by its representative. -/
theorem replaces (hcongr : Congruent R) : Replaces R R Canonical share refused := by
  intro g w id n hs hcanonical hn hdead hlive hfits
  obtain ⟨print, hprint⟩ := Graph.fingerprintOf_total fun c hc => hs.node (hlive c hc)
  let n' : Node := { n with fingerprint := print }
  have hframe : n'.frame = n.frame := rfl
  have hlater : Later g w (g.setNode id n') w :=
    Sound.later_redirect w hn hframe fun hlive => absurd hlive hdead
  have hkept : ∀ x, w.live x → (g.setNode id n').node? x = g.node? x := fun x hx =>
    Graph.node?_setNode_of_ne n' fun heq => hdead (heq ▸ hx)
  have hs' : Sound R (g.setNode id n') w :=
    hs.of_kept hlater fun x m hx hm => (hkept x hx).trans hm
  have hn' : (g.setNode id n').node? id = some n' := Graph.node?_setNode_self n' hn
  have hcanonical' := hcanonical.setNode hs hdead n'
  have hprint' : (g.setNode id n').fingerprintOf n' = .ok print := by
    refine Eq.trans ?_ hprint
    exact Graph.fingerprintOf_congr (n := n') rfl fun c hc => hkept c (hlive c hc)
  have hshapes : n'.children.map (g.setNode id n').shapeAt = n.children.map g.shapeAt :=
    List.map_congr_left fun c hc => hlater.shapeAt hs (hlive c hc)
  have hfits' : R.fits (g.setNode id n').functions n'.frame
      (n'.children.map (g.setNode id n').shapeAt) := by
    rw [hframe, hshapes]
    exact hfits
  unfold share refreshFingerprint
  rw [ends_bind, ends_bind, ends_node hn, ends_bind, ends_ask hprint, ends_bind,
    ends_modifyNode hn, ends_pure, ends_bind, ends_get, ends_bind]
  refine (representative_ends hs' hn' hdead print hcanonical'.live).mono ?_
  rintro (_ | x) g₁ ⟨rfl, hfound⟩
  · rw [ends_bind, ends_modify, ends_pure]
    obtain ⟨rank, hstay⟩ := Replaced.stay hs' hn' hdead hlive hfits' fun _ => by
      rw [hshapes, hframe]
      exact R.agreement.refl _
    refine ⟨_, ?_, replaced_withRepresentatives _ (replaced_of_refreshed hn hdead hframe hstay)⟩
    exact hcanonical'.add hn' hprint'
      (fun x m => hcanonical'.sameNode_eq_false hprint' hfound) rank _
  · obtain ⟨hx, m, hm, hsame⟩ := hfound
    rw [ends_pure]
    refine ⟨w, hcanonical', replaced_of_refreshed hn hdead hframe {
      sound := hs'
      later := Later.refl _ w
      kept := fun _ _ _ hm => hm
      fresh := fun _ hx => .inl hx
      live := hx
      shape := by rw [Graph.shapeAt_eq hm]; exact (Graph.sameNode_iff.mp hsame).1
      value := fun ht => ?_
      channel := fun channel hchannel => ?_ }⟩
    · have hvalue := hcongr (n := n') hs' ht hx hm hlive hfits' hsame
      rw [hshapes] at hvalue
      exact hvalue
    · unfold Graph.channelAt
      rw [hm, Option.bind_some]
      exact channel?_of_same hsame hchannel

/-- After the pass values are as before, and no two nodes that matter are the same.
The pass has no cause to fail. -/
theorem pass_keeps (hcongr : Congruent R) (hneed : ∀ op, 1 ≤ R.need op) {made : List Delivery}
    (hnone : g.representatives = []) (h : Stage R g made) (hne : made ≠ []) :
    Ends pass.run g (fun _ g' => ∃ w', Sound R g' w' ∧ Writes R g' w' g'.outputs made ∧
      ∀ x y, w'.live x → w'.live y → x ≠ y → g'.same x y = .ok false) refused := by
  refine (Pass.upward_keeps rfl (replaces hcongr)
    (fun _ _ _ n hs hdead h => h.setNode hs hdead n) (fun w => ?_) (fun h => h) hneed h hne rfl).mono ?_
  · refine ⟨fun p hp => ?_, fun _ hx => hx.elim, fun p hp => ?_, fun _ _ _ _ hx => hx.elim⟩
    all_goals
      rw [hnone] at hp
      cases hp
  · rintro _ g' ⟨-, w', outputs, hs, hwrites, hcanonical⟩
    refine ⟨w', hs, hwrites, fun x y hx hy hxy => ?_⟩
    obtain ⟨m, hm⟩ := hs.node hx
    obtain ⟨n, hn⟩ := hs.node hy
    unfold Graph.same Graph.node
    rw [if_neg hxy, hm, hn]
    exact congrArg Except.ok (hcanonical.distinct x y m n hx hy hxy hm hn)

/-! ## Scalar nodes on the literals of the program -/

section

variable {tracked simple : Prop} {read : String → UInt32} {lowered : Bool}

/-- Operands of a commutative operator may change places. -/
theorem mem_swaps {op : BinaryOp} (h : op.isCommutative = true) : (op, op) ∈ Folding.swaps := by
  cases op <;> first | decide | cases h

/-- Scalar nodes that do the same have the same value. -/
theorem component_congr (hop : m.op = n.op) (hshape : m.shape = n.shape) (hm : m.narrow = true)
    (hn : n.narrow = true) (values : List Value) (hlength : values.length = n.children.length) :
    m.component read values 0 = n.component read values 0 := by
  unfold Node.children at hlength
  cases hcase : n.op with
  | unary op a =>
    rw [hcase] at hlength
    obtain ⟨x, rfl⟩ := List.length_eq_one_iff.mp hlength
    rw [Node.component_unary_narrow (hop.trans hcase) hm, Node.component_unary_narrow hcase hn,
      hshape]
  | binary op a b =>
    rw [hcase] at hlength
    obtain ⟨x, y, rfl⟩ := List.length_eq_two.mp hlength
    rw [Node.component_binary_narrow (hop.trans hcase) hm, Node.component_binary_narrow hcase hn]
  | _ =>
    unfold Node.component
    rw [hop, hcase]

/-- Scalar nodes that are the same have the same value. -/
theorem congruent (htracked : tracked → simple) :
    Congruent (Folding.rules tracked simple read lowered).rules := by
  intro g w x m n hs htrack hx hm hlive hfits hsame
  obtain ⟨htyped, hform, hplain⟩ := hfits
  have hsound := hs.nodeSound hx hm
  have hmnarrow : m.narrow = true := m.narrow_frame ▸ Folding.narrow_of_form hsound.fits.2.1
  have hnnarrow : n.narrow = true := n.narrow_frame ▸ Folding.narrow_of_form hform
  obtain ⟨hshape, hmatching⟩ := Graph.sameNode_iff.mp hsame
  have hzero : m.component read (m.children.map w.value) 0 =
      n.component read (n.children.map w.value) 0 := by
    rcases hmatching with ⟨hop, -⟩ | ⟨op, l, r, hcommutes, hmop, hnop⟩
    · have hchildren : m.children = n.children := congrArg Operation.children hop
      rw [hchildren]
      exact component_congr hop hshape hmnarrow hnnarrow _ (List.length_map _)
    · obtain ⟨t, happlied⟩ : ∃ t, Folding.Applied simple Node.narrow g w n op r l t :=
        Folding.Applied.of_typed hnop hnnarrow hnnarrow (fun h => n.plain_frame ▸ hplain h)
          ((Node.fits_frame.mp htyped).typed trivial) hlive
      have hmchildren : m.children = [l, r] := by
        unfold Node.children
        rw [hmop]
        rfl
      have hnchildren : n.children = [r, l] := by
        unfold Node.children
        rw [hnop]
        rfl
      have hswap := happlied.lift_swap (.scalars htracked read) (Folding.rules_eq .. ▸ hs) htrack
        (mem_swaps hcommutes)
      rw [hmchildren, hnchildren]
      exact (Node.component_binary_narrow hmop hmnarrow).trans
        (hswap.trans (Node.component_binary_narrow hnop hnnarrow).symm)
  have hmeaning : m.meaning read (m.children.map w.value) =
      n.meaning read (n.children.map w.value) := by
    funext k
    unfold Node.meaning
    rw [hshape]
    split
    · rename_i hk
      have hone := Node.width_of_narrow hnnarrow
      obtain rfl : k = 0 := by omega
      exact hzero
    · rfl
  exact (n.meaning_frame read _).trans (hmeaning.symm.trans (hsound.denotes htrack).symm)

/-- After the pass values are as before, and so is the form of nodes. -/
theorem pass_ends (htracked : tracked → simple) {made : List Delivery}
    (hnone : g.representatives = [])
    (h : Stage (Folding.rules tracked simple read lowered).rules g made) (hne : made ≠ []) :
    Ends pass.run g fun _ g' =>
      Stage (Folding.rules tracked simple read lowered).rules g' made := by
  refine (pass_keeps (congruent htracked) (fun _ => Nat.le_refl 1) hnone h hne).mono ?_
  rintro _ g' ⟨w', hs, hwrites, -⟩
  exact ⟨w', hs, hwrites⟩

end

end Sharing

end LaneGraph
