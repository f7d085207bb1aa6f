import LaneGraph.Proofs.Evaluation
import LaneGraph.Proofs.Passes

/-!
# Values of deduced graphs

The outputs of a deduced graph depend on typed nodes only, so that no operand is
converted on the way. Such a graph without cycles has values under every reading of
its nodes: what a node makes of the values of its operands, all the way down. A
graph between two passes has ghost values. They are these values, so what a pass
keeps of the ghosts it keeps of the graph.
-/

namespace LaneGraph

namespace Graph

/-- The value of a node, following operands up to a depth. -/
def evaluateTo (g : Graph) (S : Semantics) : Nat → NodeId → Value
  | 0, _ => Value.absent
  | depth + 1, id =>
    match g.node? id with
    | some n => S.denote n (n.children.map (g.evaluateTo S depth))
    | none => Value.absent

/-- The value of a node. -/
def evaluate (g : Graph) (S : Semantics) (id : NodeId) : Value := g.evaluateTo S g.walkDepth id

/-- The outputs depend on typed nodes, and they are output nodes. This is what deducing types
makes of a graph that is built by factories (`Graph.Built.deduced`), and of any other whose
calls are typed then (`Graph.Made.deduced`). -/
structure Deduced (g : Graph) : Prop where
  typed : ∀ id, g.Needs id →
    ∃ n, g.node? id = some n ∧ n.Typed g.functions (n.children.map g.shapeAt)
  outputs : ∀ id ∈ g.outputs, ∃ channel, g.channelAt id = some channel

/-- What the outputs deliver, one after the other. -/
def delivered (g : Graph) (S : Semantics) : List Delivery :=
  g.outputs.filterMap fun id => (g.channelAt id).map fun channel => ⟨channel, g.evaluate S id⟩

variable {g g' : Graph} {S S' : Semantics}

/-! ## Values do not depend on the depth -/

namespace Ranked

variable {live : NodeId → Prop} {rank : NodeId → Nat}

/-- A depth above the rank of a node does not matter for its value, and neither do
nodes that it does not depend on. -/
theorem evaluateTo_eq (h : g.Ranked live rank)
    (hsame : ∀ id n, live id → g.node? id = some n → S.denote n = S'.denote n) :
    ∀ (depth depth' : Nat) (id : NodeId), live id → rank id < depth → rank id < depth' →
      g.evaluateTo S depth id = g.evaluateTo S' depth' id := by
  intro depth
  induction depth with
  | zero => intro depth' id _ hlt; omega
  | succ depth ih =>
    intro depth' id hlive hlt hlt'
    cases depth' with
    | zero => omega
    | succ depth' =>
      rw [evaluateTo, evaluateTo]
      cases hn : g.node? id with
      | none => rfl
      | some n =>
        dsimp only
        rw [hsame id n hlive hn]
        congr 1
        refine List.map_congr_left fun c hc => ?_
        obtain ⟨hc', hrank⟩ := h id n hlive hn c hc
        exact ih depth' c hc' (by omega) (by omega)

variable (hrank : ∀ id, live id → rank id ≤ g.nodes.size)

include hrank

/-- Ranks are below the depth to which values are followed. -/
theorem lt_walkDepth {id : NodeId} (hlive : live id) : rank id < g.walkDepth := by
  have hle := hrank id hlive
  rw [walkDepth]
  omega

/-- Readings of nodes that agree where they matter give the same values. -/
theorem evaluate_congr (h : g.Ranked live rank)
    (hsame : ∀ id n, live id → g.node? id = some n → S.denote n = S'.denote n) {id : NodeId}
    (hlive : live id) : g.evaluate S id = g.evaluate S' id :=
  h.evaluateTo_eq hsame _ _ id hlive (lt_walkDepth hrank hlive) (lt_walkDepth hrank hlive)

/-- The value of a node is what it makes of the values of its operands. -/
theorem evaluate_eq (h : g.Ranked live rank) {id : NodeId} {n : Node} (hlive : live id)
    (hn : g.node? id = some n) : g.evaluate S id = S.denote n (n.children.map (g.evaluate S)) := by
  have hdepth := lt_walkDepth hrank hlive
  calc g.evaluate S id
      = g.evaluateTo S (g.walkDepth + 1) id :=
        h.evaluateTo_eq (fun _ _ _ _ => rfl) _ _ id hlive hdepth (Nat.lt_succ_of_lt hdepth)
    _ = S.denote n (n.children.map (g.evaluate S)) := by
        rw [evaluateTo, hn]
        rfl

end Ranked

/-- The operands of what is needed are needed. -/
theorem Needs.operand {id c : NodeId} {n : Node} (h : g.Needs id) (hn : g.node? id = some n)
    (hc : c ∈ n.children) : g.Needs c := by
  obtain ⟨output, houtput, hpath⟩ := h
  exact ⟨output, houtput, hpath.tail ⟨n, hn, hc⟩⟩

/-- Outputs are needed. -/
theorem needs_of_mem {id : NodeId} (h : id ∈ g.outputs) : g.Needs id := ⟨id, h, .refl⟩

/-- The value of a node of a graph without cycles. -/
theorem Acyclic.evaluate_eq (h : g.Acyclic) {id : NodeId} {n : Node} (hn : g.node? id = some n) :
    g.evaluate S id = S.denote n (n.children.map (g.evaluate S)) :=
  h.ranked.evaluate_eq (fun id _ => h.needRank_le id) trivial hn

/-- A graph of typed nodes is deduced. -/
theorem deduced_of_all (htyped : ∀ n ∈ g.nodes, n.Typed g.functions (n.children.map g.shapeAt) ∧
      ∀ c ∈ n.children, c < g.nodes.size)
    (houtputs : ∀ id ∈ g.outputs, (g.channelAt id).isSome) : g.Deduced := by
  have hchannel : ∀ id ∈ g.outputs, ∃ channel, g.channelAt id = some channel := fun id hid =>
    Option.isSome_iff_exists.mp (houtputs id hid)
  have hnode : ∀ id, g.Needs id → id < g.nodes.size := by
    rintro id ⟨output, houtput, hpath⟩
    cases hpath with
    | refl =>
      obtain ⟨channel, hchannel⟩ := hchannel id houtput
      unfold channelAt at hchannel
      obtain ⟨n, hn, -⟩ := Option.bind_eq_some_iff.mp hchannel
      exact lt_size hn
    | tail _ huse =>
      obtain ⟨n, hn, hc⟩ := huse
      exact (htyped n (Array.mem_of_getElem? hn)).2 id hc
  refine ⟨fun id hid => ?_, hchannel⟩
  have hlt := hnode id hid
  exact ⟨g.nodes[id], Array.getElem?_eq_getElem hlt, (htyped _ (Array.getElem_mem hlt)).1⟩

/-- Every output delivers a value to its stream. -/
theorem Deduced.delivered (h : g.Deduced) (S : Semantics) :
    List.Forall₂ (fun id delivery => g.channelAt id = some delivery.channel ∧
      delivery.value = g.evaluate S id) g.outputs (g.delivered S) := by
  have houtputs := h.outputs
  unfold Graph.delivered
  generalize g.outputs = ids at houtputs
  induction ids with
  | nil => exact .nil
  | cons id ids ih =>
    obtain ⟨channel, hchannel⟩ := houtputs id List.mem_cons_self
    rw [List.filterMap_cons, hchannel]
    exact .cons ⟨hchannel, rfl⟩ (ih fun x hx => houtputs x (List.mem_cons_of_mem _ hx))

/-- A deduced graph with outputs delivers something. -/
theorem Deduced.delivered_ne_nil (h : g.Deduced) (hne : g.outputs ≠ []) (S : Semantics) :
    g.delivered S ≠ [] := by
  intro hnil
  have hlength := (h.delivered S).length_eq
  rw [hnil] at hlength
  exact hne (List.eq_nil_of_length_eq_zero hlength)

/-- The world of a graph: what is needed matters, nodes are ranked by need, and values are
the ghosts. -/
noncomputable def world (g : Graph) (S : Semantics) : World := ⟨g.Needs, g.needRank, g.evaluate S⟩

/-- The world of a deduced graph without cycles is sound. -/
theorem Deduced.sound (h : g.Deduced) (hacyclic : g.Acyclic) {t : TypedRules}
    (hsimple : ¬t.simple) (hneed : ∀ op, t.need op ≤ 1)
    (hform : ∀ id n, g.Needs id → g.node? id = some n →
      t.form n.frame (n.children.map g.shapeAt) = true) :
    Sound t.rules g (g.world t.semantics) := by
  intro id hid
  obtain ⟨n, hn, htyped⟩ := h.typed id hid
  refine ⟨n, hn, ⟨Node.fits_frame.mpr htyped.fits, hform id n hid hn, fun hs => absurd hs hsimple⟩,
    fun c hc => hid.operand hn hc, fun c hc => ?_, fun _ => ?_⟩
  · have hrank : g.needRank c < g.needRank id := (hacyclic.ranked id n trivial hn c hc).2
    have hle : t.rules.need n.frame.op ≤ 1 := hneed n.frame.op
    unfold world
    dsimp only
    omega
  · rw [t.meaning_frame]
    have hvalue := hacyclic.evaluate_eq (S := t.semantics) hn
    exact hvalue ▸ t.agreement.refl _

/-- Every output of a deduced graph delivers its own value. -/
theorem Deduced.writes (h : g.Deduced) (t : TypedRules) :
    Writes t.rules g (g.world t.semantics) g.outputs (g.delivered t.semantics) := by
  refine List.forall₂_iff_get.mpr ⟨(h.delivered _).length_eq, fun k hk hk' => ?_⟩
  obtain ⟨hchannel, hvalue⟩ := (h.delivered t.semantics).get hk hk'
  refine ⟨needs_of_mem (List.get_mem _ _), hchannel, fun _ => ?_⟩
  rw [hvalue]
  exact t.agreement.refl _

/-- A deduced graph without cycles is a stage. -/
theorem Deduced.stage (h : g.Deduced) (hacyclic : g.Acyclic) {t : TypedRules}
    (hsimple : ¬t.simple) (hneed : ∀ op, t.need op ≤ 1)
    (hform : ∀ id n, g.Needs id → g.node? id = some n →
      t.form n.frame (n.children.map g.shapeAt) = true) :
    Stage t.rules g (g.delivered t.semantics) :=
  ⟨_, h.sound hacyclic hsimple hneed hform, h.writes t⟩

end Graph

/-! ## The ghosts of a stage are its values -/

section

variable {t : TypedRules} {g g' : Graph} {w : World} {made : List Delivery}

/-- The nodes of a sound graph that matter can be ranked, below the number of nodes. -/
theorem Sound.ranked {R : Rules} (h : Sound R g w) (hneed : ∀ op, 1 ≤ R.need op) :
    ∃ rank : NodeId → Nat, g.Ranked w.live rank ∧ ∀ id, w.live id → rank id ≤ g.nodes.size := by
  obtain ⟨rank, hs, hrank⟩ := h.rescale { R with need := fun _ => 1 } 1 hneed
    (fun _ => Nat.le_refl 1) rfl rfl rfl rfl
  refine ⟨rank, ?_, fun id hid => ?_⟩
  · intro id n hid hn c hc
    have hsound := hs.nodeSound hid hn
    exact ⟨hsound.live c hc, hsound.rank_lt (Nat.le_refl 1) hc⟩
  · have hlow := hrank id hid
    omega

/-- What is needed matters, if the outputs do. -/
theorem Sound.live_of_needs {R : Rules} (hs : Sound R g w)
    (houtputs : ∀ id ∈ g.outputs, w.live id) {id : NodeId} (h : g.Needs id) : w.live id := by
  obtain ⟨output, houtput, hpath⟩ := h
  induction hpath with
  | refl => exact houtputs _ houtput
  | tail _ huse ih =>
    obtain ⟨n, hn, hc⟩ := huse
    exact (hs.nodeSound ih hn).live _ hc

/-- The ghost of a node agrees with its value. -/
theorem Sound.le_evaluate (hs : Sound t.rules g w) (ht : t.tracked) (hneed : ∀ op, 1 ≤ t.need op)
    {id : NodeId} (hid : w.live id) :
    t.agreement.le (w.value id) (g.evaluate t.semantics id) := by
  obtain ⟨rank, hranked, hrank⟩ := hs.ranked hneed
  induction hr : rank id using Nat.strong_induction_on generalizing id with
  | _ r ih =>
    obtain ⟨n, hn, hsound⟩ := hs id hid
    rw [hranked.evaluate_eq hrank hid hn]
    refine t.agreement.trans (hsound.denotes ht) (t.agreement.mono t.semantics n ?_)
    rw [List.forall₂_map_left_iff, List.forall₂_map_right_iff, List.forall₂_same]
    intro c hc
    obtain ⟨hlive, hlt⟩ := hranked id n hid hn c hc
    exact ih (rank c) (hr ▸ hlt) hlive rfl

/-- What the outputs of a stage depend on is typed and in form. -/
theorem Stage.typed (h : Stage t.rules g made) {id : NodeId} (hid : g.Needs id)
    (hexact : t.exact) :
    ∃ n, g.node? id = some n ∧ n.Typed g.functions (n.children.map g.shapeAt) ∧
      t.form n.frame (n.children.map g.shapeAt) = true := by
  obtain ⟨w, hs, hwrites⟩ := h
  obtain ⟨n, hn, hsound⟩ := hs id (hs.live_of_needs (fun _ => hwrites.live) hid)
  exact ⟨n, hn, hsound.typed hexact, hsound.fits.2.1⟩

/-- The outputs of a stage deliver their values, if these are followed. -/
theorem Stage.delivers (h : Stage t.rules g made) (hneed : ∀ op, 1 ≤ t.need op) :
    List.Forall₂ (fun delivery id => g.channelAt id = some delivery.channel ∧
      (t.tracked → t.agreement.le delivery.value (g.evaluate t.semantics id))) made g.outputs := by
  obtain ⟨w, hs, hwrites⟩ := h
  refine (List.Forall₂.imp (fun id delivery hid => ?_) hwrites).flip
  exact ⟨hid.2.1, fun ht => t.agreement.trans (hid.2.2 ht) (hs.le_evaluate ht hneed hid.1)⟩

/-- Related through a list in between. -/
theorem forall₂_comp {α β γ : Type} {R : α → β → Prop} {T : β → γ → Prop} {xs : List α}
    {ys : List β} {zs : List γ} (h : List.Forall₂ R xs ys) (h' : List.Forall₂ T ys zs) :
    List.Forall₂ (Relation.Comp R T) xs zs := by
  induction h generalizing zs with
  | nil =>
    cases h'
    exact .nil
  | cons hx _ ih =>
    cases h' with
    | cons hz hrest => exact .cons ⟨_, hx, hz⟩ (ih hrest)

/-- The outputs of a stage write the streams of the graph that it comes from, with
values that agree, if these are followed. -/
theorem Stage.keeps (h : Stage t.rules g' (g.delivered t.semantics)) (hg : g.Deduced)
    (hneed : ∀ op, 1 ≤ t.need op) :
    List.Forall₂ (fun id id' => (∃ channel, g.channelAt id = some channel ∧
      g'.channelAt id' = some channel) ∧
      (t.tracked → t.agreement.le (g.evaluate t.semantics id) (g'.evaluate t.semantics id')))
      g.outputs g'.outputs := by
  refine (forall₂_comp (hg.delivered _) (h.delivers hneed)).imp ?_
  rintro id id' ⟨delivery, ⟨hchannel, hvalue⟩, hchannel', hagree⟩
  exact ⟨⟨delivery.channel, hchannel, hchannel'⟩, hvalue ▸ hagree⟩

end

end LaneGraph
