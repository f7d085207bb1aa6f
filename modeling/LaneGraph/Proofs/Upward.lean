import LaneGraph.Proofs.Walk
import LaneGraph.Proofs.World

/-!
# Sweeping upward

An upward sweep replaces a node after its operands. The nodes that matter on the
way are the replacements made so far and what they brought in; a node that was
not reached yet does not matter and is as it was. So a replacement is asked for
a node whose operands follow the new rules and whose own frame follows the old
ones.
-/

namespace LaneGraph

open Build

variable {R R' : Rules} {g g' : Graph} {w w' : World} {refused : GraphError → Prop}

/-- Changing the outputs keeps a world sound. -/
theorem Sound.withOutputs (h : Sound R g w) (outputs : List NodeId) :
    Sound R { g with outputs := outputs } w := by
  intro id hid
  obtain ⟨n, hn, hsound⟩ := h id hid
  exact ⟨n, hn, hsound.fits, hsound.live, hsound.below, hsound.value⟩

/-- The table of input streams does not matter. -/
theorem Sound.withInputs (hs : Sound R g w) (inputs : List Channel) :
    Sound R { g with inputs := inputs } w := by
  intro id hid
  obtain ⟨n, hn, hsound⟩ := hs id hid
  exact ⟨n, hn, hsound.fits, hsound.live, hsound.below, hsound.value⟩

namespace Sound

/-- Nodes that matter and rank above their operands are graded. -/
theorem graded (h : Sound R g w) (hneed : ∀ op, 1 ≤ R.need op) :
    Graded (fun id => (g.node id).map Node.children) w.live w.rank := by
  intro id next hid hnext c hc
  obtain ⟨n, hn, hsound⟩ := h id hid
  obtain ⟨m, hm, rfl⟩ := Graph.node?_of_children hnext
  cases hn.symm.trans hm
  have hbelow := hsound.below c hc
  have hpos := hneed n.frame.op
  exact ⟨hsound.live c hc, by omega⟩

/-- The nodes that outputs depend on can be put in order if the outputs
matter. -/
theorem postOrder_total (h : Sound R g w) (houtputs : ∀ id ∈ g.outputs, w.live id) :
    ∃ order, g.postOrder = .ok order := by
  refine Graph.walk_total ?_ houtputs
  intro id hid
  obtain ⟨n, hn, hsound⟩ := h id hid
  exact ⟨n.children, Graph.children_of_node? hn, hsound.live⟩

/-- The order holds what the outputs depend on, operands first. -/
theorem postOrder_listed (h : Sound R g w) (hneed : ∀ op, 1 ≤ R.need op)
    (houtputs : ∀ id ∈ g.outputs, w.live id) {order : Array NodeId}
    (horder : g.postOrder = .ok order) :
    Listed (fun id => (g.node id).map Node.children) order.toList ∧
      (∀ id ∈ order.toList, w.live id) ∧ ∀ id ∈ g.outputs, id ∈ order.toList := by
  obtain ⟨rank, hs, hbound⟩ := h.rescale { R with need := fun _ => 1 } 1 hneed
    (fun _ => Nat.le_refl 1) rfl rfl rfl rfl
  have hgraded := hs.graded fun _ => Nat.le_refl 1
  have hrank : ∀ id, w.live id → rank id ≤ g.nodes.size := by
    intro id hid
    have := hbound id hid
    omega
  obtain ⟨hlisted, hmem⟩ := Graph.walk_listed hgraded hrank houtputs horder
  refine ⟨hlisted, ?_, fun id hid => (hmem id).mpr ⟨id, hid, .refl⟩⟩
  intro id hid
  obtain ⟨root, hroot, hreach⟩ := (hmem id).mp hid
  exact (hgraded.reaches (houtputs root hroot) hreach).1

end Sound

/-- What the replacement of a node in an upward sweep achieves: another node
that matters, with the same shape, the given value and the same stream. -/
structure Replaced (R : Rules) (g : Graph) (w : World) (id : NodeId) (n : Node) (value : Value)
    (new : NodeId) (g' : Graph) (w' : World) : Prop where
  sound : Sound R g' w'
  later : Later g w g' w'
  kept : ∀ x m, x ≠ id → g.node? x = some m → g'.node? x = some m
  fresh : ∀ x, w'.live x → w.live x ∨ x = id ∨ g.nodes.size ≤ x
  live : w'.live new
  shape : g'.shapeAt new = n.shape
  value : R.tracked → R.agreement.le value (w'.value new)
  channel : ∀ channel, n.channel? = some channel → g'.channelAt new = some channel

/-- The steps of an upward sweep replace a node that follows the old rules, its
operands following the new ones. Besides, they preserve an invariant. -/
def Replaces (R R' : Rules) (inv : Graph → World → Prop) (replace : NodeId → Build NodeId)
    (refused : GraphError → Prop := GraphError.IsRefusal) : Prop :=
  ∀ (g : Graph) (w : World) (id : NodeId) (n : Node), Sound R' g w → inv g w →
    g.node? id = some n → ¬w.live id → (∀ c ∈ n.children, w.live c) →
    R.fits g.functions n.frame (n.children.map g.shapeAt) →
    Ends (replace id) g (fun new g' => ∃ w', inv g' w' ∧ Replaced R' g w id n
      (R.meaning g.functions n.frame (n.children.map g.shapeAt) (n.children.map w.value))
      new g' w') refused

namespace Replaced

variable {id : NodeId} {n : Node} {value : Value}

/-- A node that follows the new rules stays. -/
theorem stay (hs : Sound R g w) (hn : g.node? id = some n) (hid : ¬w.live id)
    (hlive : ∀ c ∈ n.children, w.live c)
    (hfits : R.fits g.functions n.frame (n.children.map g.shapeAt))
    (hvalue : R.tracked → R.agreement.le value (R.meaning g.functions n.frame
      (n.children.map g.shapeAt) (n.children.map w.value))) : ∃ rank, Replaced R g w id n value id g (w.add id rank value) := by
  let rank := (n.children.map fun c => w.rank c + R.need n.frame.op).foldl max 0
  have hbelow : ∀ c ∈ n.children, w.rank c + R.need n.frame.op ≤ rank := by
    intro c hc
    exact le_foldl_max (List.mem_map_of_mem (f := fun c => w.rank c + R.need n.frame.op) hc) 0
  have hsound : NodeSound R g w n rank value := ⟨hfits, hlive, hbelow, hvalue⟩
  have hhas := World.has_add R w hn rank value
  refine ⟨rank, hs.add hid hn hsound, World.later_add hid rank value, fun _ _ _ hm => hm, ?_,
    hhas.live, hhas.shape, hhas.value, ?_⟩
  · intro x hx
    rcases hx with rfl | hx
    · exact .inr (.inl rfl)
    · exact .inl hx
  · intro channel hchannel
    unfold Graph.channelAt
    rw [hn]
    exact hchannel

/-- A node that is no output is replaced by another one. -/
theorem by_other {new : NodeId} {shape : Shape} {bound : Nat} (hs : Sound R g' w')
    (hext : Extends g w g' w') (hnew : Has R g' w' new shape value bound)
    (hshape : shape = n.shape) (hchannel : n.channel? = none) :
    Replaced R g w id n value new g' w' where
  sound := hs
  later := hext.toLater
  kept x m _ hm := hext.nodes x m hm
  fresh x hx := by
    rcases hext.fresh x hx with hlive | hsize
    · exact .inl hlive
    · exact .inr (.inr hsize)
  live := hnew.live
  shape := hnew.shape.trans hshape
  value := hnew.value
  channel channel h := by
    rw [hchannel] at h
    cases h

end Replaced

/-- Nodes that write streams stay, and nothing happens to them. -/
def Steady (replace : NodeId → Build NodeId) : Prop :=
  ∀ (g : Graph) (id : NodeId) (n : Node) (channel : Channel), g.node? id = some n →
    n.channel? = some channel → (replace id).runOn g = (.ok id, g)

/-- Where an upward sweep stands after some nodes of its order. -/
structure Swept (R' : Rules) (inv : Graph → World → Prop) (replace : NodeId → Build NodeId)
    (g₀ : Graph) (w₀ : World) (done : List NodeId) (r : Replacements) (g : Graph) (w : World) :
    Prop where
  functions : g.functions = g₀.functions
  outputs : g.outputs = g₀.outputs
  size : g₀.nodes.size ≤ g.nodes.size
  sound : Sound R' g w
  inv : inv g w
  /-- Of the nodes that were there, only those swept may matter. -/
  reached : ∀ x, w.live x → x < g₀.nodes.size → x ∈ done
  /-- Nodes that were not swept are as they were. -/
  kept : ∀ x n, x ∉ done → g₀.node? x = some n → g.node? x = some n
  live : ∀ x ∈ done, w.live (r.apply x)
  shape : ∀ x ∈ done, g.shapeAt (r.apply x) = g₀.shapeAt x
  value : R'.tracked → ∀ x ∈ done, R'.agreement.le (w₀.value x) (w.value (r.apply x))
  channel : ∀ x ∈ done, ∀ channel, g₀.channelAt x = some channel →
    g.channelAt (r.apply x) = some channel
  stays : Steady replace → ∀ x ∈ done, ∀ channel, g₀.channelAt x = some channel → r.apply x = x

/-- The latest replacement comes first. -/
theorem Replacements.apply_cons (r : Replacements) (id new x : NodeId) :
    Replacements.apply ((id, new) :: r) x = if x = id then new else r.apply x := by
  unfold Replacements.apply
  rw [List.lookup_cons]
  by_cases h : x = id
  · rw [if_pos h, h, beq_self_eq_true]
    rfl
  · rw [if_neg h, beq_eq_false_iff_ne.mpr h]

/-- Where nodes that write streams stay, the result for such a node is the node itself. -/
theorem Build.Ends.of_steady {replace : NodeId → Build NodeId} {id : NodeId} {n : Node}
    {post : NodeId → Graph → Prop} (h : Ends (replace id) g post refused)
    (hn : g.node? id = some n) :
    Ends (replace id) g (fun new g' =>
      (Steady replace → ∀ channel, n.channel? = some channel → new = id) ∧ post new g') refused := by
  by_cases hsteady : Steady replace ∧ ∃ channel, n.channel? = some channel
  · obtain ⟨hsteady, channel, hchannel⟩ := hsteady
    have hrun := hsteady g id n channel hn hchannel
    rw [ends_of_runOn hrun] at h ⊢
    exact ⟨fun _ _ _ => rfl, h⟩
  · exact h.mono fun new g' hpost =>
      ⟨fun hs channel hchannel => (hsteady ⟨hs, channel, hchannel⟩).elim, hpost⟩

namespace Swept

variable {inv : Graph → World → Prop} {replace : NodeId → Build NodeId} {g₀ : Graph} {w₀ : World}
  {done : List NodeId} {r : Replacements}

/-- A node of the order is replaced. -/
theorem step (hreplace : Replaces R R' inv replace refused)
    (hinv : ∀ g w id n, Sound R' g w → ¬w.live id → inv g w → inv (g.setNode id n) w)
    (htracked : R'.tracked → R.tracked) (hagree : R'.agreement = R.agreement) (h₀ : Sound R g₀ w₀)
    (h : Swept R' inv replace g₀ w₀ done r g w) {id : NodeId} (hid : w₀.live id) (hnew : id ∉ done)
    (hchildren : ∀ n, g₀.node? id = some n → ∀ c ∈ n.children, c ∈ done) :
    Ends (replaceUpward replace r id) g (fun r' g' =>
      ∃ w', Swept R' inv replace g₀ w₀ (done ++ [id]) r' g' w') refused := by
  obtain ⟨n, hn₀, hsound⟩ := h₀ id hid
  have hn : g.node? id = some n := h.kept id n hnew hn₀
  have hdead : ¬w.live id := fun hlive => hnew (h.reached id hlive (Graph.lt_size hn₀))
  have hdone := hchildren n hn₀
  let n₁ : Node := { n with op := n.op.mapChildren r.apply }
  let g₁ := g.setNode id n₁
  have hframe : n₁.frame = n.frame := Node.frame_mapChildren n r.apply
  have hlater : Later g w g₁ w :=
    Sound.later_redirect w hn hframe fun hlive => absurd hlive hdead
  have hkept : ∀ x m, w.live x → g.node? x = some m → g₁.node? x = some m := by
    intro x m hx hm
    have hne : x ≠ id := fun heq => hdead (heq ▸ hx)
    rw [Graph.node?_setNode_of_ne n₁ hne]
    exact hm
  have hs₁ : Sound R' g₁ w := h.sound.of_kept hlater hkept
  have hc₁ : n₁.children = n.children.map r.apply := Operation.children_mapChildren n.op r.apply
  have hlive : ∀ c ∈ n₁.children, w.live c := by
    intro c hc
    rw [hc₁] at hc
    obtain ⟨x, hx, rfl⟩ := List.mem_map.mp hc
    exact h.live x (hdone x hx)
  have hshapes : n₁.children.map g₁.shapeAt = n.children.map g₀.shapeAt := by
    rw [hc₁, List.map_map]
    refine List.map_congr_left fun x hx => ?_
    rw [Function.comp_apply, hlater.shapeAt h.sound (h.live x (hdone x hx))]
    exact h.shape x (hdone x hx)
  have hfunctions : g₁.functions = g₀.functions := h.functions
  have hfits : R.fits g₁.functions n₁.frame (n₁.children.map g₁.shapeAt) := by
    rw [hfunctions, hframe, hshapes]
    exact hsound.fits
  have hchannel₁ : n₁.channel? = n.channel? := by
    rw [← Node.channel?_frame, hframe, Node.channel?_frame]
  have hn₁ := Graph.node?_setNode_self n₁ hn
  unfold replaceUpward
  rw [ends_bind, ends_modifyNode hn, ends_bind]
  refine ((hreplace g₁ w id n₁ hs₁ (hinv g w id n₁ h.sound hdead h.inv) hn₁ hdead hlive
    hfits).of_steady hn₁).mono ?_
  rintro new g' ⟨hstays, w', hinv', hnew'⟩
  rw [ends_pure]
  have hall := hlater.trans hnew'.later
  have happly : ∀ x ∈ done, Replacements.apply ((id, new) :: r) x = r.apply x := by
    intro x hx
    have hne : x ≠ id := fun heq => hnew (heq ▸ hx)
    rw [Replacements.apply_cons, if_neg hne]
  have hself : Replacements.apply ((id, new) :: r) id = new := by
    rw [Replacements.apply_cons, if_pos rfl]
  refine ⟨w', hall.functions.trans h.functions, hall.outputs.trans h.outputs,
    Nat.le_trans h.size hall.size, hnew'.sound, hinv', ?_, ?_, ?_, ?_, ?_, ?_, ?_⟩
  · intro x hx hlt
    rw [List.mem_append, List.mem_singleton]
    rcases hnew'.fresh x hx with hold | heq | hsize
    · exact .inl (h.reached x hold hlt)
    · exact .inr heq
    · have hle : g₀.nodes.size ≤ x := by
        rw [Graph.size_setNode] at hsize
        exact Nat.le_trans h.size hsize
      exact absurd hlt (Nat.not_lt.mpr hle)
  · intro x m hx hm
    rw [List.mem_append, List.mem_singleton, not_or] at hx
    refine hnew'.kept x m hx.2 ?_
    rw [Graph.node?_setNode_of_ne n₁ hx.2]
    exact h.kept x m hx.1 hm
  · intro x hx
    rcases List.mem_append.mp hx with hx | hx
    · rw [happly x hx]
      exact hall.live _ (h.live x hx)
    · rw [List.mem_singleton.mp hx, hself]
      exact hnew'.live
  · intro x hx
    rcases List.mem_append.mp hx with hx | hx
    · rw [happly x hx, hall.shapeAt h.sound (h.live x hx)]
      exact h.shape x hx
    · rw [List.mem_singleton.mp hx, hself, Graph.shapeAt_eq hn₀]
      exact hnew'.shape
  · intro ht x hx
    rcases List.mem_append.mp hx with hx | hx
    · rw [happly x hx, hall.value _ (h.live x hx)]
      exact h.value ht x hx
    · have hnewValue := hnew'.value ht
      have hvalues : List.Forall₂ R'.agreement.le (n.children.map w₀.value) (n₁.children.map w.value) := by
        rw [hc₁, List.map_map, List.forall₂_map_left_iff, List.forall₂_map_right_iff,
          List.forall₂_same]
        exact fun c hc => h.value ht c (hdone c hc)
      rw [hagree] at hnewValue hvalues ⊢
      rw [hframe, hshapes, hfunctions] at hnewValue
      rw [List.mem_singleton.mp hx, hself]
      exact R.agreement.trans (hsound.value (htracked ht))
        (R.agreement.trans (R.mono _ _ _ hvalues) hnewValue)
  · intro x hx channel hchannel
    rcases List.mem_append.mp hx with hx | hx
    · rw [happly x hx, hall.channelAt h.sound (h.live x hx)]
      exact h.channel x hx channel hchannel
    · rw [List.mem_singleton.mp hx] at hchannel ⊢
      rw [hself]
      apply hnew'.channel
      unfold Graph.channelAt at hchannel
      rw [hn₀, Option.bind_some] at hchannel
      exact hchannel₁.trans hchannel
  · intro hsteady x hx channel hchannel
    rcases List.mem_append.mp hx with hx | hx
    · rw [happly x hx]
      exact h.stays hsteady x hx channel hchannel
    · rw [List.mem_singleton.mp hx] at hchannel ⊢
      unfold Graph.channelAt at hchannel
      rw [hn₀, Option.bind_some] at hchannel
      rw [hself]
      exact hstays hsteady channel (hchannel₁.trans hchannel)

/-- All nodes of the order are replaced. -/
theorem run (hreplace : Replaces R R' inv replace refused)
    (hinv : ∀ g w id n, Sound R' g w → ¬w.live id → inv g w → inv (g.setNode id n) w)
    (htracked : R'.tracked → R.tracked) (hagree : R'.agreement = R.agreement) (h₀ : Sound R g₀ w₀)
    (rest : List NodeId) (hlive : ∀ id ∈ rest, w₀.live id)
    (hlisted : Listed (fun id => (g₀.node id).map Node.children) (done ++ rest))
    (h : Swept R' inv replace g₀ w₀ done r g w) :
    Ends (rest.foldlM (replaceUpward replace) r) g (fun r' g' =>
      ∃ w', Swept R' inv replace g₀ w₀ (done ++ rest) r' g' w') refused := by
  induction rest generalizing done r g w with
  | nil =>
    rw [List.append_nil]
    exact ⟨w, h⟩
  | cons id rest ih =>
    have hnew : id ∉ done := by
      have hnodup := hlisted.nodup
      rw [List.nodup_append] at hnodup
      exact fun hmem => hnodup.2.2 id hmem id List.mem_cons_self rfl
    have hchildren : ∀ n, g₀.node? id = some n → ∀ c ∈ n.children, c ∈ done := by
      intro n hn
      refine hlisted.before rfl ?_
      unfold Graph.node
      rw [hn]
      rfl
    have happend : done ++ id :: rest = done ++ [id] ++ rest := by
      rw [List.append_assoc, List.singleton_append]
    rw [List.foldlM_cons, ends_bind]
    refine (h.step hreplace hinv htracked hagree h₀ (hlive id List.mem_cons_self) hnew hchildren).mono ?_
    rintro r' g' ⟨w', h'⟩
    rw [happend] at hlisted ⊢
    exact ih (fun x hx => hlive x (List.mem_cons_of_mem _ hx)) hlisted h'

end Swept

/-- A node that writes a stream may replace an output. -/
theorem ends_checkOutput {old new : NodeId} (h : ∃ channel, g.channelAt new = some channel)
    {post : Unit → Graph → Prop} : Ends (checkOutput old new) g post refused ↔ post () g := by
  obtain ⟨channel, hchannel⟩ := h
  obtain ⟨n, source, hn, hop⟩ := Graph.channelAt_eq_some hchannel
  have hout : n.isOutput = true := by
    unfold Node.isOutput
    rw [hop]
  unfold checkOutput
  rw [ends_bind, ends_node hn, if_pos hout, ends_pure]

/-- Whether an output may be replaced is checked without changing anything. -/
theorem checkOutput_any (old new : NodeId) :
    Ends (checkOutput old new) g (fun _ g' => g' = g) fun _ => True := by
  unfold checkOutput outputName node
  rw [ends_bind, ends_ask_any]
  intro n _
  split
  · exact rfl
  · rw [ends_bind, ends_bind, ends_ask_any]
    intro m _
    split <;> exact trivial

/-- Outputs are replaced by outputs. -/
theorem ends_checkOutputs {f : NodeId → NodeId} {ids : List NodeId}
    (h : ∀ id ∈ ids, ∃ channel, g.channelAt (f id) = some channel)
    {post : List NodeId → Graph → Prop} :
    Ends (ids.mapM fun id => do checkOutput id (f id); return f id) g post refused ↔
      post (ids.map f) g := by
  induction ids generalizing post with
  | nil => exact Iff.rfl
  | cons id rest ih =>
    rw [List.mapM_cons, ends_bind, ends_bind, ends_checkOutput (h id List.mem_cons_self),
      ends_pure, ends_bind, ih fun x hx => h x (List.mem_cons_of_mem _ hx)]
    rfl

/-- Whether outputs may be replaced is checked without changing anything. -/
theorem checkOutputs_any (f : NodeId → NodeId) (ids : List NodeId) :
    Ends (ids.mapM fun id => do checkOutput id (f id); return f id) g
      (fun new g' => new = ids.map f ∧ g' = g) fun _ => True := by
  induction ids with
  | nil => exact ⟨rfl, rfl⟩
  | cons id rest ih =>
    rw [List.mapM_cons, ends_bind, ends_bind]
    refine (checkOutput_any id (f id)).mono ?_
    rintro _ g' rfl
    rw [ends_pure, ends_bind]
    refine ih.mono ?_
    rintro new g' ⟨rfl, rfl⟩
    exact ⟨rfl, rfl⟩

/-- An upward sweep brings a graph under the new rules, and its outputs make the
same deliveries. The invariant of its steps holds until the outputs are
redirected, and outputs stay where nodes that write streams do. -/
theorem sweepUpward_ends {inv : Graph → World → Prop} {replace : NodeId → Build NodeId}
    {made : List Delivery} (hreplace : Replaces R R' inv replace refused)
    (hinv : ∀ g w id n, Sound R' g w → ¬w.live id → inv g w → inv (g.setNode id n) w)
    (hstart : ∀ w : World, inv g { w with live := fun _ => False })
    (htracked : R'.tracked → R.tracked) (hneed : ∀ op, 1 ≤ R.need op) (h : Stage R g made)
    (hagree : R'.agreement = R.agreement) :
    Ends (sweepUpward replace) g (fun _ g' => (Steady replace → g'.outputs = g.outputs) ∧
      ∃ w' outputs, Sound R' g' w' ∧ Writes R' g' w' g'.outputs made ∧
        inv { g' with outputs := outputs } w') refused := by
  obtain ⟨w, hs, hwrites⟩ := h
  obtain ⟨order, horder⟩ := hs.postOrder_total fun id => hwrites.live
  obtain ⟨hlisted, hlive, hmem⟩ := hs.postOrder_listed hneed (fun id => hwrites.live) horder
  unfold sweepUpward
  rw [ends_bind, ends_ask horder, ends_bind]
  have hempty : Swept R' inv replace g w [] [] g { w with live := fun _ => False } :=
    { functions := rfl
      outputs := rfl
      size := Nat.le_refl _
      sound := fun _ hx => hx.elim
      inv := hstart w
      reached := fun _ hx => hx.elim
      kept := fun _ _ _ hn => hn
      live := fun _ hx => (nomatch hx)
      shape := fun _ hx => (nomatch hx)
      value := fun _ _ hx => (nomatch hx)
      channel := fun _ hx => (nomatch hx)
      stays := fun _ _ hx => (nomatch hx) }
  refine (hempty.run hreplace hinv htracked hagree hs order.toList hlive
    (by rw [List.nil_append]; exact hlisted)).mono ?_
  rintro r g' ⟨w', hswept⟩
  rw [List.nil_append] at hswept
  rw [ends_bind, ends_get, ends_bind, ends_checkOutputs, ends_modify]
  · refine ⟨fun hsteady => ?_, w', g'.outputs, hswept.sound.withOutputs _, ?_, hswept.inv⟩
    · dsimp only
      rw [hswept.outputs]
      refine (List.map_congr_left fun id hid => ?_).trans (List.map_id _)
      obtain ⟨channel, hchannel⟩ := hwrites.channel hid
      exact hswept.stays hsteady id (hmem id hid) channel hchannel
    refine hwrites.replace ?_ htracked hagree
    rw [hswept.outputs, List.forall₂_map_right_iff, List.forall₂_same]
    intro id hid
    exact ⟨hswept.live id (hmem id hid), hswept.channel id (hmem id hid),
      fun ht => hswept.value ht id (hmem id hid)⟩
  · intro id hid
    rw [hswept.outputs] at hid
    obtain ⟨channel, hchannel⟩ := hwrites.channel hid
    exact ⟨channel, hswept.channel id (hmem id hid) channel hchannel⟩

end LaneGraph
