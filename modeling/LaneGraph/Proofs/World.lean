import LaneGraph.Proofs.Building
import LaneGraph.Proofs.Interpretation
import Mathlib.Data.Finset.Card

/-!
# Worlds over a graph

A world says which nodes of a graph matter, in which order they can be computed
and what their values are. Rules say what is required of a node, given the
shapes, the order and the values of its operands. A world is sound if every node
that matters follows the rules. Since a rule sees only the frame of a node and
what is known about its operands, an operand may be exchanged for another one of
the same shape and value that comes no later.
-/

namespace LaneGraph

/-- The nodes that matter, their order and their values. -/
structure World where
  /-- The nodes that matter. -/
  live : NodeId → Prop
  /-- The order: operands rank below their users. -/
  rank : NodeId → Nat
  /-- The values. -/
  value : NodeId → Value

/-- What is required of nodes. Frames stand for nodes, so that nothing depends on
the positions of operands. -/
structure Rules where
  /-- Values are followed. -/
  tracked : Prop
  /-- A frame fits the shapes of its operands, given the function table. -/
  fits : List Signature → Node → List Shape → Prop
  /-- The value of a frame from the shapes and values of its operands. -/
  meaning : List Signature → Node → List Shape → List Value → Value
  /-- By how much an operation has to rank above its operands. -/
  need : Operation → Nat
  /-- In what sense values are kept. -/
  agreement : Agreement := .equal
  /-- Operands that agree make values that agree. -/
  mono : ∀ functions n shapes {values values'}, List.Forall₂ agreement.le values values' →
    agreement.le (meaning functions n shapes values) (meaning functions n shapes values') := by
      exact fun _ _ _ _ _ h => Agreement.equal_mono _ h

namespace Node

/-- The shape of a node is in its frame. -/
@[simp] theorem shape_frame (n : Node) : n.frame.shape = n.shape := rfl

/-- The literal of a node is in its frame. -/
@[simp] theorem constant?_frame (n : Node) : n.frame.constant? = n.constant? := by
  unfold constant? frame
  cases n.op <;> rfl

/-- The stream that a node writes. -/
def channel? (n : Node) : Option Channel :=
  match n.op with
  | .output channel _ => some channel
  | _ => none

/-- A node that writes a stream is an output. -/
theorem op_of_channel? {n : Node} {channel : Channel} (h : n.channel? = some channel) :
    ∃ source, n.op = .output channel source := by
  unfold channel? at h
  split at h
  · rename_i source hop
    cases h
    exact ⟨source, hop⟩
  · cases h

/-- The stream of a node is in its frame. -/
@[simp] theorem channel?_frame (n : Node) : n.frame.channel? = n.channel? := by
  unfold channel? frame
  cases n.op <;> rfl

end Node

namespace Graph

/-- The stream that the node at a position writes. -/
def channelAt (g : Graph) (id : NodeId) : Option Channel := (g.node? id).bind Node.channel?

/-- A node that writes a stream is an output. -/
theorem channelAt_eq_some {g : Graph} {id : NodeId} {channel : Channel}
    (h : g.channelAt id = some channel) :
    ∃ n source, g.node? id = some n ∧ n.op = .output channel source := by
  obtain ⟨n, hn, hchannel⟩ := Option.bind_eq_some_iff.mp h
  obtain ⟨source, hop⟩ := Node.op_of_channel? hchannel
  exact ⟨n, source, hn, hop⟩

end Graph

variable {R : Rules} {g g' g'' : Graph} {w w' w'' : World}

/-- A node follows the rules with a rank and a value. -/
structure NodeSound (R : Rules) (g : Graph) (w : World) (n : Node) (rank : Nat) (value : Value) :
    Prop where
  fits : R.fits g.functions n.frame (n.children.map g.shapeAt)
  live : ∀ c ∈ n.children, w.live c
  below : ∀ c ∈ n.children, w.rank c + R.need n.frame.op ≤ rank
  value : R.tracked → R.agreement.le value
    (R.meaning g.functions n.frame (n.children.map g.shapeAt) (n.children.map w.value))

/-- Operands rank below their users. -/
theorem NodeSound.rank_lt {n : Node} {rank : Nat} {value : Value}
    (h : NodeSound R g w n rank value) (hneed : 1 ≤ R.need n.frame.op) {c : NodeId}
    (hc : c ∈ n.children) : w.rank c < rank := by
  have hbelow := h.below c hc
  omega

/-- Every node that matters follows the rules. -/
def Sound (R : Rules) (g : Graph) (w : World) : Prop :=
  ∀ id, w.live id → ∃ n, g.node? id = some n ∧ NodeSound R g w n (w.rank id) (w.value id)

/-- Nothing that is known about the nodes that matter gets lost. -/
structure Later (g : Graph) (w : World) (g' : Graph) (w' : World) : Prop where
  functions : g'.functions = g.functions
  outputs : g'.outputs = g.outputs
  size : g.nodes.size ≤ g'.nodes.size
  live : ∀ id, w.live id → w'.live id
  rank : ∀ id, w.live id → w'.rank id = w.rank id
  value : ∀ id, w.live id → w'.value id = w.value id
  frame : ∀ id n, w.live id → g.node? id = some n → ∃ n', g'.node? id = some n' ∧
    n'.frame = n.frame ∧ n'.children.map g'.shapeAt = n.children.map g.shapeAt

namespace Later

/-- Nothing gets lost by doing nothing. -/
theorem refl (g : Graph) (w : World) : Later g w g w :=
  ⟨rfl, rfl, Nat.le_refl _, fun _ h => h, fun _ _ => rfl, fun _ _ => rfl,
    fun _ n _ hn => ⟨n, hn, rfl, rfl⟩⟩

/-- What is not lost twice is not lost. -/
theorem trans (h : Later g w g' w') (h' : Later g' w' g'' w'') : Later g w g'' w'' where
  functions := h'.functions.trans h.functions
  outputs := h'.outputs.trans h.outputs
  size := Nat.le_trans h.size h'.size
  live id hid := h'.live id (h.live id hid)
  rank id hid := (h'.rank id (h.live id hid)).trans (h.rank id hid)
  value id hid := (h'.value id (h.live id hid)).trans (h.value id hid)
  frame id n hid hn := by
    obtain ⟨n', hn', hframe, hshapes⟩ := h.frame id n hid hn
    obtain ⟨n'', hn'', hframe', hshapes'⟩ := h'.frame id n' (h.live id hid) hn'
    exact ⟨n'', hn'', hframe'.trans hframe, hshapes'.trans hshapes⟩

end Later

namespace Sound

/-- A node that matters is in the arena. -/
theorem node (h : Sound R g w) {id : NodeId} (hid : w.live id) : ∃ n, g.node? id = some n := by
  obtain ⟨n, hn, -⟩ := h id hid
  exact ⟨n, hn⟩

/-- A node that matters stands below the end of the arena. -/
theorem lt_size (h : Sound R g w) {id : NodeId} (hid : w.live id) : id < g.nodes.size := by
  obtain ⟨n, hn⟩ := h.node hid
  exact Graph.lt_size hn

/-- A node that matters follows the rules. -/
theorem nodeSound (h : Sound R g w) {id : NodeId} {n : Node} (hid : w.live id)
    (hn : g.node? id = some n) : NodeSound R g w n (w.rank id) (w.value id) := by
  obtain ⟨n', hn', hsound⟩ := h id hid
  rw [hn] at hn'
  cases hn'
  exact hsound

end Sound

namespace Later

/-- The shapes of nodes that matter stay. -/
theorem shapeAt (h : Later g w g' w') (hs : Sound R g w) {id : NodeId} (hid : w.live id) :
    g'.shapeAt id = g.shapeAt id := by
  obtain ⟨n, hn⟩ := hs.node hid
  obtain ⟨n', hn', hframe, -⟩ := h.frame id n hid hn
  rw [Graph.shapeAt_eq hn, Graph.shapeAt_eq hn']
  exact congrArg (fun m => m.shape) hframe

/-- The streams of nodes that matter stay. -/
theorem channelAt (h : Later g w g' w') (hs : Sound R g w) {id : NodeId} (hid : w.live id) :
    g'.channelAt id = g.channelAt id := by
  obtain ⟨n, hn⟩ := hs.node hid
  obtain ⟨n', hn', hframe, -⟩ := h.frame id n hid hn
  unfold Graph.channelAt
  rw [hn, hn', Option.bind_some, Option.bind_some, ← Node.channel?_frame n', hframe,
    Node.channel?_frame]

end Later

/-- A node follows the rules as long as nothing gets lost. -/
theorem NodeSound.later {n : Node} {rank : Nat} {value : Value}
    (hn : NodeSound R g w n rank value) (hs : Sound R g w) (h : Later g w g' w') :
    NodeSound R g' w' n rank value := by
  have hshapes : n.children.map g'.shapeAt = n.children.map g.shapeAt :=
    List.map_congr_left fun c hc => h.shapeAt hs (hn.live c hc)
  have hvalues : n.children.map w'.value = n.children.map w.value :=
    List.map_congr_left fun c hc => h.value c (hn.live c hc)
  refine ⟨?_, fun c hc => h.live c (hn.live c hc), ?_, ?_⟩
  · rw [h.functions, hshapes]
    exact hn.fits
  · intro c hc
    rw [h.rank c (hn.live c hc)]
    exact hn.below c hc
  · intro ht
    rw [h.functions, hshapes, hvalues]
    exact hn.value ht

namespace World

/-- The world with one more node that matters. -/
def add (w : World) (id : NodeId) (rank : Nat) (value : Value) : World where
  live x := x = id ∨ w.live x
  rank x := if x = id then rank else w.rank x
  value x := if x = id then value else w.value x

/-- Nothing gets lost by taking in a node that did not matter. -/
theorem later_add {id : NodeId} (hid : ¬w.live id) (rank : Nat) (value : Value) :
    Later g w g (w.add id rank value) := by
  have hne : ∀ x, w.live x → x ≠ id := fun x hx heq => hid (heq ▸ hx)
  exact ⟨rfl, rfl, Nat.le_refl _, fun x hx => .inr hx, fun x hx => if_neg (hne x hx),
    fun x hx => if_neg (hne x hx), fun x n _ hn => ⟨n, hn, rfl, rfl⟩⟩

end World

namespace Sound

/-- A node that follows the rules may be taken in. -/
theorem add (h : Sound R g w) {id : NodeId} {n : Node} (hid : ¬w.live id)
    (hn : g.node? id = some n) {rank : Nat} {value : Value}
    (hsound : NodeSound R g w n rank value) : Sound R g (w.add id rank value) := by
  have hlater := World.later_add (g := g) hid rank value
  intro x hx
  rcases hx with rfl | hx
  · refine ⟨n, hn, ?_⟩
    unfold World.add
    dsimp only
    rw [if_pos rfl, if_pos rfl]
    exact hsound.later h hlater
  · obtain ⟨m, hm, hms⟩ := h x hx
    refine ⟨m, hm, ?_⟩
    rw [hlater.rank x hx, hlater.value x hx]
    exact hms.later h hlater

/-- Nothing gets lost when nodes are added to the arena. -/
theorem later_push (h : Sound R g w) (n : Node) : Later g w (g.push n) w where
  functions := rfl
  outputs := rfl
  size := by
    unfold Graph.push
    rw [Array.size_push]
    omega
  live _ hx := hx
  rank _ _ := rfl
  value _ _ := rfl
  frame x m hx hm := by
    refine ⟨m, Graph.node?_push_of_some hm, rfl, List.map_congr_left fun c hc => ?_⟩
    obtain ⟨k, hk⟩ := h.node ((h.nodeSound hx hm).live c hc)
    rw [Graph.shapeAt_eq hk, Graph.shapeAt_eq (Graph.node?_push_of_some hk)]

/-- A sound world stays sound where every node that matters keeps its place. -/
theorem of_kept (h : Sound R g w) (hlater : Later g w g' w)
    (hkept : ∀ id n, w.live id → g.node? id = some n → g'.node? id = some n) : Sound R g' w := by
  intro id hid
  obtain ⟨n, hn, hsound⟩ := h id hid
  exact ⟨n, hkept id n hid hn, hsound.later h hlater⟩

/-- A node that follows the rules may be added to the arena and taken in. -/
theorem push (h : Sound R g w) (n : Node) (rank : Nat) (value : Value)
    (hsound : NodeSound R g w n rank value) :
    Sound R (g.push n) (w.add g.nodes.size rank value) := by
  have hlater := h.later_push n
  have hkept : Sound R (g.push n) w :=
    h.of_kept hlater fun _ _ _ hm => Graph.node?_push_of_some hm
  have hfresh : ¬w.live g.nodes.size := fun hlive => Nat.lt_irrefl _ (h.lt_size hlive)
  exact hkept.add hfresh (Graph.node?_push_size g n) (hsound.later h hlater)

end Sound

/-- Nodes are only added, and only new nodes begin to matter. -/
structure Extends (g : Graph) (w : World) (g' : Graph) (w' : World) : Prop
    extends Later g w g' w' where
  nodes : ∀ id n, g.node? id = some n → g'.node? id = some n
  fresh : ∀ id, w'.live id → w.live id ∨ g.nodes.size ≤ id

namespace Extends

/-- Doing nothing extends a graph. -/
theorem refl (g : Graph) (w : World) : Extends g w g w :=
  ⟨Later.refl g w, fun _ _ h => h, fun _ h => .inl h⟩

/-- Extending twice is extending. -/
theorem trans (h : Extends g w g' w') (h' : Extends g' w' g'' w'') : Extends g w g'' w'' where
  toLater := h.toLater.trans h'.toLater
  nodes id n hn := h'.nodes id n (h.nodes id n hn)
  fresh id hid := by
    rcases h'.fresh id hid with hlive | hsize
    · exact h.fresh id hlive
    · exact .inr (Nat.le_trans h.size hsize)

/-- A node that is added and taken in extends the graph. -/
theorem push (hs : Sound R g w) (n : Node) (rank : Nat) (value : Value) :
    Extends g w (g.push n) (w.add g.nodes.size rank value) where
  toLater := (hs.later_push n).trans
    (World.later_add (fun hlive => Nat.lt_irrefl _ (hs.lt_size hlive)) rank value)
  nodes _ _ hm := Graph.node?_push_of_some hm
  fresh id hid := by
    rcases hid with rfl | hid
    · exact .inr (Nat.le_refl _)
    · exact .inl hid

end Extends

/-- What is known about a node that matters: its shape, its value and a bound of
its rank. -/
structure Has (R : Rules) (g : Graph) (w : World) (id : NodeId) (shape : Shape) (value : Value)
    (bound : Nat) : Prop where
  live : w.live id
  shape : g.shapeAt id = shape
  value : R.tracked → R.agreement.le value (w.value id)
  rank : w.rank id ≤ bound

namespace Has

variable {id : NodeId} {shape : Shape} {value : Value} {bound : Nat}

/-- What is known stays known. -/
theorem later (h : Has R g w id shape value bound) (hs : Sound R g w) (hl : Later g w g' w') :
    Has R g' w' id shape value bound where
  live := hl.live id h.live
  shape := (hl.shapeAt hs h.live).trans h.shape
  value ht := by
    rw [hl.value id h.live]
    exact h.value ht
  rank := by rw [hl.rank id h.live]; exact h.rank

/-- A larger bound is a bound. -/
theorem mono (h : Has R g w id shape value bound) {bound' : Nat} (hle : bound ≤ bound') :
    Has R g w id shape value bound' := ⟨h.live, h.shape, h.value, Nat.le_trans h.rank hle⟩

/-- Less may be known of the value. -/
theorem weaken (h : Has R g w id shape value bound) {value' : Value}
    (hvalue : R.tracked → R.agreement.le value' value) : Has R g w id shape value' bound :=
  ⟨h.live, h.shape, fun ht => R.agreement.trans (hvalue ht) (h.value ht), h.rank⟩

/-- The node of a known node. -/
theorem node (h : Has R g w id shape value bound) (hs : Sound R g w) :
    ∃ n, g.node? id = some n ∧ n.shape = shape := by
  obtain ⟨n, hn⟩ := hs.node h.live
  exact ⟨n, hn, (Graph.shapeAt_eq hn).symm.trans h.shape⟩

end Has

/-- A node that matters is known by its own shape, value and rank. -/
theorem World.has (R : Rules) (g : Graph) {w : World} {id : NodeId} (h : w.live id) :
    Has R g w id (g.shapeAt id) (w.value id) (w.rank id) :=
  ⟨h, rfl, fun _ => R.agreement.refl _, Nat.le_refl _⟩

/-- The node that was taken in is known. -/
theorem World.has_add (R : Rules) (w : World) {id : NodeId} {n : Node} (hn : g.node? id = some n) (rank : Nat)
    (value : Value) : Has R g (w.add id rank value) id n.shape value rank where
  live := .inl rfl
  shape := Graph.shapeAt_eq hn
  value _ := by
    rw [show (w.add id rank value).value id = value from if_pos rfl]
    exact R.agreement.refl _
  rank := Nat.le_of_eq (if_pos rfl)

/-- Lists whose entries agree under two functions have the same images. -/
theorem map_eq_map_of_forall₂ {α β γ : Type} {f : α → γ} {h : β → γ} {xs : List α} {ys : List β}
    (hall : List.Forall₂ (fun x y => h y = f x) xs ys) : ys.map h = xs.map f := by
  induction hall with
  | nil => rfl
  | cons hxy _ ih => rw [List.map_cons, List.map_cons, hxy, ih]

/-- A member of a list is no larger than its maximum. -/
theorem le_foldl_max {x : Nat} {xs : List Nat} (h : x ∈ xs) (start : Nat) :
    x ≤ xs.foldl max start := by
  induction xs generalizing start with
  | nil => cases h
  | cons y ys ih =>
    have hstart : ∀ (zs : List Nat) (m : Nat), m ≤ zs.foldl max m := by
      intro zs
      induction zs with
      | nil => exact fun m => Nat.le_refl m
      | cons z zs ihz => exact fun m => Nat.le_trans (Nat.le_max_left m z) (ihz _)
    rw [List.foldl_cons]
    rcases List.mem_cons.mp h with rfl | h
    · exact Nat.le_trans (Nat.le_max_right start x) (hstart ys _)
    · exact ih h _

/-- The second node may stand in for the first. -/
abbrev StandsIn (R : Rules) (g : Graph) (w : World) (old new : NodeId) : Prop :=
  Has R g w new (g.shapeAt old) (w.value old) (w.rank old)

namespace Sound

/-- Nothing gets lost when the operands of a node are exchanged for others of the
same shapes. -/
theorem later_redirect (w : World) {id : NodeId} {n n' : Node} (hn : g.node? id = some n)
    (hframe : n'.frame = n.frame)
    (hshapes : w.live id → n'.children.map g.shapeAt = n.children.map g.shapeAt) :
    Later g w (g.setNode id n') w where
  functions := rfl
  outputs := rfl
  size := Nat.le_of_eq (Graph.size_setNode g id n').symm
  live _ hx := hx
  rank _ _ := rfl
  value _ _ := rfl
  frame x m hx hm := by
    have hall : (g.setNode id n').shapeAt = g.shapeAt := by
      funext c
      unfold Graph.shapeAt
      by_cases hc : c = id
      · rw [hc, Graph.node?_setNode_self n' hn, hn]
        exact congrArg (fun k => k.shape) hframe
      · rw [Graph.node?_setNode_of_ne n' hc]
    rw [hall]
    by_cases heq : x = id
    · subst heq
      rw [hn] at hm
      cases hm
      exact ⟨n', Graph.node?_setNode_self n' hn, hframe, hshapes hx⟩
    · exact ⟨m, by rw [Graph.node?_setNode_of_ne n' heq]; exact hm, rfl, rfl⟩

/-- The operands of a node may be exchanged for nodes that stand in for them. -/
theorem redirect (h : Sound R g w) {id : NodeId} {n n' : Node} (hn : g.node? id = some n)
    (hframe : n'.frame = n.frame)
    (hchildren : List.Forall₂ (StandsIn R g w) n.children n'.children) :
    Sound R (g.setNode id n') w := by
  have hshapes : n'.children.map g.shapeAt = n.children.map g.shapeAt :=
    map_eq_map_of_forall₂ (hchildren.imp fun _ _ hc => hc.shape)
  have hlater := later_redirect w hn hframe fun _ => hshapes
  intro x hx
  by_cases hxid : x = id
  · subst hxid
    have hold := h.nodeSound hx hn
    have hmem : ∀ c' ∈ n'.children, ∃ c ∈ n.children, StandsIn R g w c c' := by
      intro c' hc'
      obtain ⟨k, hk, hget⟩ := List.getElem_of_mem hc'
      have hlt : k < n.children.length := by rw [hchildren.length_eq]; exact hk
      have hstands := hchildren.get hlt hk
      rw [List.get_eq_getElem, List.get_eq_getElem, hget] at hstands
      exact ⟨n.children[k], List.getElem_mem hlt, hstands⟩
    refine ⟨n', Graph.node?_setNode_self n' hn, NodeSound.later ⟨?_, ?_, ?_, ?_⟩ h hlater⟩
    · rw [hframe, hshapes]
      exact hold.fits
    · intro c' hc'
      obtain ⟨c, -, hstands⟩ := hmem c' hc'
      exact hstands.live
    · intro c' hc'
      obtain ⟨c, hc, hstands⟩ := hmem c' hc'
      have hbelow := hold.below c hc
      have hrank := hstands.rank
      rw [hframe]
      omega
    · intro ht
      have hvalues : List.Forall₂ R.agreement.le (n.children.map w.value) (n'.children.map w.value) := by
        rw [List.forall₂_map_left_iff, List.forall₂_map_right_iff]
        exact hchildren.imp fun _ _ hc => hc.value ht
      rw [hframe, hshapes]
      exact R.agreement.trans (hold.value ht) (R.mono _ _ _ hvalues)
  · obtain ⟨m, hm, hms⟩ := h x hx
    exact ⟨m, by rw [Graph.node?_setNode_of_ne n' hxid]; exact hm, hms.later h hlater⟩

/-- A part of the nodes that matter may be kept if it is closed under operands,
and what fits them there may be more. -/
theorem restrict (R' : Rules) (h : Sound R g w) (keep : NodeId → Prop)
    (hkeep : ∀ id, keep id → w.live id)
    (hclosed : ∀ id n, keep id → g.node? id = some n → ∀ c ∈ n.children, keep c)
    (htracked : R'.tracked → R.tracked)
    (hfits : ∀ id n, keep id → g.node? id = some n →
      R.fits g.functions n.frame (n.children.map g.shapeAt) →
      R'.fits g.functions n.frame (n.children.map g.shapeAt))
    (hmeaning : ∀ n shapes values, R.fits g.functions n shapes →
      R'.meaning g.functions n shapes values = R.meaning g.functions n shapes values)
    (hneed : ∀ n, R'.need n ≤ R.need n) (hagree : R'.agreement = R.agreement) :
    Sound R' g { w with live := keep } := by
  intro id hid
  obtain ⟨n, hn, hsound⟩ := h id (hkeep id hid)
  refine ⟨n, hn, hfits id n hid hn hsound.fits, hclosed id n hid hn, ?_, ?_⟩
  · intro c hc
    have hbelow := hsound.below c hc
    have hle := hneed n.frame.op
    dsimp only
    omega
  · intro ht
    dsimp only
    rw [hmeaning _ _ _ hsound.fits, hagree]
    exact hsound.value (htracked ht)

/-- The nodes that matter and rank below a node. -/
noncomputable def lower (g : Graph) (w : World) (id : NodeId) : Finset NodeId :=
  open Classical in (Finset.range g.nodes.size).filter fun x => w.live x ∧ w.rank x < w.rank id

/-- Membership among the nodes that rank below a node. -/
theorem mem_lower {id x : NodeId} :
    x ∈ lower g w id ↔ x < g.nodes.size ∧ w.live x ∧ w.rank x < w.rank id := by
  simp only [lower, Finset.mem_filter, Finset.mem_range]

/-- A node that ranks lower has fewer nodes below it. -/
theorem card_lower_lt (h : Sound R g w) {c id : NodeId} (hlive : w.live c)
    (hrank : w.rank c < w.rank id) : (lower g w c).card < (lower g w id).card := by
  apply Finset.card_lt_card
  rw [Finset.ssubset_iff_of_subset]
  · exact ⟨c, mem_lower.mpr ⟨h.lt_size hlive, hlive, hrank⟩,
      fun hmem => Nat.lt_irrefl _ (mem_lower.mp hmem).2.2⟩
  · intro x hx
    obtain ⟨hlt, hxlive, hxrank⟩ := mem_lower.mp hx
    exact mem_lower.mpr ⟨hlt, hxlive, Nat.lt_trans hxrank hrank⟩

/-- There are fewer nodes below a node than in the arena. -/
theorem card_lower_lt_size (h : Sound R g w) {id : NodeId} (hid : w.live id) :
    (lower g w id).card < g.nodes.size := by
  have hsub : lower g w id ⊂ Finset.range g.nodes.size := by
    rw [Finset.ssubset_iff_of_subset fun x hx => Finset.mem_range.mpr (mem_lower.mp hx).1]
    exact ⟨id, Finset.mem_range.mpr (h.lt_size hid),
      fun hmem => Nat.lt_irrefl _ (mem_lower.mp hmem).2.2⟩
  have hcard := Finset.card_lt_card hsub
  rwa [Finset.card_range] at hcard

/-- Ranks may be taken from the number of lower nodes, spread by a factor that
leaves room for any need up to it. -/
theorem rescale (R' : Rules) (h : Sound R g w) (factor : Nat) (hneed : ∀ n, 1 ≤ R.need n)
    (hneed' : ∀ n, R'.need n ≤ factor) (htracked : R'.tracked = R.tracked)
    (hfits : R'.fits = R.fits) (hmeaning : R'.meaning = R.meaning)
    (hagree : R'.agreement = R.agreement) :
    ∃ rank : NodeId → Nat, Sound R' g { w with rank := rank } ∧
      ∀ id, w.live id → rank id + factor ≤ factor * g.nodes.size := by
  refine ⟨fun id => factor * (lower g w id).card, ?_, ?_⟩
  · intro id hid
    obtain ⟨n, hn, hsound⟩ := h id hid
    refine ⟨n, hn, by rw [hfits]; exact hsound.fits, hsound.live, ?_, ?_⟩
    · intro c hc
      have hlive := hsound.live c hc
      have hrank : w.rank c < w.rank id := by
        have hbelow := hsound.below c hc
        have hpos := hneed n.frame.op
        omega
      have hcard := h.card_lower_lt hlive hrank
      calc factor * (lower g w c).card + R'.need n.frame.op
          ≤ factor * (lower g w c).card + factor := Nat.add_le_add_left (hneed' _) _
        _ = factor * ((lower g w c).card + 1) := by rw [Nat.mul_add, Nat.mul_one]
        _ ≤ factor * (lower g w id).card := Nat.mul_le_mul_left _ hcard
    · intro ht
      rw [hmeaning, hagree]
      exact hsound.value (htracked ▸ ht)
  · intro id hid
    have hcard := h.card_lower_lt_size hid
    calc factor * (lower g w id).card + factor
        = factor * ((lower g w id).card + 1) := by rw [Nat.mul_add, Nat.mul_one]
      _ ≤ factor * g.nodes.size := Nat.mul_le_mul_left _ hcard

end Sound

/-- What an output delivers: a stream and the value that is written to it. -/
structure Delivery where
  /-- The stream. -/
  channel : Channel
  /-- What is written to it. -/
  value : Value

/-- Output nodes that matter make given deliveries. -/
def Writes (R : Rules) (g : Graph) (w : World) (ids : List NodeId) (made : List Delivery) :
    Prop :=
  List.Forall₂ (fun id delivery => w.live id ∧ g.channelAt id = some delivery.channel ∧
    (R.tracked → R.agreement.le delivery.value (w.value id))) ids made

/-- The graph follows rules, and its outputs make given deliveries. -/
def Stage (R : Rules) (g : Graph) (made : List Delivery) : Prop :=
  ∃ w, Sound R g w ∧ Writes R g w g.outputs made

namespace Writes

variable {ids : List NodeId} {made : List Delivery}

/-- Outputs that make deliveries matter. -/
theorem live (h : Writes R g w ids made) {id : NodeId} (hid : id ∈ ids) : w.live id := by
  obtain ⟨k, hk, rfl⟩ := List.getElem_of_mem hid
  have hlt : k < made.length := by
    rw [← h.length_eq]
    exact hk
  exact (h.get hk hlt).1

/-- Outputs that make deliveries write streams. -/
theorem channel (h : Writes R g w ids made) {id : NodeId} (hid : id ∈ ids) :
    ∃ channel, g.channelAt id = some channel := by
  obtain ⟨k, hk, rfl⟩ := List.getElem_of_mem hid
  have hlt : k < made.length := by
    rw [← h.length_eq]
    exact hk
  exact ⟨_, (h.get hk hlt).2.1⟩

/-- Deliveries go on to be made. -/
theorem later (h : Writes R g w ids made) (hs : Sound R g w) (hl : Later g w g' w') :
    Writes R g' w' ids made :=
  List.Forall₂.imp (fun id _ hid => ⟨hl.live id hid.1, (hl.channelAt hs hid.1).trans hid.2.1,
    fun ht => by
      rw [hl.value id hid.1]
      exact hid.2.2 ht⟩) h

/-- Values do not matter unless they are followed. -/
theorem congr {made' : List Delivery} (h : Writes R g w ids made)
    (hsame : List.Forall₂ (fun d d' : Delivery => d.channel = d'.channel ∧
      (R.tracked → R.agreement.le d'.value d.value)) made made') : Writes R g w ids made' := by
  unfold Writes at h ⊢
  induction hsame generalizing ids with
  | nil => exact h
  | cons hd _ ih =>
    cases h with
    | cons hid hrest =>
      refine .cons ⟨hid.1, hid.2.1.trans (congrArg some hd.1), fun ht => ?_⟩ (ih hrest)
      exact R.agreement.trans (hd.2 ht) (hid.2.2 ht)

/-- Nodes that stand in for outputs make their deliveries. -/
theorem replace {R' : Rules} {ids' : List NodeId} (h : Writes R g w ids made)
    (hids : List.Forall₂ (fun id id' => w'.live id' ∧
      (∀ channel, g.channelAt id = some channel → g'.channelAt id' = some channel) ∧
      (R'.tracked → R'.agreement.le (w.value id) (w'.value id'))) ids ids')
    (htracked : R'.tracked → R.tracked) (hagree : R'.agreement = R.agreement) :
    Writes R' g' w' ids' made := by
  unfold Writes at h ⊢
  induction h generalizing ids' with
  | nil =>
    cases hids
    exact .nil
  | cons hid _ ih =>
    cases hids with
    | cons hnew hrest =>
      refine .cons ⟨hnew.1, hnew.2.1 _ hid.2.1, fun ht => ?_⟩ (ih hrest)
      rw [hagree] at hnew ⊢
      exact R.agreement.trans (hid.2.2 (htracked ht)) (hnew.2.2 ht)

end Writes

end LaneGraph
