import LaneGraph.Proofs.Downward
import LaneGraph.Proofs.Growth

/-!
# Sweeps keep the order

In an upward sweep a node is replaced by one that ranks no higher, and there is
more room the more the ranks are spread; so before each replacement they are
spread anew. A downward sweep has to get by with the room there is at the start,
for its bound is fixed by then: each replacement leads further down, where a
selection counts one more than other nodes of its rank. Both sweeps may stop
half-way with the arena in order.
-/

namespace LaneGraph

open Build

variable {S : Streams} {g g' : Graph} {rank rank' : NodeId → Nat}

/-- A failure that is no fault and leaves the arena in order. -/
def Declined (S : Streams) (e : GraphError) (g : Graph) : Prop :=
  e.isFault = false ∧ Orderly S g

/-- Where the order is kept, there is an order. -/
theorem Keeps.lands {α : Type} {steps : Build α} {post : α → Graph → (NodeId → Nat) → Prop}
    (h : Keeps S g rank steps post) :
    Lands steps g (fun a g' => ∃ rank', Ordered S g' rank' ∧ Onward g rank g' rank' ∧
      post a g' rank') (Declined S) :=
  Lands.mono h (fun _ _ h => h) fun _ _ ⟨he, rank', h', _⟩ => ⟨he, rank', h'⟩

namespace Ordered

/-- The outputs may be changed to other nodes that write streams. -/
theorem withOutputs (h : Ordered S g rank) {outputs : List NodeId}
    (houtputs : ∀ id ∈ outputs, ∃ n, g.node? id = some n ∧ n.isOutput = true) :
    Ordered S { g with outputs } rank := h.of_nodes rfl houtputs h.representatives

/-- The operands of a node of the arena are found there. -/
theorem children (h : Ordered S g rank) {id : NodeId} (hid : id < g.nodes.size) :
    ∃ next, (g.node id).map Node.children = .ok next ∧ ∀ c ∈ next, c < g.nodes.size := by
  obtain ⟨n, hn⟩ := Graph.exists_node hid
  exact ⟨n.children, Graph.children_of_node? hn, (h.node hn).child⟩

/-- The outputs are in the arena. -/
theorem output_lt (h : Ordered S g rank) {id : NodeId} (hid : id ∈ g.outputs) :
    id < g.nodes.size := by
  obtain ⟨n, hn, -⟩ := h.outputs id hid
  exact Graph.lt_size hn

/-- The order of what the outputs depend on has operands first, and it holds the outputs and
nothing that they do not depend on. -/
theorem postOrder_listed (h : Ordered S g rank) {order : Array NodeId}
    (horder : g.postOrder = .ok order) :
    Listed (fun id => (g.node id).map Node.children) order.toList ∧
      (∀ id ∈ g.outputs, id ∈ order.toList) ∧ ∀ id ∈ order.toList, g.Needs id := by
  have hgraded := h.acyclic.graded fun _ _ hn => (h.node hn).child
  obtain ⟨hlisted, hmem⟩ := Graph.walk_listed hgraded (fun id _ => h.acyclic.needRank_le id)
    (fun _ => h.output_lt) horder
  refine ⟨hlisted, fun id hid => (hmem id).mpr ⟨id, hid, .refl⟩, fun id hid => ?_⟩
  obtain ⟨root, hroot, hreach⟩ := (hmem id).mp hid
  refine ⟨root, hroot, ?_⟩
  clear hid
  induction hreach with
  | refl => exact .refl
  | tail _ hstep ih =>
    obtain ⟨next, hnext, hmem⟩ := hstep
    obtain ⟨n, hn, rfl⟩ := Graph.node?_of_children hnext
    exact ih.tail ⟨n, hn, hmem⟩

/-- What the outputs depend on is in the arena. -/
theorem needs_lt (h : Ordered S g rank) {id : NodeId} (hid : g.Needs id) : id < g.nodes.size := by
  obtain ⟨root, hroot, hreach⟩ := hid
  induction hreach with
  | refl => exact h.output_lt hroot
  | tail _ huses _ =>
    obtain ⟨n, hn, hc⟩ := huses
    exact (h.node hn).child _ hc

/-- The nodes that outputs depend on are found, and all of them are in the arena. -/
theorem postOrder (h : Ordered S g rank) :
    ∃ order, g.postOrder = .ok order ∧ ∀ id ∈ order.toList, id < g.nodes.size := by
  obtain ⟨order, horder⟩ : ∃ order, g.postOrder = .ok order :=
    Graph.walk_total (fun _ => h.children) (fun _ => h.output_lt)
  exact ⟨order, horder, fun id hid => h.needs_lt ((h.postOrder_listed horder).2.2 id hid)⟩

/-- Looking whether a replacement may stand for an output does not change anything. -/
theorem checkOutput (h : Ordered S g rank) {old new : NodeId} (hold : old < g.nodes.size)
    (hnew : new < g.nodes.size) :
    Keeps S g rank (Build.checkOutput old new) fun _ g' rank' => g' = g ∧ rank' = rank ∧
      ∃ n, g.node? new = some n ∧ n.isOutput = true := by
  obtain ⟨n, hn⟩ := Graph.exists_node hnew
  obtain ⟨m, hm⟩ := Graph.exists_node hold
  unfold Build.checkOutput
  refine .node hn ?_
  by_cases hout : n.isOutput = true
  · rw [if_pos hout]
    exact .pure h ⟨rfl, rfl, n, hn, hout⟩
  · rw [if_neg hout]
    unfold outputName
    rw [bind_assoc]
    refine .node hm ?_
    split <;> exact .throw h rfl

end Ordered

/-- Replacements are known for nodes of the arena, and they rank no higher. -/
def Sinks (g : Graph) (rank : NodeId → Nat) (r : Replacements) : Prop :=
  ∀ x y, r.lookup x = some y → x < g.nodes.size ∧ Below g rank (rank x) y

namespace Sinks

variable {r : Replacements} {x y : NodeId}

/-- Nothing is replaced. -/
theorem nil (g : Graph) (rank : NodeId → Nat) : Sinks g rank [] := fun _ _ h => (nomatch h)

/-- One more replacement. -/
theorem cons (h : Sinks g rank r) (hx : x < g.nodes.size) (hy : Below g rank (rank x) y) :
    Sinks g rank ((x, y) :: r) := by
  intro a b hab
  rw [List.lookup_cons] at hab
  split at hab
  · rename_i heq
    cases hab
    rw [beq_iff_eq.mp heq]
    exact ⟨hx, hy⟩
  · exact h a b hab

/-- Replacements go on to rank no higher. -/
theorem onward (h : Sinks g rank r) (ho : Onward g rank g' rank') : Sinks g' rank' r := by
  intro a b hab
  obtain ⟨ha, hb⟩ := h a b hab
  refine ⟨Nat.lt_of_lt_of_le ha ho.size, ?_⟩
  rw [ho.rank a ha]
  exact hb.onward ho

/-- What stands for a node of the arena ranks no higher. -/
theorem apply (h : Sinks g rank r) (hx : x < g.nodes.size) :
    Below g rank (rank x) (r.apply x) := by
  unfold Replacements.apply
  cases hy : r.lookup x with
  | none => exact ⟨hx, Nat.le_refl _⟩
  | some y => exact (h x y hy).2

end Sinks

/-! ## Sweeping upward -/

/-- A replacement of an upward sweep, given room between a node and its operands,
ranks no higher than the node. -/
def Climbs (S : Streams) (replace : NodeId → Build NodeId) : Prop :=
  ∀ {g : Graph} {rank : NodeId → Nat} {id : NodeId} {n : Node}, Ordered S g rank →
    g.node? id = some n → 32 ≤ rank id → (∀ c ∈ n.children, rank c + 32 ≤ rank id) →
    Keeps S g rank (replace id) fun new g' rank' => Below g' rank' (rank id) new

/-- Where an upward sweep stands. -/
def Climbing (S : Streams) (g : Graph) (r : Replacements) : Prop :=
  ∃ rank, Ordered S g rank ∧ Sinks g rank r

/-- Ranks may be spread to make room. -/
theorem Ordered.spread (h : Ordered S g rank) : Ordered S g fun id => 32 * (rank id + 1) where
  node hn := by
    have hnode := h.node hn
    refine ⟨hnode.admits, hnode.width, hnode.inputWidth, hnode.child, fun c hc => ?_,
      hnode.recorded⟩
    have hbelow := hnode.below c hc
    omega
  outputs := h.outputs
  representatives := h.representatives

/-- Replacements rank no higher when ranks are spread. -/
theorem Sinks.spread {r : Replacements} (h : Sinks g rank r) :
    Sinks g (fun id => 32 * (rank id + 1)) r := by
  intro x y hxy
  obtain ⟨hx, hlt, hle⟩ := h x y hxy
  exact ⟨hx, hlt, Nat.mul_le_mul_left 32 (Nat.succ_le_succ hle)⟩

/-- The operands of a node may be exchanged for others that rank no higher. -/
theorem Ordered.mapChildren (h : Ordered S g rank) {id : NodeId} {n : Node}
    (hn : g.node? id = some n) {r : Replacements} (hr : Sinks g rank r) :
    Ordered S (g.setNode id { n with op := n.op.mapChildren r.apply }) rank ∧
      Onward g rank (g.setNode id { n with op := n.op.mapChildren r.apply }) rank := by
  have hnode := h.node hn
  have hchildren : ∀ c ∈ ({ n with op := n.op.mapChildren r.apply } : Node).children,
      ∃ x ∈ n.children, Below g rank (rank x) c := by
    intro c hc
    unfold Node.children at hc
    rw [Operation.children_mapChildren] at hc
    obtain ⟨x, hx, rfl⟩ := List.mem_map.mp hc
    exact ⟨x, hx, hr.apply (hnode.child x hx)⟩
  have hhead := n.op.head_mapChildren r.apply
  refine h.setNode _ hn hhead ⟨?_, hnode.width, hnode.inputWidth, ?_, ?_,
    hnode.recorded.of_head hhead rfl⟩
  · exact Streams.admits_of_head hnode.admits hhead (.inl rfl)
  · intro c hc
    obtain ⟨x, -, hbelow⟩ := hchildren c hc
    exact hbelow.lt
  · intro c hc
    obtain ⟨x, hx, hbelow⟩ := hchildren c hc
    have hroom := hnode.below x hx
    have hle := hbelow.le
    dsimp only
    rw [Operation.room_of_head hhead]
    omega

/-- What replacing one node of an upward sweep amounts to: the operands are
exchanged, and then the node is replaced. -/
theorem lands_replaceUpward {replace : NodeId → Build NodeId} {r : Replacements} {id : NodeId}
    {n : Node} (hn : g.node? id = some n) {post : Replacements → Graph → Prop}
    {exit : GraphError → Graph → Prop} :
    Lands (replaceUpward replace r id) g post exit ↔
      Lands (replace id) (g.setNode id { n with op := n.op.mapChildren r.apply })
        (fun new g' => post ((id, new) :: r) g') exit := by
  unfold replaceUpward modifyNode
  rw [bind_assoc, lands_bind, lands_of_runOn (runOn_node hn), lands_bind]
  exact lands_bind

/-- One node of an upward sweep is replaced. -/
theorem Climbing.step {replace : NodeId → Build NodeId} (hclimbs : Climbs S replace)
    {r : Replacements} (h : Climbing S g r) {id : NodeId} (hid : id < g.nodes.size) :
    Lands (replaceUpward replace r id) g
      (fun r' g' => Climbing S g' r' ∧ g.nodes.size ≤ g'.nodes.size ∧ g'.outputs = g.outputs)
      (Declined S) := by
  obtain ⟨rank, h, hr⟩ := h
  obtain ⟨n, hn⟩ := Graph.exists_node hid
  obtain ⟨h₁, ho₁⟩ := h.spread.mapChildren hn hr.spread
  have hn₁ := Graph.node?_setNode_self { n with op := n.op.mapChildren r.apply } hn
  -- The operands rank lower by some room, of which each unit was spread to 32.
  have hroom : ∀ c ∈ ({ n with op := n.op.mapChildren r.apply } : Node).children,
      32 * (rank c + 1) + 32 ≤ 32 * (rank id + 1) := by
    intro c hc
    have hbelow : rank c + (n.op.mapChildren r.apply).room ≤ rank id :=
      ((h.mapChildren hn hr).1.node hn₁).below c hc
    have hpos := (n.op.mapChildren r.apply).room_bounds.1
    omega
  rw [lands_replaceUpward hn]
  refine (hclimbs h₁ hn₁ (by omega) hroom).lands.mono ?_ fun _ _ he => he
  rintro new g₂ ⟨rank₂, h₂, ho₂, hnew⟩
  have ho := ho₁.trans ho₂
  refine ⟨⟨rank₂, h₂, (hr.spread.onward ho).cons (Nat.lt_of_lt_of_le hid ho.size) ?_⟩, ho.size,
    ho.outputs⟩
  rw [ho.rank id hid]
  exact hnew

/-- Outputs are replaced by nodes that write streams, or the sweep is refused. -/
theorem lands_checkOutputs (h : Ordered S g rank) {r : Replacements} (ids : List NodeId)
    (hids : ∀ id ∈ ids, id < g.nodes.size ∧ r.apply id < g.nodes.size) :
    Lands (ids.mapM fun id => do checkOutput id (r.apply id); return r.apply id) g
      (fun ids' g' => g' = g ∧ ∀ id ∈ ids', ∃ n, g.node? id = some n ∧ n.isOutput = true)
      (Declined S) := by
  induction ids with
  | nil => exact ⟨rfl, fun _ hid => (nomatch hid)⟩
  | cons id rest ih =>
    obtain ⟨hid, hnew⟩ := hids id List.mem_cons_self
    rw [List.mapM_cons, bind_assoc, lands_bind]
    refine (h.checkOutput hid hnew).lands.mono ?_ fun _ _ he => he
    rintro - g' ⟨rank', -, -, rfl, -, hout⟩
    rw [pure_bind, lands_bind]
    refine (ih fun x hx => hids x (List.mem_cons_of_mem _ hx)).mono ?_ fun _ _ he => he
    rintro others g'' ⟨rfl, hothers⟩
    refine ⟨rfl, fun x hx => ?_⟩
    rcases List.mem_cons.mp hx with rfl | hx
    · exact hout
    · exact hothers x hx

/-- An upward sweep whose steps preserve an invariant that implies order leaves the
arena in order. -/
theorem sweepUpward_orderly {replace : NodeId → Build NodeId}
    (inv : Graph → Replacements → Prop)
    (hinv : ∀ {g : Graph} {r : Replacements}, inv g r →
      ∃ rank, Ordered S g rank ∧ Sinks g rank r)
    (hstep : ∀ {g : Graph} {r : Replacements} {id : NodeId}, inv g r → id < g.nodes.size →
      Lands (replaceUpward replace r id) g
        (fun r' g' => inv g' r' ∧ g.nodes.size ≤ g'.nodes.size ∧ g'.outputs = g.outputs)
        (Declined S)) (h : inv g []) :
    Lands (sweepUpward replace) g (fun _ g' => Orderly S g') (Declined S) := by
  obtain ⟨rank, hordered, -⟩ := hinv h
  obtain ⟨order, horder, hids⟩ := hordered.postOrder
  have hrun : ∀ (ids : List NodeId) {g : Graph} {r : Replacements}, inv g r →
      (∀ id ∈ ids, id < g.nodes.size) →
      Lands (ids.foldlM (replaceUpward replace) r) g (fun r' g' => inv g' r') (Declined S) := by
    intro ids
    induction ids with
    | nil => exact fun h _ => h
    | cons id rest ih =>
      intro g r h hids
      rw [List.foldlM_cons, lands_bind]
      refine (hstep h (hids id List.mem_cons_self)).mono ?_ fun _ _ he => he
      rintro r' g' ⟨h', hsize, -⟩
      exact ih h' fun x hx => Nat.lt_of_lt_of_le (hids x (List.mem_cons_of_mem _ hx)) hsize
  unfold sweepUpward
  rw [lands_bind, lands_of_runOn (runOn_ask horder), lands_bind]
  refine (hrun order.toList h hids).mono ?_ fun _ _ he => he
  intro r g' h'
  obtain ⟨rank', hordered', hr⟩ := hinv h'
  have houtputs : ∀ id ∈ g'.outputs, id < g'.nodes.size ∧ r.apply id < g'.nodes.size := by
    intro id hid
    obtain ⟨n, hn, -⟩ := hordered'.outputs id hid
    exact ⟨Graph.lt_size hn, (hr.apply (Graph.lt_size hn)).lt⟩
  rw [lands_bind, lands_get, lands_bind]
  refine (lands_checkOutputs hordered' g'.outputs houtputs).mono ?_ fun _ _ he => he
  rintro outputs g'' ⟨rfl, hout⟩
  exact ⟨rank', hordered'.withOutputs hout⟩

/-- An upward sweep of replacements that rank no higher leaves the arena in order. -/
theorem Climbs.sweep {replace : NodeId → Build NodeId} (hclimbs : Climbs S replace)
    (h : Orderly S g) :
    Lands (sweepUpward replace) g (fun _ g' => Orderly S g') (Declined S) := by
  obtain ⟨rank, h⟩ := h
  exact sweepUpward_orderly (Climbing S) id (fun h hid => h.step hclimbs hid)
    ⟨rank, h, Sinks.nil g rank⟩

/-! ## Sweeping downward -/

/-- The weight of the node at a position. -/
def Graph.weightAt (g : Graph) (id : NodeId) : Nat :=
  match g.node? id with
  | some n => n.op.weight
  | none => 0

/-- The weight of a node that is there. -/
theorem Graph.weightAt_eq {id : NodeId} {n : Node} (hn : g.node? id = some n) :
    g.weightAt id = n.op.weight := by
  unfold weightAt
  rw [hn]

/-- No node weighs more than one. -/
theorem Graph.weightAt_le (g : Graph) (id : NodeId) : g.weightAt id ≤ 1 := by
  unfold weightAt
  split
  · exact Operation.weight_le _
  · exact Nat.zero_le 1

/-- An operand may be exchanged for a node that leaves room below. -/
theorem Ordered.setChild (h : Ordered S g rank) {id x : NodeId} {n : Node} (index : Nat)
    (hn : g.node? id = some n) (hx : x < g.nodes.size) (hroom : rank x + n.op.room ≤ rank id) :
    Keeps S g rank (Build.setChild id index x) fun _ _ _ => True := by
  have hnode := h.node hn
  have hhead := n.op.head_setChild index x
  have hroom' : (n.op.setChild index x).room = n.op.room := Operation.room_of_head hhead
  have hset : NodeOrdered S g rank (n.setChild index x) (rank id) := by
    refine ⟨Streams.admits_of_head hnode.admits hhead (.inl rfl), hnode.width, hnode.inputWidth,
      fun c hc => ?_, fun c hc => ?_, hnode.recorded.of_head hhead rfl⟩
    · rcases Operation.mem_children_setChild hc with rfl | hc
      · exact hx
      · exact hnode.child c hc
    · rcases Operation.mem_children_setChild hc with rfl | hc
      · exact hroom' ▸ hroom
      · exact hroom' ▸ hnode.below c hc
  obtain ⟨h', ho⟩ := h.setNode _ hn hhead hset
  unfold Build.setChild modifyNode
  exact .node hn ⟨rank, h', ho, trivial⟩

/-- Where the replacement of a node leads: it stays in place, or another one that is
further down takes it. -/
def Leads (rank : NodeId → Nat) (id : NodeId) (n : Node) (new : NodeId) (g' : Graph)
    (rank' : NodeId → Nat) : Prop :=
  new = id ∨ new < g'.nodes.size ∧ rank' new + g'.weightAt new < rank id + n.op.weight

/-- Every replacement of a downward sweep leads further down. -/
def Descends (S : Streams) (replace : NodeId → Build NodeId) : Prop :=
  ∀ {g : Graph} {rank : NodeId → Nat} {id : NodeId} {n : Node}, Ordered S g rank →
    g.node? id = some n → Keeps S g rank (replace id) (Leads rank id n)

namespace Descends

variable {replace : NodeId → Build NodeId} {bound : Nat}

/-- A node settles within a bound above its rank and weight, where it does not rank
higher. -/
theorem settle (hdescends : Descends S replace) {id : NodeId} (h : Ordered S g rank)
    (hid : id < g.nodes.size) (hbound : rank id + g.weightAt id < bound) :
    Keeps S g rank (Build.settle replace bound id) fun done g' rank' =>
      Below g' rank' (rank id) done := by
  induction bound generalizing g rank id with
  | zero => exact absurd hbound (Nat.not_lt_zero _)
  | succ bound ih =>
    obtain ⟨n, hn⟩ := Graph.exists_node hid
    rw [Graph.weightAt_eq hn] at hbound
    rw [Build.settle]
    refine (hdescends h hn).bind fun new g₁ rank₁ h₁ ho₁ hnew => ?_
    by_cases hsame : new = id
    · rw [if_pos hsame]
      exact .pure h₁ (Below.onward ⟨hid, Nat.le_refl _⟩ ho₁)
    · obtain ⟨hlt, hdrop⟩ := hnew.resolve_left hsame
      rw [if_neg hsame]
      refine (ih h₁ hlt (by omega)).mono fun done g₂ rank₂ _ _ hdone => hdone.mono ?_
      have hweight := n.op.weight_le
      omega

/-- Where a node settles is found once. -/
theorem settleOnce (hdescends : Descends S replace) {d : Descent} {id : NodeId}
    (h : Ordered S g rank) (hd : Sinks g rank d.settled) (hid : id < g.nodes.size)
    (hbound : rank id + 1 < bound) :
    Keeps S g rank (Build.settleOnce replace bound d id) fun done g' rank' =>
      Below g' rank' (rank id) done.1 ∧ Sinks g' rank' done.2.settled := by
  unfold Build.settleOnce
  cases hlookup : d.settled.lookup id with
  | some done => exact .pure h ⟨(hd id done hlookup).2, hd⟩
  | none =>
    have hweight := g.weightAt_le id
    refine (hdescends.settle h hid (by omega)).bind fun done g₁ rank₁ h₁ ho₁ hdone => ?_
    have hid₁ : Below g₁ rank₁ (rank₁ id) done := by
      rw [ho₁.rank id hid]
      exact hdone
    exact .pure h₁ ⟨hdone, ((hd.onward ho₁).cons (Nat.lt_of_lt_of_le hid ho₁.size) hid₁).cons
      hdone.lt ⟨hdone.lt, Nat.le_refl _⟩⟩

/-- The operands of a node settle, and the node is redirected to them. -/
theorem settleChildren (hdescends : Descends S replace) {parent : NodeId} {n : Node}
    (pairs : List (NodeId × Nat)) {d : Descent} (h : Ordered S g rank)
    (hd : Sinks g rank d.settled) (hn : g.node? parent = some n)
    (hpairs : ∀ p ∈ pairs, p.1 < g.nodes.size ∧ rank p.1 + n.op.room ≤ rank parent)
    (hbound : rank parent < bound) :
    Keeps S g rank (Build.settleChildren replace bound parent d pairs) fun done g' rank' =>
      (∀ x ∈ done.1, x < g'.nodes.size ∧ rank' x < rank parent) ∧
        Sinks g' rank' done.2.settled := by
  induction pairs generalizing g rank d n with
  | nil => exact .pure h ⟨fun _ hx => (nomatch hx), hd⟩
  | cons p rest ih =>
    obtain ⟨child, index⟩ := p
    obtain ⟨hchild, hroom⟩ : child < g.nodes.size ∧ rank child + n.op.room ≤ rank parent :=
      hpairs _ List.mem_cons_self
    have hpos := n.op.room_bounds.1
    rw [Build.settleChildren]
    refine (hdescends.settleOnce h hd hchild (by omega)).bind ?_
    rintro ⟨done, d₁⟩ g₁ rank₁ h₁ ho₁ ⟨hdone, hd₁⟩
    have hparent₁ := ho₁.rank parent (Graph.lt_size hn)
    obtain ⟨n₁, hn₁, hhead⟩ := ho₁.head hn
    have hroom₁ := Operation.room_of_head hhead
    have hle := hdone.le
    dsimp only at hdone hd₁ hle
    -- The rest is done on an arena that went on, whether the node was redirected or not.
    have hrest : ∀ {g₂ : Graph} {rank₂ : NodeId → Nat}, Ordered S g₂ rank₂ →
        Onward g₁ rank₁ g₂ rank₂ → Keeps S g₂ rank₂ (do
          let others ← Build.settleChildren replace bound parent d₁ rest
          return (done :: others.1, others.2)) fun done g' rank' =>
            (∀ x ∈ done.1, x < g'.nodes.size ∧ rank' x < rank parent) ∧
              Sinks g' rank' done.2.settled := by
      intro g₂ rank₂ h₂ ho₂
      have ho := ho₁.trans ho₂
      have hparent₂ := ho.rank parent (Graph.lt_size hn)
      obtain ⟨n₂, hn₂, hhead₂⟩ := ho.head hn
      have hroom₂ := Operation.room_of_head hhead₂
      refine (ih h₂ (hd₁.onward ho₂) hn₂ (fun p hp => ?_) (by omega)).bind ?_
      · obtain ⟨hlt, hbelow⟩ := hpairs p (List.mem_cons_of_mem _ hp)
        rw [ho.rank p.1 hlt, hroom₂, hparent₂]
        exact ⟨Nat.lt_of_lt_of_le hlt ho.size, hbelow⟩
      · rintro ⟨others, d₃⟩ g₃ rank₃ h₃ ho₃ ⟨hothers, hd₃⟩
        refine .pure h₃ ⟨fun x hx => ?_, hd₃⟩
        rcases List.mem_cons.mp hx with rfl | hx
        · obtain ⟨hlt, hx'⟩ := (hdone.onward ho₂).onward ho₃
          exact ⟨hlt, by omega⟩
        · obtain ⟨hlt, hx'⟩ := hothers x hx
          exact ⟨hlt, by omega⟩
    dsimp only
    by_cases hsame : done = child
    · rw [if_neg (not_not.mpr hsame)]
      exact hrest h₁ (Onward.refl g₁ rank₁)
    · rw [if_pos hsame]
      exact (h₁.setChild index hn₁ hdone.lt (by omega)).bind fun _ g₂ rank₂ h₂ ho₂ _ => hrest h₂ ho₂

/-- Going down from several nodes, one after the other. -/
theorem foldlM {visit : Descent → NodeId → Build Descent} (roots : List NodeId) {depth : Nat}
    (hvisit : ∀ {g : Graph} {rank : NodeId → Nat} {d : Descent} {x : NodeId}, Ordered S g rank →
      Sinks g rank d.settled → x < g.nodes.size → rank x < depth →
      Keeps S g rank (visit d x) fun d' g' rank' => Sinks g' rank' d'.settled)
    {d : Descent} (h : Ordered S g rank) (hd : Sinks g rank d.settled)
    (hroots : ∀ x ∈ roots, x < g.nodes.size ∧ rank x < depth) :
    Keeps S g rank (roots.foldlM visit d) fun d' g' rank' => Sinks g' rank' d'.settled := by
  induction roots generalizing g rank d with
  | nil => exact .pure h hd
  | cons x rest ih =>
    obtain ⟨hx, hrank⟩ := hroots x List.mem_cons_self
    rw [List.foldlM_cons]
    refine (hvisit h hd hx hrank).bind fun d₁ g₁ rank₁ h₁ ho₁ hd₁ => ih h₁ hd₁ fun y hy => ?_
    obtain ⟨hlt, hrank⟩ := hroots y (List.mem_cons_of_mem _ hy)
    rw [ho₁.rank y hlt]
    exact ⟨Nat.lt_of_lt_of_le hlt ho₁.size, hrank⟩

/-- Going down from a node does not use up a depth above its rank. -/
theorem descend (hdescends : Descends S replace) {depth : Nat} (hdepth : depth ≤ bound)
    {d : Descent} {parent : NodeId} (h : Ordered S g rank) (hd : Sinks g rank d.settled)
    (hparent : parent < g.nodes.size) (hrank : rank parent < depth) :
    Keeps S g rank (Build.descend replace bound depth d parent) fun d' g' rank' =>
      Sinks g' rank' d'.settled := by
  induction depth generalizing g rank d parent with
  | zero => exact absurd hrank (Nat.not_lt_zero _)
  | succ depth ih =>
    rw [Build.descend]
    split
    · exact .pure h hd
    · obtain ⟨n, hn⟩ := Graph.exists_node hparent
      refine .node hn ?_
      have hpairs : ∀ p ∈ n.children.zipIdx, p.1 < g.nodes.size ∧
          rank p.1 + n.op.room ≤ rank parent := by
        intro p hp
        have hmem : p.1 ∈ n.children := List.fst_mem_of_mem_zipIdx hp
        exact ⟨(h.node hn).child _ hmem, (h.node hn).below _ hmem⟩
      refine (hdescends.settleChildren n.children.zipIdx
        (d := { d with entered := parent :: d.entered }) h hd hn hpairs (by omega)).bind ?_
      rintro ⟨done, d₁⟩ g₁ rank₁ h₁ - ⟨hdone, hd₁⟩
      refine foldlM done.reverse (fun h hd hx hrank => ih (by omega) h hd hx hrank) h₁ hd₁ ?_
      intro x hx
      obtain ⟨hlt, hx'⟩ := hdone x (List.mem_reverse.mp hx)
      exact ⟨hlt, by omega⟩

/-- An output settles with everything below it, and stays an output. -/
theorem sweepOutput (hdescends : Descends S replace) {d : Descent} {output : NodeId}
    (h : Ordered S g rank) (hd : Sinks g rank d.settled) (hout : output < g.nodes.size)
    (hbound : rank output + 1 < bound) :
    Keeps S g rank (Build.sweepOutput replace bound d output) fun done g' rank' =>
      (∃ n, g'.node? done.1 = some n ∧ n.isOutput = true) ∧ Sinks g' rank' done.2.settled := by
  unfold Build.sweepOutput
  refine (hdescends.settleOnce h hd hout hbound).bind ?_
  rintro ⟨done, d₁⟩ g₁ rank₁ h₁ ho₁ ⟨hdone, hd₁⟩
  refine (h₁.checkOutput (Nat.lt_of_lt_of_le hout ho₁.size) hdone.lt).bind ?_
  rintro - g₂ rank₂ h₂ - ⟨rfl, rfl, n, hn, hisOutput⟩
  have hle : rank₂ done ≤ rank output := hdone.le
  have hrank : rank₂ done < bound := by omega
  refine (hdescends.descend (Nat.le_refl bound) h₂ hd₁ hdone.lt hrank).bind ?_
  intro d₃ g₃ rank₃ h₃ ho₃ hd₃
  exact .pure h₃ ⟨ho₃.output ⟨n, hn, hisOutput⟩, hd₃⟩

/-- Outputs settle in order, with everything below them. -/
theorem sweepOutputs (hdescends : Descends S replace) (outputs : List NodeId) {d : Descent}
    (h : Ordered S g rank) (hd : Sinks g rank d.settled)
    (houtputs : ∀ x ∈ outputs, x < g.nodes.size ∧ rank x + 1 < bound) :
    Keeps S g rank (Build.sweepOutputs replace bound d outputs) fun done g' _ =>
      ∀ x ∈ done, ∃ n, g'.node? x = some n ∧ n.isOutput = true := by
  induction outputs generalizing g rank d with
  | nil => exact .pure h fun _ hx => (nomatch hx)
  | cons output rest ih =>
    obtain ⟨hlt, hbound⟩ := houtputs output List.mem_cons_self
    rw [Build.sweepOutputs]
    refine (hdescends.sweepOutput h hd hlt hbound).bind ?_
    rintro ⟨done, d₁⟩ g₁ rank₁ h₁ ho₁ ⟨hout, hd₁⟩
    refine (ih h₁ hd₁ fun x hx => ?_).bind ?_
    · obtain ⟨hlt, hbound⟩ := houtputs x (List.mem_cons_of_mem _ hx)
      rw [ho₁.rank x hlt]
      exact ⟨Nat.lt_of_lt_of_le hlt ho₁.size, hbound⟩
    · intro others g₂ rank₂ h₂ ho₂ hothers
      refine .pure h₂ fun x hx => ?_
      rcases List.mem_cons.mp hx with rfl | hx
      · exact ho₂.output hout
      · exact hothers x hx

end Descends

/-- The ranks of an arena in order may be taken from the number of nodes that are
needed, so that they are bounded by its size. -/
theorem Ordered.rescale (h : Ordered S g rank) :
    Ordered S g fun id => 16 * g.needRank id where
  node {id n} hn := by
    have hnode := h.node hn
    refine ⟨hnode.admits, hnode.width, hnode.inputWidth, hnode.child, fun c hc => ?_,
      hnode.recorded⟩
    have hbelow := (h.acyclic.ranked id n trivial hn c hc).2
    have hroom := n.op.room_bounds.2
    omega
  outputs := h.outputs
  representatives := h.representatives

/-- The outputs of an arena in order settle within every bound from the one of the
sweep on. -/
theorem Descends.settles {replace : NodeId → Build NodeId} (hdescends : Descends S replace)
    (h : Orderly S g) {bound : Nat} (hbound : sweepBound g ≤ bound) :
    Lands (Build.sweepOutputs replace bound {} g.outputs) g
      (fun done g' => ∃ rank', Ordered S g' rank' ∧
        ∀ x ∈ done, ∃ n, g'.node? x = some n ∧ n.isOutput = true) (Declined S) := by
  obtain ⟨rank, h⟩ := h
  have houtputs : ∀ x ∈ g.outputs, x < g.nodes.size ∧ 16 * g.needRank x + 1 < bound := by
    intro x hx
    obtain ⟨n, hn, -⟩ := h.outputs x hx
    have hneed := h.acyclic.needRank_le x
    unfold sweepBound at hbound
    exact ⟨Graph.lt_size hn, by omega⟩
  refine (hdescends.sweepOutputs g.outputs h.rescale (Sinks.nil _ _) houtputs).lands.mono ?_
    fun _ _ he => he
  rintro done g' ⟨rank', h', -, hdone⟩
  exact ⟨rank', h', hdone⟩

/-- A downward sweep of replacements that lead further down leaves the arena in
order. -/
theorem Descends.sweep {replace : NodeId → Build NodeId} (hdescends : Descends S replace)
    (h : Orderly S g) :
    Lands (sweepDownward replace) g (fun _ g' => Orderly S g') (Declined S) := by
  unfold sweepDownward
  rw [lands_bind, lands_get, lands_bind]
  refine (hdescends.settles h (Nat.le_refl _)).mono ?_ fun _ _ he => he
  rintro done g' ⟨rank', h', hdone⟩
  exact ⟨rank', h'.withOutputs hdone⟩

/-- A pass whose sweep leaves the arena in order does so. -/
theorem Pass.run_orderly {pass : Pass} (h : Orderly S g)
    (hsweep : Lands (match pass.direction with
      | .upward => sweepUpward pass.replace
      | .downward => sweepDownward pass.replace) g (fun _ g' => Orderly S g') (Declined S)) :
    Lands pass.run g (fun _ g' => Orderly S g') (Declined S) := by
  obtain ⟨rank, hordered⟩ := h
  have hchecked : Keeps S g rank (g.outputs.forM fun output => do
      let _ ← Build.ask (·.checkedNode output)) fun _ g' _ => g' = g := by
    refine .forM hordered rfl ?_
    rintro id hid g' rank' h' - rfl
    obtain ⟨n, hn, -⟩ := hordered.outputs id hid
    have hnode : g'.checkedNode id = .ok n := by
      unfold Graph.checkedNode
      rw [hn]
    exact .ask hnode (.pure h' rfl)
  unfold Pass.run
  rw [lands_bind, lands_get]
  dsimp only
  by_cases hempty : g.outputs.isEmpty = true
  · rw [if_pos hempty]
    exact ⟨rfl, rank, hordered⟩
  · rw [if_neg hempty, lands_bind]
    refine hchecked.lands.mono ?_ fun _ _ he => he
    rintro - g' ⟨-, -, -, rfl⟩
    exact hsweep

end LaneGraph
