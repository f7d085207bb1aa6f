import LaneGraph.Proofs.Expansion
import LaneGraph.Proofs.Sharing

/-!
# What upward passes make of a node is no higher

Replacements of upward passes are made from operands that are well below, so they
rank no higher than what they replace. Equal nodes are at the same height if
heights are exact, and exact heights stay exact while operands are exchanged for
others of the same height.
-/

namespace LaneGraph

open Build

variable {S : Streams} {g g' : Graph} {rank rank' : NodeId → Nat} {id : NodeId} {n : Node}

/-! ## Operands that fit -/

/-- No operand is expected to be wider than vectors are. -/
theorem Graph.width_expectedShape_le (g : Graph) (h : n.shape.width ≤ 4) (index : Nat) :
    (g.expectedShape n index).width ≤ 4 := by
  unfold expectedShape
  dsimp only
  split
  case h_1 => exact h
  case h_9 => exact Shape.width_of_le _ 1
  all_goals try split
  all_goals first | exact Shape.width_of_le _ _ | exact Nat.zero_le 4

namespace Typing

variable {bound : Nat} {child : NodeId}

/-- A value is made to fit by a conversion and a constructor. -/
theorem fit_keeps (h : Ordered S g rank) (hchild : Below g rank bound child) (actual : Shape)
    {expected : Shape} (hwidth : expected.width ≤ 4) :
    Keeps S g rank (fit child actual expected) fun new g' rank' =>
      Below g' rank' (bound + 6) new := by
  have hrest : ∀ {converted : NodeId} {g₁ : Graph} {rank₁ : NodeId → Nat}, Ordered S g₁ rank₁ →
      Below g₁ rank₁ (bound + 3) converted → Keeps S g₁ rank₁ (do
        let shape ← Build.shape converted
        if shape.width < expected.width ∧ shape.isScalar then
          Build.construct expected [converted]
        else if shape.width ≠ expected.width then
          throw (.implicitConversion actual expected)
        else return converted) fun new g' rank' => Below g' rank' (bound + 6) new := by
    intro converted g₁ rank₁ h₁ hconverted
    obtain ⟨m, hm⟩ := Graph.exists_node hconverted.lt
    refine .shape hm ?_
    split_ifs
    · exact h₁.construct hwidth fun c hc => List.mem_singleton.mp hc ▸ hconverted
    · exact .throw h₁ rfl
    · exact .pure h₁ (hconverted.mono (by omega))
  unfold fit
  dsimp only
  split
  · exact (h.convert expected.kind hchild).bind fun _ _ _ h₁ _ hconverted => hrest h₁ hconverted
  · rw [pure_bind]
    exact hrest h (hchild.mono (by omega))

/-- An operand is made to fit. -/
theorem fitChild_keeps (h : Ordered S g rank) (hn : g.node? id = some n) (index : Nat)
    (hchild : Below g rank bound child) (hroom : bound + 6 + n.op.room ≤ rank id) :
    Keeps S g rank (fitChild id index child) fun _ _ _ => True := by
  obtain ⟨m, hm⟩ := Graph.exists_node hchild.lt
  unfold fitChild
  refine .node hn (.get (.shape hm ?_))
  split
  · exact .pure h trivial
  · have hwidth := g.width_expectedShape_le (h.node hn).width index
    refine (fit_keeps h hchild m.shape hwidth).bind fun new g₁ rank₁ h₁ ho₁ hnew => ?_
    obtain ⟨n₁, hn₁, hhead⟩ := ho₁.head hn
    have hroom₁ := Operation.room_of_head hhead
    have hrank := ho₁.rank id (Graph.lt_size hn)
    have hle := hnew.le
    exact h₁.setChild index hn₁ hnew.lt (by omega)

/-- A node stays where it is while its operands are made to fit. -/
theorem climbs : Climbs S replace := by
  intro g rank id n h hn hlarge hbelow
  have hself : Below g rank (rank id) id := ⟨Graph.lt_size hn, Nat.le_refl _⟩
  have hchildren : ∀ c ∈ n.children, Below g rank (rank id - 32) c := by
    intro c hc
    have hc' := hbelow c hc
    exact ⟨(h.node hn).child c hc, by omega⟩
  have hroom := n.op.room_bounds.2
  unfold replace
  refine (h.resolve hn hchildren (by omega)).bind ?_
  rintro - g₁ rank₁ h₁ ho₁ ⟨n₁, hn₁, hhead₁, hchildren₁⟩
  have hrank₁ := ho₁.rank id (Graph.lt_size hn)
  have hself₁ := hself.onward ho₁
  refine .node hn₁ ?_
  split
  · exact .throw h₁ rfl
  · refine (Keeps.forM (P := fun _ _ => True) h₁ trivial ?_).bind fun _ _ _ h₂ ho₂ _ =>
      .pure h₂ (hself₁.onward ho₂)
    rintro ⟨child, index⟩ hmem g₂ rank₂ h₂ ho₂ -
    have hchild := hchildren₁ child (List.fst_mem_of_mem_zipIdx hmem)
    obtain ⟨n₂, hn₂, -⟩ := ho₂.head hn₁
    have hroom₂ := n₂.op.room_bounds.2
    have hrank₂ := ho₂.rank id (Graph.lt_size hn₁)
    exact fitChild_keeps h₂ hn₂ index (hchild.onward ho₂) (by omega)

end Typing

/-! ## Streams of components -/

namespace Scalars

/-- A component of a stream is one of those it has. -/
theorem index_lt_of_mem_take {c : Component} {count : Nat} (h : c ∈ Component.all.take count) :
    c.index < count := by
  obtain ⟨i, hi, hc⟩ := List.mem_take_iff_getElem.mp h
  have hall : ∀ i (hi : i < Component.all.length), (Component.all[i]).index = i := by decide
  rw [← hc, hall i (by omega)]
  omega

/-- A vector stream is replaced by a constructor over its components. -/
theorem climbs : Climbs S splitInput := by
  intro g rank id n h hn hlarge _
  have hself : Below g rank (rank id) id := ⟨Graph.lt_size hn, Nat.le_refl _⟩
  unfold splitInput
  refine .node hn ?_
  split
  · rename_i channel hop
    split
    · exact .pure h hself
    · rename_i hcount
      have hadmits := (h.node hn).admits
      rw [hop] at hadmits
      have hparts : Keeps S g rank ((Component.all.take channel.format.count).mapM fun c =>
          Build.input (channel.component c)) fun parts g' rank' =>
            ∀ x ∈ parts, Below g' rank' 0 x := by
        refine .mapM h (fun ho hx => hx.onward ho) fun c hc g' rank' h' _ => ?_
        have hreads := S.reads_component hadmits.1 (by omega) (index_lt_of_mem_take hc)
        exact (h'.input hreads).mono fun _ _ _ _ _ hnew => hnew.1
      refine hparts.bind fun parts g₁ rank₁ h₁ _ hall => ?_
      exact (h₁.construct (h.node hn).width hall).mono fun _ _ _ _ _ hnew => hnew.mono (by omega)
  · exact .pure h hself

end Scalars

/-! ## Folding -/

namespace Folding

/-- Lines of a quotient by a literal end well below. -/
theorem rightFold_endsBy {c : Scalar} {op : BinaryOp} {lines : List Line}
    (h : rightFold c op = .lines lines) : Line.endsBy 2 lines 16 = true := by
  obtain ⟨-, ⟨_, k, -, -, rfl⟩ | ⟨x, -, rfl⟩⟩ := rightFold_lines h
  · rfl
  · rfl

variable {bound : Nat} {left right : NodeId}

/-- An operator whose right operand is a literal is replaced by what ranks no
higher. -/
theorem foldRight_keeps (h : Ordered S g rank) (op : BinaryOp) (c : Scalar)
    (hid : Below g rank (bound + 16) id) (hleft : Below g rank bound left)
    (hright : Below g rank bound right) :
    Keeps S g rank (foldRight id op left right c) fun new g' rank' =>
      Below g' rank' (bound + 16) new := by
  rw [foldRight_eq]
  split
  · exact .pure h hid
  · exact .pure h (hleft.mono (by omega))
  · exact .pure h (hright.mono (by omega))
  · rename_i lines hlines
    refine Line.make_keeps h (fun x hx => ?_) (rightFold_endsBy hlines)
    rcases List.mem_pair.mp hx with rfl | rfl <;> assumption

/-- A literal takes the place of a node, if there is one. -/
theorem literalOr_keeps (h : Ordered S g rank) (hid : Below g rank bound id) (v : Option Scalar) :
    Keeps S g rank (literalOr id v) fun new g' rank' => Below g' rank' bound new := by
  cases v with
  | none => exact .pure h hid
  | some v => exact (h.scalar v).mono fun _ _ _ _ _ hnew => hnew.mono (Nat.zero_le _)

/-- A node is replaced by what ranks no higher. -/
theorem climbs : Climbs S replace := by
  intro g rank id n h hn hlarge hbelow
  have hself : Below g rank (rank id) id := ⟨Graph.lt_size hn, Nat.le_refl _⟩
  have hoperand : ∀ {op : Operation} {c : NodeId}, n.op = op → c ∈ op.children →
      Below g rank (rank id - 32) c := by
    rintro op c rfl hc
    have hroom := hbelow c hc
    exact ⟨(h.node hn).child c hc, by omega⟩
  unfold replace
  refine .node hn ?_
  split
  · rename_i op x hop
    obtain ⟨m, hm⟩ := Graph.exists_node (hoperand hop (List.mem_singleton_self x)).lt
    exact Lowering.scalarAt_keeps hm (literalOr_keeps h hself _)
  · rename_i op x y hop
    have hx := hoperand hop (List.mem_cons_self (a := x))
    have hy := hoperand hop (List.mem_cons_of_mem x (List.mem_singleton_self y))
    obtain ⟨m, hm⟩ := Graph.exists_node hx.lt
    obtain ⟨k, hk⟩ := Graph.exists_node hy.lt
    refine Lowering.scalarAt_keeps hm (Lowering.scalarAt_keeps hk ?_)
    split
    · exact literalOr_keeps h hself _
    · unfold foldLeft
      split
      · exact .pure h hself
      · exact .pure h (hx.mono (Nat.sub_le _ _))
      · exact .pure h (hy.mono (Nat.sub_le _ _))
      · rename_i swapped _
        have hroom := (Operation.binary swapped 0 0).room_bounds.2
        refine (h.binary swapped hy hx).bind fun turned g₁ rank₁ h₁ ho₁ hturned => ?_
        refine (foldRight_keeps h₁ swapped _ (hturned.mono ?_) (hy.onward ho₁)
          (hx.onward ho₁)).mono fun _ _ _ _ _ hnew => hnew.mono (by omega)
        omega
    · have hx' : Below g rank (rank id - 16) x := hx.mono (by omega)
      exact (foldRight_keeps h op _ (hself.mono (by omega)) hx' (hy.mono (by omega))).mono
        fun _ _ _ _ _ hnew => hnew.mono (by omega)
    · exact .pure h hself
  · rename_i op x y z hop
    have hx := hoperand hop (List.mem_cons_self (a := x))
    have hy := hoperand (c := y) hop (by simp [Operation.children])
    have hz := hoperand (c := z) hop (by simp [Operation.children])
    obtain ⟨m, hm⟩ := Graph.exists_node hx.lt
    obtain ⟨k, hk⟩ := Graph.exists_node hy.lt
    obtain ⟨l, hl⟩ := Graph.exists_node hz.lt
    refine Lowering.scalarAt_keeps hm (Lowering.scalarAt_keeps hk (Lowering.scalarAt_keeps hl ?_))
    split
    · split
      · exact .pure h (hy.mono (Nat.sub_le _ _))
      · exact .pure h (hz.mono (Nat.sub_le _ _))
      · exact .pure h hself
    · split
      · exact literalOr_keeps h hself _
      · exact .pure h hself
  · exact .pure h hself

end Folding

/-! ## Equal nodes -/

/-- The least rank that leaves room for the operands of a node. -/
def Node.above (n : Node) (rank : NodeId → Nat) : Nat :=
  (n.children.map fun c => rank c + n.op.room).foldl max 0

/-- The least rank leaves room for every operand. -/
theorem Node.le_above {c : NodeId} (hc : c ∈ n.children) (rank : NodeId → Nat) :
    rank c + n.op.room ≤ n.above rank :=
  le_foldl_max (List.mem_map_of_mem (f := fun c => rank c + n.op.room) hc) 0

/-- Every node ranks just above its operands. -/
def Exact (g : Graph) (rank : NodeId → Nat) : Prop :=
  ∀ (id : NodeId) (n : Node), g.node? id = some n → rank id = n.above rank

/-- The height of a node above the bottom, found within a number of steps. -/
def Graph.height (g : Graph) : Nat → NodeId → Nat
  | 0, _ => 0
  | steps + 1, id =>
    match g.node? id with
    | some n => n.above (g.height steps)
    | none => 0

/-- A node that is the same as another ranks just above the same operands. -/
theorem Graph.above_of_sameNode {m n : Node} (h : sameNode m n = true) (rank : NodeId → Nat) :
    m.above rank = n.above rank := by
  unfold Node.above Node.children
  obtain ⟨-, ⟨hop, -⟩ | ⟨op, l, r, -, hm, hn⟩⟩ := sameNode_iff.mp h
  · rw [hop]
  · have hroom : (Operation.binary op l r).room = (Operation.binary op r l).room :=
      Operation.room_of_head rfl
    rw [hm, hn]
    simp only [Operation.children, List.map_cons, List.map_nil, List.foldl_cons, List.foldl_nil,
      Nat.zero_max, hroom]
    exact Nat.max_comm _ _

/-- The least rank depends on the ranks of the operands alone. -/
theorem Node.above_congr (n : Node) (h : ∀ c ∈ n.children, rank' c = rank c) :
    n.above rank' = n.above rank := by
  unfold above
  refine congrArg (List.foldl max 0) (List.map_congr_left fun c hc => ?_)
  rw [h c hc]

/-- Exchanging operands for others of the same rank does not matter. -/
theorem Node.above_mapChildren (n : Node) {f : NodeId → NodeId}
    (h : ∀ c ∈ n.children, rank (f c) = rank c) :
    ({ n with op := n.op.mapChildren f } : Node).above rank = n.above rank := by
  have hroom := Operation.room_of_head (n.op.head_mapChildren f)
  unfold above children
  dsimp only
  rw [Operation.children_mapChildren, List.map_map, hroom]
  refine congrArg (List.foldl max 0) (List.map_congr_left fun c hc => ?_)
  rw [Function.comp_apply, h c hc]

/-- A node may be exchanged for another one just above the same rank. -/
theorem Exact.setNode (h : Exact g rank) (n' : Node) (hn : g.node? id = some n)
    (habove : n'.above rank = n.above rank) : Exact (g.setNode id n') rank := by
  intro x m hm
  by_cases hx : x = id
  · subst hx
    rw [Graph.node?_setNode_self n' hn] at hm
    cases hm
    rw [h x n hn, habove]
  · rw [Graph.node?_setNode_of_ne n' hx] at hm
    exact h x m hm

namespace Ordered

/-- Heights do not depend on the number of steps once there are enough. -/
theorem height_eq (h : Ordered S g rank) {steps steps' : Nat} (hsteps : rank id < steps)
    (hsteps' : rank id < steps') : g.height steps id = g.height steps' id := by
  induction steps generalizing id steps' with
  | zero => exact absurd hsteps (Nat.not_lt_zero _)
  | succ steps ih =>
    cases steps' with
    | zero => exact absurd hsteps' (Nat.not_lt_zero _)
    | succ steps' =>
      rw [Graph.height, Graph.height]
      cases hn : g.node? id with
      | none => rfl
      | some n =>
        refine n.above_congr fun c hc => ?_
        have hbelow := (h.node hn).below c hc
        have hroom := n.op.room_bounds.1
        exact ih (by omega) (by omega)

/-- Heights are exact, and they keep the order. -/
theorem exists_exact (h : Ordered S g rank) : ∃ rank', Ordered S g rank' ∧ Exact g rank' := by
  have hexact : Exact g fun id => g.height (rank id + 1) id := by
    intro id n hn
    dsimp only
    rw [Graph.height, hn]
    refine n.above_congr fun c hc => ?_
    have hbelow := (h.node hn).below c hc
    have hroom := n.op.room_bounds.1
    exact h.height_eq (by omega) (Nat.lt_succ_self _)
  refine ⟨_, ⟨fun {id n} hn => ?_, h.outputs, h.representatives⟩, hexact⟩
  have hnode := h.node hn
  refine ⟨hnode.admits, hnode.width, hnode.inputWidth, hnode.child, fun c hc => ?_,
    hnode.recorded⟩
  have hle := Node.le_above hc fun id => g.height (rank id + 1) id
  exact Nat.le_trans hle (Nat.le_of_eq (hexact id n hn).symm)

/-- A node of the arena has a fingerprint. -/
theorem exists_fingerprint (h : Ordered S g rank) (hn : g.node? id = some n) :
    ∃ print, g.fingerprintOf n = .ok print :=
  Graph.fingerprintOf_total fun c hc => Graph.exists_node ((h.node hn).child c hc)

/-- The representatives may be continued with nodes of the arena. -/
theorem withRepresentatives (h : Ordered S g rank) (entries : List (UInt64 × NodeId))
    (hentries : ∀ e ∈ entries, e.2 < g.nodes.size) :
    Ordered S { g with representatives := entries } rank ∧
      Onward g rank { g with representatives := entries } rank :=
  ⟨h.of_nodes rfl h.outputs hentries, .of_nodes rfl rfl⟩

end Ordered

namespace Sharing

/-- A search for a representative changes nothing, and what it finds has the same
rank. -/
theorem representative_keeps (h : Ordered S g rank) (hexact : Exact g rank)
    (hn : g.node? id = some n) (print : UInt64) (entries : List (UInt64 × NodeId))
    (hentries : ∀ e ∈ entries, e.2 < g.nodes.size) :
    Keeps S g rank (representative? print id entries) fun found g' rank' => g' = g ∧ rank' = rank ∧
      ∀ x, found = some x → x < g.nodes.size ∧ rank x = rank id := by
  induction entries with
  | nil => exact .pure h ⟨rfl, rfl, fun _ hx => (nomatch hx)⟩
  | cons e rest ih =>
    obtain ⟨other, candidate⟩ := e
    have hcandidate : candidate < g.nodes.size := hentries _ List.mem_cons_self
    have hrest := ih fun e he => hentries e (List.mem_cons_of_mem _ he)
    obtain ⟨m, hm⟩ := Graph.exists_node hcandidate
    unfold representative?
    split
    · by_cases heq : candidate = id
      · have hsame : g.same candidate id = .ok true := by
          unfold Graph.same
          rw [if_pos heq]
          rfl
        refine .ask hsame (.pure h ⟨rfl, rfl, fun x hx => ?_⟩)
        cases hx
        exact ⟨hcandidate, congrArg rank heq⟩
      · have hsame : g.same candidate id = .ok (Graph.sameNode m n) := by
          unfold Graph.same Graph.node
          rw [if_neg heq, hm, hn]
          rfl
        refine .ask hsame ?_
        split
        · rename_i htrue
          refine .pure h ⟨rfl, rfl, fun x hx => ?_⟩
          cases hx
          refine ⟨hcandidate, ?_⟩
          rw [hexact _ m hm, hexact id n hn, Graph.above_of_sameNode htrue]
        · exact hrest
    · exact hrest

/-- A node is replaced by one of the same rank. -/
theorem share_keeps (h : Ordered S g rank) (hexact : Exact g rank) (hn : g.node? id = some n) :
    Keeps S g rank (share id) fun new g' rank' =>
      rank' = rank ∧ Exact g' rank ∧ new < g'.nodes.size ∧ rank new = rank id := by
  obtain ⟨print, hprint⟩ := h.exists_fingerprint hn
  have hnode := h.node hn
  obtain ⟨h₁, ho₁⟩ := h.setNode { n with fingerprint := print } hn rfl
    ⟨hnode.admits, hnode.width, hnode.inputWidth, hnode.child, hnode.below, hnode.recorded⟩
  have hexact₁ := hexact.setNode { n with fingerprint := print } hn rfl
  have hn₁ := Graph.node?_setNode_self { n with fingerprint := print } hn
  have hrefresh : Keeps S g rank (refreshFingerprint id) fun found g' rank' => found = print ∧
      g' = g.setNode id { n with fingerprint := print } ∧ rank' = rank := by
    unfold refreshFingerprint
    refine .node hn (.ask hprint ?_)
    have hmodify : Keeps S g rank (modifyNode id fun n => { n with fingerprint := print })
        fun _ g' rank' => g' = g.setNode id { n with fingerprint := print } ∧ rank' = rank :=
      .node hn ⟨rank, h₁, ho₁, rfl, rfl⟩
    exact hmodify.bind fun _ _ _ h' _ heq => .pure h' ⟨rfl, heq⟩
  unfold share
  refine hrefresh.bind ?_
  rintro found g' rank' _ _ ⟨rfl, rfl, rfl⟩
  refine .get ((representative_keeps h₁ hexact₁ hn₁ _ _ h₁.representatives).bind ?_)
  rintro existing g' rank' _ _ ⟨rfl, rfl, hfound⟩
  cases existing with
  | some x => exact .pure h₁ ⟨rfl, hexact₁, hfound x rfl⟩
  | none =>
    have hentries : ∀ e ∈ (g.setNode id { n with fingerprint := found }).representatives ++
        [(found, id)], e.2 < (g.setNode id { n with fingerprint := found }).nodes.size := by
      intro e he
      rcases List.mem_append.mp he with he | he
      · exact h₁.representatives e he
      · rw [List.mem_singleton.mp he]
        exact Graph.lt_size hn₁
    refine (Keeps.change (h₁.withRepresentatives _ hentries)).bind ?_
    rintro - g' rank' h₂ - ⟨rfl, rfl⟩
    exact .pure h₂ ⟨rfl, hexact₁, Graph.lt_size hn₁, rfl⟩

/-- Where a sweep that shares nodes stands. -/
def Level (S : Streams) (g : Graph) (r : Replacements) : Prop :=
  ∃ rank, Ordered S g rank ∧ Exact g rank ∧
    ∀ x y, r.lookup x = some y → x < g.nodes.size ∧ y < g.nodes.size ∧ rank y = rank x

/-- Sharing equal nodes leaves the arena in order. -/
theorem sweep (h : Orderly S g) :
    Lands (sweepUpward share) g (fun _ g' => Orderly S g') (Declined S) := by
  have hsinks : ∀ {g : Graph} {rank : NodeId → Nat} {r : Replacements},
      (∀ x y, r.lookup x = some y → x < g.nodes.size ∧ y < g.nodes.size ∧ rank y = rank x) →
      Sinks g rank r := by
    intro g rank r hr x y hxy
    obtain ⟨hx, hy, heq⟩ := hr x y hxy
    exact ⟨hx, hy, Nat.le_of_eq heq⟩
  refine sweepUpward_orderly (Level S) ?_ ?_ ?_
  · rintro g r ⟨rank, h, -, hr⟩
    exact ⟨rank, h, hsinks hr⟩
  · rintro g r id ⟨rank, h, hexact, hr⟩ hid
    obtain ⟨n, hn⟩ := Graph.exists_node hid
    have hrank : ∀ c, rank (r.apply c) = rank c := by
      intro c
      unfold Replacements.apply
      cases hc : r.lookup c with
      | none => rfl
      | some y => exact (hr c y hc).2.2
    obtain ⟨h₁, ho₁⟩ := h.mapChildren hn (hsinks hr)
    have hexact₁ := hexact.setNode _ hn (n.above_mapChildren fun c _ => hrank c)
    rw [lands_replaceUpward hn]
    refine (share_keeps h₁ hexact₁ (Graph.node?_setNode_self _ hn)).lands.mono ?_ fun _ _ he => he
    rintro new g₂ ⟨rank₂, h₂, ho₂, rfl, hexact₂, hnew, heq⟩
    have ho := ho₁.trans ho₂
    refine ⟨⟨rank₂, h₂, hexact₂, fun x y hxy => ?_⟩, ho.size, ho.outputs⟩
    rw [List.lookup_cons] at hxy
    split at hxy
    · rename_i hkey
      cases hxy
      rw [beq_iff_eq.mp hkey]
      exact ⟨Nat.lt_of_lt_of_le hid ho.size, hnew, heq⟩
    · obtain ⟨hx, hy, heq⟩ := hr x y hxy
      exact ⟨Nat.lt_of_lt_of_le hx ho.size, Nat.lt_of_lt_of_le hy ho.size, heq⟩
  · obtain ⟨rank, h⟩ := h
    obtain ⟨rank', h', hexact⟩ := h.exists_exact
    exact ⟨rank', h', hexact, fun _ _ hxy => (nomatch hxy)⟩

end Sharing

end LaneGraph
