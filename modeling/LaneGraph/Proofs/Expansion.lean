import LaneGraph.Proofs.Lowering
import LaneGraph.Proofs.Sweeping
import LaneGraph.Proofs.Vectors

/-!
# What downward passes make of a node is further down

Vector operators and operators without instructions are written out by lines that
end below them, whatever the shapes of their operands are. A selection is
replaced by the same expression of selections, one step further down; it may keep
its rank, but it is no selection any more. The final check leaves everything in
place.
-/

namespace LaneGraph

open Build

variable {S : Streams} {g g' : Graph} {rank rank' : NodeId → Nat} {id : NodeId} {n : Node}

/-- A node well below another one is further down. -/
theorem Below.leads {bound : Nat} {new : NodeId} (h : Below g' rank' bound new)
    (hbound : bound + 1 < rank id) : Leads rank id n new g' rank' := by
  have hle := h.le
  have hweight := g'.weightAt_le new
  exact .inr ⟨h.lt, by omega⟩

/-- A node stays. -/
theorem Ordered.stays (h : Ordered S g rank) :
    Keeps S g rank (pure id) (Leads rank id n) := .pure h (.inl rfl)

/-- An operand takes the place of a node that has room for it. -/
theorem Ordered.operand_leads (h : Ordered S g rank) (hn : g.node? id = some n) {c : NodeId}
    (hc : c ∈ n.children) (hroom : 2 ≤ n.op.room) :
    Keeps S g rank (pure c) (Leads rank id n) := by
  have hbelow := (h.node hn).below c hc
  refine .pure h (Below.leads ⟨(h.node hn).child c hc, Nat.le_refl _⟩ ?_)
  omega

/-- Lines on the operands of a node take its place if they end below it. -/
theorem Ordered.lines_lead (h : Ordered S g rank) (hn : g.node? id = some n) {op : Operation}
    (hop : n.op = op) {lines : List Line} {limit : Nat} (hne : op.children ≠ [])
    (hends : Line.endsBy op.children.length lines limit = true) (hroom : limit + 2 ≤ op.room) :
    Keeps S g rank (Line.make op.children lines) (Leads rank id n) := by
  subst hop
  obtain ⟨c, hc⟩ := List.exists_mem_of_ne_nil n.op.children hne
  have hbelow := (h.node hn).below c hc
  have hbase : ∀ x ∈ n.op.children, Below g rank (rank id - n.op.room) x :=
    fun x hx => h.operand hn hx (by omega)
  refine (Line.make_keeps h hbase hends).mono fun new g' rank' _ _ hnew => ?_
  exact hnew.leads (by omega)

/-- The operand of an operator with one operand is in the arena. -/
theorem Ordered.exists_operand (h : Ordered S g rank) (hn : g.node? id = some n) {op : Operation}
    (hop : n.op = op) {c : NodeId} (hc : c ∈ op.children) : ∃ m, g.node? c = some m := by
  subst hop
  exact Graph.exists_node ((h.node hn).child c hc)

/-! ## Vector operators -/

namespace Vectors

variable {width : Nat}

/-- The lines of an inner product end below it. -/
theorem dot_endsBy (h : width ≤ 4) : Line.endsBy 2 (dotLines 0 1 2 width) 14 = true := by
  interval_cases width <;> cbv

/-- The lines of a length end below it. -/
theorem length_endsBy (h : width ≤ 4) : Line.endsBy 1 (lengthLines width) 14 = true := by
  interval_cases width <;> cbv

/-- The lines of a unit vector end below it. -/
theorem normalize_endsBy {shape : Shape} (hshape : shape.width ≤ 4) (h : width ≤ 4) :
    Line.endsBy 1 (normalizeLines shape width) 14 = true := by
  obtain ⟨kind, count⟩ := shape
  interval_cases count <;> interval_cases width <;> cbv

/-- The lines that join components end below what joins them. -/
theorem join_endsBy {op : BinaryOp} (hop : op = .logicalAnd ∨ op = .logicalOr) (h : width ≤ 4) :
    Line.endsBy 1 (joinLines op width) 14 = true := by
  rcases hop with rfl | rfl <;> interval_cases width <;> cbv

/-- The lines of a cross product end below it. -/
theorem cross_endsBy : Line.endsBy 2 crossLines 14 = true := rfl

/-- The lines of a reflection end below it. -/
theorem reflect_endsBy {shape : Shape} (hshape : shape.width ≤ 4) (h : width ≤ 4) :
    Line.endsBy 2 (reflectLines shape width) 14 = true := by
  obtain ⟨kind, count⟩ := shape
  interval_cases count <;> interval_cases width <;> cbv

/-- Vector operators are replaced by what is further down. -/
theorem descends : Descends S replace := by
  intro g rank id n h hn
  have hwidth := (h.node hn).inputWidth
  unfold replace
  refine .node hn ?_
  split
  · rename_i a hop
    obtain ⟨m, hm⟩ := h.exists_operand hn hop (List.mem_singleton_self a)
    have hm' := (h.node hm).width
    unfold length
    refine .shape hm ?_
    rw [length_eq a hm']
    exact h.lines_lead hn hop (List.cons_ne_nil _ _) (length_endsBy hm') (Nat.le_refl 16)
  · rename_i a hop
    obtain ⟨m, hm⟩ := h.exists_operand hn hop (List.mem_singleton_self a)
    have hm' := (h.node hm).width
    unfold length
    rw [bind_assoc]
    refine .shape hm ?_
    rw [bind_assoc, normalize_eq a n.shape hm']
    exact h.lines_lead hn hop (List.cons_ne_nil _ _) (normalize_endsBy (h.node hn).width hm')
      (Nat.le_refl 16)
  · rename_i a hop
    split
    · exact h.stays
    · rw [join_eq .logicalAnd a hwidth]
      exact h.lines_lead hn hop (List.cons_ne_nil _ _) (join_endsBy (.inl rfl) hwidth)
        (Nat.le_refl 16)
  · rename_i a hop
    split
    · exact h.stays
    · rw [join_eq .logicalOr a hwidth]
      exact h.lines_lead hn hop (List.cons_ne_nil _ _) (join_endsBy (.inr rfl) hwidth)
        (Nat.le_refl 16)
  · rename_i a b hop
    rw [dot_eq a b hwidth]
    exact h.lines_lead hn hop (List.cons_ne_nil _ _) (dot_endsBy hwidth) (Nat.le_refl 16)
  · rename_i a b hop
    split
    · exact .throw h rfl
    · rw [cross_eq]
      exact h.lines_lead hn hop (List.cons_ne_nil _ _) cross_endsBy (Nat.le_refl 16)
  · rename_i a b hop
    rw [reflect_eq n.shape a b hwidth]
    exact h.lines_lead hn hop (List.cons_ne_nil _ _) (reflect_endsBy (h.node hn).width hwidth)
      (Nat.le_refl 16)
  · exact h.stays

end Vectors

/-! ## Selections -/

namespace Scalars

/-- Where a component of an expression is found: it ranks no higher than the
expression, or it ranks one higher and is no selection. -/
def Found (bound : Nat) (new : NodeId) (g' : Graph) (rank' : NodeId → Nat) : Prop :=
  Below g' rank' bound new ∨ Below g' rank' (bound + 1) new ∧ g'.weightAt new = 0

/-- An operation on selections of the operands of one that leaves room below ranks
one higher than that one. -/
theorem operation_found (h : Ordered S g rank) {op : Operation} (like : Operation) (shape : Shape)
    {bound top : Nat} (hchildren : ∀ c ∈ op.children, Below g rank (bound + 1) c)
    (hroom : ∀ c ∈ op.children, bound + like.room = top) (hhead : op.head = like.head)
    (hadmits : S.Admits op shape) (hwidth : shape.width ≤ 4) (hweight : op.weight = 0) :
    Keeps S g rank (plain op shape) (Found top) := by
  have hnode : NodeOrdered S g rank { op, shape } (top + 1) := by
    refine ⟨hadmits, hwidth, Nat.zero_le 4, fun c hc => (hchildren c hc).lt, fun c hc => ?_,
      Node.recorded_raw op shape⟩
    have hle := (hchildren c hc).le
    have hplace := hroom c hc
    dsimp only
    rw [Operation.room_of_head hhead]
    omega
  refine (h.plain op shape hnode).mono ?_
  rintro new g' rank' - - ⟨hnew, m, hm, hhead'⟩
  refine .inr ⟨hnew, ?_⟩
  rw [Graph.weightAt_eq hm, ← Operation.weight_head, hhead', Operation.weight_head, hweight]

/-- An operator with two operands on components of them. -/
theorem binary_found (h : Ordered S g rank) (op : BinaryOp) (c : Component) {left right : NodeId}
    {bound : Nat} (hl : Below g rank bound left) (hr : Below g rank bound right) :
    Keeps S g rank (do
      let l ← swizzle [c] left
      let r ← swizzle [c] right
      binary op l r) (Found (bound + (Operation.binary op left right).room)) := by
  refine (h.swizzle [c] hl).bind fun l g₁ rank₁ h₁ ho₁ hl₁ => ?_
  refine (h₁.swizzle [c] (hr.onward ho₁)).bind fun r g₂ rank₂ h₂ ho₂ hr₂ => ?_
  have hchildren : ∀ y ∈ (Operation.binary op l r).children, Below g₂ rank₂ (bound + 1) y := by
    intro y hy
    rcases List.mem_pair.mp hy with rfl | rfl
    · exact hl₁.onward ho₂
    · exact hr₂
  exact operation_found h₂ _ Shape.unknown hchildren (fun _ _ => rfl) rfl trivial
    (Nat.zero_le 4) rfl

/-- An operator with three operands on components of them. -/
theorem ternary_found (h : Ordered S g rank) (op : TernaryOp) (c : Component)
    {first second third : NodeId} {bound : Nat} (ha : Below g rank bound first)
    (hb : Below g rank bound second) (hc : Below g rank bound third) :
    Keeps S g rank (do
      let x ← swizzle [c] first
      let y ← swizzle [c] second
      let z ← swizzle [c] third
      ternary op x y z) (Found (bound + (Operation.ternary op first second third).room)) := by
  refine (h.swizzle [c] ha).bind fun x g₁ rank₁ h₁ ho₁ hx => ?_
  refine (h₁.swizzle [c] (hb.onward ho₁)).bind fun y g₂ rank₂ h₂ ho₂ hy => ?_
  refine (h₂.swizzle [c] ((hc.onward ho₁).onward ho₂)).bind fun z g₃ rank₃ h₃ ho₃ hz => ?_
  have hchildren : ∀ w ∈ (Operation.ternary op x y z).children,
      Below g₃ rank₃ (bound + 1) w := by
    intro w hw
    simp only [Operation.children, List.mem_cons, List.not_mem_nil, or_false] at hw
    rcases hw with rfl | rfl | rfl
    · exact (hx.onward ho₂).onward ho₃
    · exact hy.onward ho₃
    · exact hz
  exact operation_found h₃ _ Shape.unknown hchildren (fun _ _ => rfl) rfl trivial
    (Nat.zero_le 4) rfl

/-- A component of a stream that is no scalar may be read. -/
theorem reads_component (h : Ordered S g rank) (hn : g.node? id = some n) {channel : Channel}
    (hop : n.op = .input channel) {c : Component} (hpart : ¬(n.shape.isScalar = true ∧ c = .x))
    (hc : c.index < channel.format.count) : S.reads (channel.component c) := by
  have hadmits := (h.node hn).admits
  rw [hop] at hadmits
  obtain ⟨hreads, hshape⟩ := hadmits
  refine S.reads_component hreads ?_ hc
  by_contra hcount
  have hone : channel.format.count = 1 := by omega
  refine hpart ⟨?_, ?_⟩
  · rw [hshape]
    unfold Format.shape Shape.isScalar Shape.of
    rw [hone]
    cases channel.format.encoding <;> rfl
  · rw [hone] at hc
    cases c
    · rfl
    all_goals exact absurd hc (by decide)

/-- A component of an expression is found. Selections of selections are followed as
long as there is something below them. -/
theorem extract_keeps {depth : Nat} (h : Ordered S g rank) (hn : g.node? id = some n)
    (c : Component) (hdepth : g.needRank id < depth) :
    Keeps S g rank (extract depth id c) (Found (rank id)) := by
  induction depth generalizing id n c with
  | zero => exact absurd hdepth (Nat.not_lt_zero _)
  | succ depth ih =>
    have hself : Below g rank (rank id) id := ⟨Graph.lt_size hn, Nat.le_refl _⟩
    -- Operands have a bound that leaves room below the node.
    have hbelow : ∀ x ∈ n.op.children, Below g rank (rank id - n.op.room) x ∧
        rank id - n.op.room + n.op.room = rank id := by
      intro x hx
      have hroom := (h.node hn).below x hx
      exact ⟨h.operand hn hx (by omega), by omega⟩
    rw [extract]
    refine .node hn ?_
    split
    · exact .pure h (.inl hself)
    · rename_i hpart
      dsimp only
      split
      · rename_i value hop
        split
        · exact (h.scalar _).mono fun _ _ _ _ _ hnew => .inl (hnew.mono (Nat.zero_le _))
        · exact .throw h rfl
      · rename_i components source hop
        rw [hop] at hbelow
        obtain ⟨hsource, hroom⟩ := hbelow source (List.mem_singleton_self source)
        split
        · rename_i inner hinner
          obtain ⟨m, hm⟩ := Graph.exists_node hsource.lt
          have hneed := (h.acyclic.ranked id n trivial hn source
            ((Node.mem_children hop).mpr (List.mem_singleton_self source))).2
          refine (ih hm inner (by omega)).mono fun new g' rank' _ _ hfound => .inl ?_
          have hle := hsource.le
          have hone : (Operation.swizzle components source).room = 1 := rfl
          rcases hfound with hnew | ⟨hnew, -⟩
          · exact hnew.mono (by omega)
          · exact hnew.mono (by omega)
        · exact .throw h rfl
      · rename_i channel hop
        split
        · exact .throw h rfl
        · rename_i hcount
          refine (h.input (reads_component h hn hop hpart (Nat.lt_of_not_le hcount))).mono ?_
          exact fun _ _ _ _ _ hnew => .inl (hnew.1.mono (Nat.zero_le _))
      · rename_i arguments hop
        rw [hop] at hbelow
        split
        · rename_i argument hargument
          obtain ⟨hmem, -⟩ := hbelow argument (List.mem_of_getElem? hargument)
          exact .pure h (.inl (hmem.mono (Nat.sub_le _ _)))
        · exact .throw h rfl
      · rename_i op operand hop
        rw [hop] at hbelow
        obtain ⟨hx, hroom⟩ := hbelow operand (List.mem_singleton_self operand)
        refine (h.swizzle [c] hx).bind fun x g₁ rank₁ h₁ ho₁ hx₁ => ?_
        have hchildren : ∀ y ∈ (Operation.unary op x).children,
            Below g₁ rank₁ (rank id - (Operation.unary op operand).room + 1) y :=
          fun y hy => List.mem_singleton.mp hy ▸ hx₁
        split
        · rename_i hconvert
          subst hconvert
          exact operation_found h₁ _ _ hchildren (fun _ _ => hroom) rfl trivial
            (Shape.width_of_le _ _) rfl
        · exact operation_found h₁ _ Shape.unknown hchildren (fun _ _ => hroom) rfl trivial
            (Nat.zero_le 4) rfl
      · rename_i op left right hop
        rw [hop] at hbelow
        obtain ⟨hl, hroom⟩ := hbelow left List.mem_cons_self
        obtain ⟨hr, -⟩ := hbelow right (List.mem_cons_of_mem _ (List.mem_singleton_self right))
        have hfound := binary_found h op c hl hr
        rw [hroom] at hfound
        exact hfound
      · rename_i op first second third hop
        rw [hop] at hbelow
        obtain ⟨ha, hroom⟩ := hbelow first List.mem_cons_self
        obtain ⟨hb, -⟩ := hbelow second (by simp [Operation.children])
        obtain ⟨hc, -⟩ := hbelow third (by simp [Operation.children])
        have hfound := ternary_found h op c ha hb hc
        rw [hroom] at hfound
        exact hfound
      · rename_i candidates arguments hop
        rw [hop] at hbelow
        split
        · rename_i chosen hchosen
          -- Where there are arguments, there is room below the call.
          have harguments : Keeps S g rank (arguments.mapM (swizzle [c])) fun ids g' rank' =>
              ∀ x ∈ ids, Below g' rank' (rank id - 1 + 1) x ∧ rank id - 1 + 1 = rank id :=
            .mapM h (fun ho hx => ⟨hx.1.onward ho, hx.2⟩) fun x hx _ _ h' ho' =>
              (h'.swizzle [c] ((hbelow x hx).1.onward ho')).mono
                fun _ _ _ _ _ hnew => ⟨hnew, (hbelow x hx).2⟩
          refine harguments.bind fun ids g₁ rank₁ h₁ _ hids => ?_
          exact operation_found h₁ (.call [chosen] []) Shape.unknown (fun x hx => (hids x hx).1)
            (fun x hx => (hids x hx).2) rfl trivial (Nat.zero_le 4) rfl
        · exact .throw h rfl
      · exact .throw h rfl

/-- What takes the place of a selection is further down. -/
theorem selection_drops (h : Ordered S g rank) (hn : g.node? id = some n)
    {components : List Component} {source : NodeId} (hop : n.op = .swizzle components source) :
    Keeps S g rank (splitSwizzle id) fun new g' rank' =>
      new < g'.nodes.size ∧ rank' new + g'.weightAt new < rank id + n.op.weight := by
  have hroom : rank source + n.op.room ≤ rank id :=
    (h.node hn).below source ((Node.mem_children hop).mpr (List.mem_singleton_self source))
  obtain ⟨m, hm⟩ := h.exists_operand hn hop (List.mem_singleton_self source)
  rw [hop] at hroom ⊢
  have hroom' : rank source + 1 ≤ rank id := hroom
  unfold splitSwizzle
  refine .node hn ?_
  rw [hop]
  split
  · rename_i c x heq
    cases heq
    have hneed := h.acyclic.needRank_le source
    refine .get ((extract_keeps h hm c (Nat.lt_succ_of_le hneed)).mono ?_)
    intro new g' rank' _ _ hfound
    have hweight : (Operation.swizzle [c] source).weight = 1 := rfl
    rcases hfound with hnew | ⟨hnew, hnone⟩
    · have hle := hnew.le
      have hlight := g'.weightAt_le new
      exact ⟨hnew.lt, by omega⟩
    · have hle := hnew.le
      exact ⟨hnew.lt, by omega⟩
  · exact .throw h rfl
  · rename_i hnone
    exact absurd rfl (hnone components source)

/-- A selection does not stay. -/
theorem selection_moves (h : Ordered S g rank) (hn : g.node? id = some n)
    {components : List Component} {source : NodeId} (hop : n.op = .swizzle components source) :
    Keeps S g rank (splitSwizzle id) fun new _ _ => new ≠ id := by
  refine (selection_drops h hn hop).mono ?_
  rintro new g' rank' - ho ⟨-, hdrop⟩ rfl
  obtain ⟨n', hn', hhead⟩ := ho.head hn
  have hweight : n'.op.weight = n.op.weight := by
    rw [← Operation.weight_head, hhead, Operation.weight_head]
  rw [ho.rank new (Graph.lt_size hn), Graph.weightAt_eq hn', hweight] at hdrop
  exact Nat.lt_irrefl _ hdrop

/-- A selected component is replaced by what is further down. -/
theorem descends : Descends S splitSwizzle := by
  intro g rank id n h hn
  by_cases hselects : ∃ components source, n.op = .swizzle components source
  · obtain ⟨components, source, hop⟩ := hselects
    exact (selection_drops h hn hop).mono fun _ _ _ _ _ hnew => .inr hnew
  · unfold splitSwizzle
    refine .node hn ?_
    split
    · rename_i c source hop
      exact absurd ⟨_, _, hop⟩ hselects
    · rename_i components source _ hop
      exact absurd ⟨_, _, hop⟩ hselects
    · exact h.stays

end Scalars

/-! ## Operators without instructions -/

namespace Lowering

/-- The lines of operators with one operand end below them. -/
theorem unary_endsBy {op : UnaryOp}
    (h : op ∈ [UnaryOp.negate, .saturate, .pow2, .radToDeg, .degToRad, .frac]) (kind : Kind) :
    Line.endsBy 1 (unaryLines op kind) ((Operation.unary op 0).room - 2) = true := by
  simp only [List.mem_cons, List.not_mem_nil, or_false] at h
  rcases h with rfl | rfl | rfl | rfl | rfl | rfl <;> rfl

/-- The lines of operators with three operands end below them. -/
theorem ternary_endsBy {op : TernaryOp} (h : op ≠ .select) (kind : Kind) :
    Line.endsBy 3 (ternaryLines op kind) 14 = true := by
  cases op
  case select => exact absurd rfl h
  all_goals cbv

/-- Multiplication chains end below a power. -/
theorem chain_endsBy : ∀ chain ∈ Power.chains, Line.endsBy 2 (chainLines chain) 14 = true := by
  decide

section

variable {bound : Nat} {x y : NodeId}

/-- The literal of a node is found. -/
theorem scalarAt_keeps {β : Type} {m : Node} (hm : g.node? x = some m)
    {next : Option Scalar → Build β} {post : β → Graph → (NodeId → Nat) → Prop}
    (h : Keeps S g rank (next m.scalar?) post) :
    Keeps S g rank (Folding.scalarAt? x >>= next) post := by
  unfold Folding.scalarAt?
  rw [bind_assoc]
  exact .node hm h

/-- A number stays, and anything else is converted. -/
theorem toFloat_keeps (h : Ordered S g rank) (hx : Below g rank bound x) :
    Keeps S g rank (toFloat x) fun new g' rank' => Below g' rank' (bound + 3) new := by
  obtain ⟨m, hm⟩ := Graph.exists_node hx.lt
  unfold toFloat kindOf
  rw [bind_assoc]
  refine .shape hm ?_
  rw [pure_bind]
  split
  · exact .pure h (hx.mono (Nat.le_add_right _ _))
  · exact h.convert .float hx

/-- A power by way of logarithms ends below a power. -/
theorem powByLog_keeps (kind : Kind) (h : Ordered S g rank) (hx : Below g rank bound x)
    (hy : Below g rank bound y) :
    Keeps S g rank (lowerPowByLog kind x y) fun new g' rank' =>
      Below g' rank' (bound + 14) new := by
  unfold lowerPowByLog
  refine (toFloat_keeps h hx).bind fun base g₁ rank₁ h₁ ho₁ hbase => ?_
  refine (toFloat_keeps h₁ (hy.onward ho₁)).bind fun exponent g₂ rank₂ h₂ ho₂ hexponent => ?_
  refine (h₂.unary .log2 (hbase.onward ho₂)).bind fun log g₃ rank₃ h₃ ho₃ hlog => ?_
  have hexponent' := (hexponent.onward ho₃).mono (Nat.le_add_right (bound + 3) 1)
  refine (h₃.binary .multiply hexponent' hlog).bind fun scaled g₄ rank₄ h₄ ho₄ hscaled => ?_
  refine (h₄.unary .pow2 hscaled).bind fun result g₅ rank₅ h₅ ho₅ hresult => ?_
  split
  · refine (h₅.unary .round hresult).bind fun rounded g₆ rank₆ h₆ ho₆ hrounded => ?_
    exact (h₆.convert .int hrounded).mono fun _ _ _ _ _ hnew =>
      hnew.mono (by simp [Operation.room])
  · exact .pure h₅ (hresult.mono (by simp [Operation.room]))

/-- A power ends below itself, or its base is the result. -/
theorem pow_keeps (kind : Kind) (h : Ordered S g rank) (hx : Below g rank bound x)
    (hy : Below g rank bound y) :
    Keeps S g rank (lowerPow kind x y) fun new g' rank' => Below g' rank' (bound + 14) new := by
  obtain ⟨m, hm⟩ := Graph.exists_node hx.lt
  obtain ⟨k, hk⟩ := Graph.exists_node hy.lt
  unfold lowerPow
  refine scalarAt_keeps hm ?_
  split
  · exact (h.unary .pow2 hy).mono fun _ _ _ _ _ hnew => hnew.mono (by simp [Operation.room])
  · refine scalarAt_keeps hk ?_
    split
    · exact powByLog_keeps kind h hx hy
    · split
      · exact .pure h (hx.mono (Nat.le_add_right _ _))
      · split
        · rename_i chain hchain
          have hmem := mem_chains hchain
          rw [powerChain_eq x y hmem]
          refine Line.make_keeps h (fun c hc => ?_) (chain_endsBy chain hmem)
          rcases List.mem_pair.mp hc with rfl | rfl <;> assumption
        · exact powByLog_keeps kind h hx hy

/-- A logarithm ends below itself. -/
theorem log_keeps (h : Ordered S g rank) (hx : Below g rank bound x) (hy : Below g rank bound y) :
    Keeps S g rank (lowerLog x y) fun new g' rank' => Below g' rank' (bound + 14) new := by
  unfold lowerLog
  refine (h.unary .log2 hy).bind fun logValue g₁ rank₁ h₁ ho₁ hlog => ?_
  have hx₁ := hx.onward ho₁
  obtain ⟨m, hm⟩ := Graph.exists_node hx₁.lt
  refine scalarAt_keeps hm ?_
  split
  · split
    · exact .pure h₁ (hlog.mono (by simp [Operation.room]))
    · refine (h₁.scalar _).bind fun factor g₂ rank₂ h₂ ho₂ hfactor => ?_
      exact (h₂.binary .multiply (hlog.onward ho₂) (hfactor.mono (Nat.zero_le _))).mono
        fun _ _ _ _ _ hnew => hnew.mono (by simp [Operation.room])
  · refine (h₁.unary .log2 hx₁).bind fun logBase g₂ rank₂ h₂ ho₂ hbase => ?_
    exact (h₂.binary .divide (hlog.onward ho₂) hbase).mono
      fun _ _ _ _ _ hnew => hnew.mono (by simp [Operation.room])

/-- A remainder ends below itself. -/
theorem modulo_keeps (kind : Kind) (h : Ordered S g rank) (hx : Below g rank bound x)
    (hy : Below g rank bound y) :
    Keeps S g rank (lowerBinary id kind .modulo x y) fun new g' rank' =>
      Below g' rank' (bound + 14) new := by
  unfold lowerBinary
  refine (h.binary .divide hx hy).bind fun quotient g₁ rank₁ h₁ ho₁ hquotient => ?_
  -- Numbers are cut off, and other quotients are whole already.
  have hrest : ∀ {whole : NodeId} {g₂ : Graph} {rank₂ : NodeId → Nat}, Ordered S g₂ rank₂ →
      Onward g₁ rank₁ g₂ rank₂ → Below g₂ rank₂ (bound + 2) whole → Keeps S g₂ rank₂ (do
        let product ← Build.binary .multiply y whole
        Build.binary .subtract x product) fun new g' rank' => Below g' rank' (bound + 14) new := by
    intro whole g₂ rank₂ h₂ ho₂ hwhole
    have ho := ho₁.trans ho₂
    have hy₂ := (hy.onward ho).mono (Nat.le_add_right bound 2)
    refine (h₂.binary .multiply hy₂ hwhole).bind fun product g₃ rank₃ h₃ ho₃ hproduct => ?_
    have hx₃ := (hx.onward (ho.trans ho₃)).mono (Nat.le_add_right bound 3)
    exact (h₃.binary .subtract hx₃ hproduct).mono
      fun _ _ _ _ _ hnew => hnew.mono (by simp [Operation.room])
  obtain ⟨m, hm⟩ := Graph.exists_node hquotient.lt
  unfold kindOf
  rw [bind_assoc]
  refine .shape hm ?_
  rw [pure_bind]
  dsimp only
  split
  · exact (h₁.unary .trunc hquotient).bind fun whole _ _ h₂ ho₂ hwhole => hrest h₂ ho₂ hwhole
  · rw [pure_bind]
    exact hrest h₁ (Onward.refl g₁ rank₁) (hquotient.mono (by simp [Operation.room]))

end

/-- Operators with one operand are replaced by what is further down. -/
theorem unary_descends (h : Ordered S g rank) (hn : g.node? id = some n) {op : UnaryOp}
    {x : NodeId} (hop : n.op = .unary op x) (kind : Kind) :
    Keeps S g rank (lowerUnary id kind op x) (Leads rank id n) := by
  have hx : x ∈ n.children := (Node.mem_children hop).mpr (List.mem_singleton_self x)
  have hlines : ∀ {lines : List Line} {limit : Nat}, Line.endsBy 1 lines limit = true →
      limit + 2 ≤ (Operation.unary op x).room →
      Keeps S g rank (Line.make [x] lines) (Leads rank id n) :=
    fun hends hroom => h.lines_lead hn hop (List.cons_ne_nil _ _) hends hroom
  cases op
  case negate | saturate | radToDeg | degToRad | frac =>
    rw [lowerUnary_eq id x kind (.inl (by decide))]
    exact hlines (unary_endsBy (by decide) kind) (by simp [Operation.room])
  case pow2 =>
    by_cases hkind : kind = .int
    · rw [lowerUnary_eq id x kind (.inr ⟨rfl, hkind⟩)]
      exact hlines (unary_endsBy (by decide) kind) (Nat.le_refl 3)
    · unfold lowerUnary
      dsimp only
      rw [if_neg hkind]
      exact h.stays
  case all | any => exact h.operand_leads hn hx (by simp [hop, Operation.room])
  case convert =>
    obtain ⟨m, hm⟩ := h.exists_operand hn hop (List.mem_singleton_self x)
    unfold lowerUnary kindOf
    rw [bind_assoc]
    refine .shape hm ?_
    rw [pure_bind]
    split
    · exact h.operand_leads hn hx (by simp [hop, Operation.room])
    · split
      · have hmake : (zero m.shape.kind >>= fun z => Build.binary .notEqual x z) =
            Line.make [x] (toBoolLines m.shape.kind) := by
          simp [zero_eq, toBoolLines, Line.make, Line.run, Line.build]
        rw [hmake]
        exact hlines (show Line.endsBy 1 _ 1 = true from rfl) (Nat.le_refl 3)
      · split
        · have hmake : (do
              let t ← one kind
              let f ← zero kind
              Build.ternary .select x t f) = Line.make [x] (ofBoolLines kind) := by
            simp [zero_eq, one_eq, ofBoolLines, Line.make, Line.run, Line.build]
          rw [hmake]
          exact hlines (show Line.endsBy 1 _ 1 = true from rfl) (Nat.le_refl 3)
        · exact h.stays
  all_goals exact h.stays

/-- Operators with two operands are replaced by what is further down. -/
theorem binary_descends (h : Ordered S g rank) (hn : g.node? id = some n) {op : BinaryOp}
    {x y : NodeId} (hop : n.op = .binary op x y) (kind : Kind) :
    Keeps S g rank (lowerBinary id kind op x y) (Leads rank id n) := by
  have hmem : ∀ c ∈ [x, y], c ∈ n.children := fun _ hc => (Node.mem_children hop).mpr hc
  have hx := (h.node hn).below x (hmem x List.mem_cons_self)
  rw [hop] at hx
  have hbelow : ∀ c ∈ [x, y], Below g rank (rank id - (Operation.binary op x y).room) c :=
    fun c hc => h.operand hn (hmem c hc) (by rw [hop]; omega)
  have hx' := hbelow x List.mem_cons_self
  have hy' := hbelow y (List.mem_cons_of_mem _ (List.mem_singleton_self y))
  -- What ends within the room of the operator is further down.
  have hleads : ∀ {steps : Build NodeId}, (Operation.binary op x y).room = 16 →
      Keeps S g rank steps (fun new g' rank' =>
        Below g' rank' (rank id - (Operation.binary op x y).room + 14) new) →
      Keeps S g rank steps (Leads rank id n) := by
    intro steps hlarge hsteps
    exact hsteps.mono fun new g' rank' _ _ hnew => hnew.leads (by omega)
  cases op
  case modulo => exact hleads rfl (modulo_keeps kind h hx' hy')
  case log => exact hleads rfl (log_keeps h hx' hy')
  case pow => exact hleads rfl (pow_keeps kind h hx' hy')
  all_goals exact h.stays

/-- Operators without instructions are replaced by what is further down. -/
theorem descends : Descends S replace := by
  intro g rank id n h hn
  unfold replace
  refine .node hn ?_
  split
  · rename_i op x hop
    exact unary_descends h hn hop n.shape.kind
  · rename_i op x y hop
    exact binary_descends h hn hop n.shape.kind
  · rename_i op x y z hop
    by_cases hselect : op = .select
    · subst hselect
      exact h.stays
    · rw [lowerTernary_eq id x y z n.shape.kind hselect]
      refine h.lines_lead hn hop (List.cons_ne_nil _ _) (ternary_endsBy hselect _) ?_
      cases op <;> first | exact absurd rfl hselect | exact Nat.le_refl 16
  · rename_i argument hop
    have hargument := (Node.mem_children hop).mpr (List.mem_singleton_self argument)
    exact h.operand_leads hn hargument (by simp [hop, Operation.room])
  · exact .throw h rfl
  · exact h.stays

end Lowering

/-! ## The final check -/

namespace Consistency

/-- What concerns a node alone fails only for what is wrong with it. -/
theorem checkNode_fault {e : GraphError} (he : checkNode g n = .error e) : e.isFault = false := by
  unfold checkNode at he
  repeat' split at he
  all_goals cases he
  all_goals rfl

/-- The check of operands that are there fails only for what is wrong with them. -/
theorem checkChildren_fault (pairs : List (NodeId × Nat))
    (hpairs : ∀ p ∈ pairs, p.1 < g.nodes.size) {e : GraphError}
    (he : (pairs.forM fun (child, index) => checkChild g n index child) = .error e) :
    e.isFault = false := by
  induction pairs with
  | nil => cases he
  | cons p rest ih =>
    obtain ⟨child, index⟩ := p
    obtain ⟨m, hm⟩ := Graph.exists_node (hpairs _ List.mem_cons_self)
    have hchild : checkChild g n index child = .ok () ∨ checkChild g n index child =
        .error (.argumentMismatch n.describe index (g.expectedShape n index) m.shape) := by
      unfold checkChild Graph.node
      rw [hm]
      dsimp only [bind, Except.bind]
      split
      · exact .inr rfl
      · exact .inl rfl
    rw [List.forM] at he
    dsimp only at he
    rcases hchild with hok | herror
    · rw [hok] at he
      exact ih (fun q hq => hpairs q (List.mem_cons_of_mem _ hq)) he
    · rw [herror] at he
      cases he
      rfl

/-- The final check leaves nodes in place. -/
theorem descends : Descends S pass.replace := by
  intro g rank id n h hn
  have hfault : ∀ e, check g id = .error e → e.isFault = false := by
    intro e he
    unfold check Graph.node at he
    rw [hn] at he
    cases hnode : checkNode g n with
    | error e' =>
      dsimp only [bind, Except.bind] at he
      rw [hnode] at he
      cases he
      exact checkNode_fault hnode
    | ok _ =>
      dsimp only [bind, Except.bind] at he
      rw [hnode] at he
      exact checkChildren_fault _ (fun p hp => (h.node hn).child _ (List.fst_mem_of_mem_zipIdx hp))
        he
  have hsteps : pass.replace id = (do Build.ask (check · id); return id) := rfl
  rw [hsteps]
  cases hcheck : check g id with
  | ok _ => exact .ask hcheck h.stays
  | error e => exact .refuse h hcheck (hfault e hcheck)

end Consistency

end LaneGraph
