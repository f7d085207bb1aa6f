import LaneGraph.Proofs.Lowering
import LaneGraph.Proofs.Tapering

/-!
# Scalars stay scalars

Literals of one component and operators that are not for vectors bring in no others. So
lowering leaves such a graph in its form, whether its nodes are resolved or not. Most
operators are lowered line by line, and for lines it is enough to look at each of them once.
-/

namespace LaneGraph

open Build

/-- The literal of one component that the operand is. -/
def Look.scalar? (l : Look) : Option Scalar := l.literal.bind Constant.scalar?

namespace Graph

variable {g : Graph} {id : NodeId} {n : Node}

/-- The literal that is seen of a node. -/
theorem scalar?_lookAt (hn : g.node? id = some n) : (g.lookAt id).scalar? = n.scalar? := by
  rw [lookAt_eq hn]
  rfl

/-- Literals and operators do not depend on operands. -/
theorem meets_slim : g.Meets Slim n ↔ n.op.vectorial = false ∧ n.selects = false ∧
    ∀ c, n.op = .constant c → n.shape = c.shape ∧ c.bits.length ≤ 1 := by
  have hvector := n.vectorial_frame
  have hshape := n.shape_frame
  have hconstant : ∀ c, n.frame.op = .constant c ↔ n.op = .constant c := n.op_frame_constant
  constructor
  · rintro ⟨hunmixed, hsettled, hc⟩
    exact ⟨hvector ▸ hunmixed, n.selects_frame ▸ hsettled,
      fun c hop => hshape ▸ hc c ((hconstant c).mpr hop)⟩
  · rintro ⟨hunmixed, hsettled, hc⟩
    exact ⟨hvector.trans hunmixed, n.selects_frame.trans hsettled,
      fun c hop => hshape.symm ▸ hc c ((hconstant c).mp hop)⟩

/-- What comes of adding an operation other than a call does what the operation does. -/
theorem Adds.op_eq {op : Operation} {shape : Shape} (h : g.Adds op shape n)
    (hcall : op.isCall = false) : n.op = op := by
  cases h with
  | raw => rfl
  | resolved =>
    have hoperator : ∀ types shapes reduces,
        (({ op, shape } : Node).resolveOperator types shapes reduces).op = op := by
      intro types shapes reduces
      unfold Node.resolveOperator
      dsimp only
      split
      · rfl
      · split <;> rfl
    unfold Node.resolved
    split
    case h_6 =>
      rename_i hop
      rw [show op = _ from hop] at hcall
      cases hcall
    all_goals first | rfl | exact hoperator _ _ _

/-- A literal of one component is slim. -/
theorem Adds.slim_literal {v : Scalar}
    (h : g.Adds (.constant (.ofScalar v)) (Constant.ofScalar v).shape n) : g.Meets Slim n := by
  have hop := h.op_eq rfl
  have hshape : n.shape = (Constant.ofScalar v).shape := by
    cases h with
    | raw => rfl
    | resolved => rfl
  refine meets_slim.mpr ⟨by rw [hop]; rfl, ?_, fun c hc => ?_⟩
  · unfold Node.selects
    rw [hop]
  · rw [hop] at hc
    cases hc
    exact ⟨hshape, Nat.le_refl 1⟩

/-- An operator that is not for vectors is slim. -/
theorem Adds.slim_operator {op : Operation} {shape : Shape} (h : g.Adds op shape n)
    (hop : op.isOperator = true) (hvector : op.vectorial = false) : g.Meets Slim n := by
  have hoperator := (Operation.isOperator_of_head h.head).trans hop
  refine meets_slim.mpr ⟨(Operation.vectorial_of_head h.head).trans hvector,
    ?_, fun c hc => ?_⟩
  · unfold Node.selects
    split
    · rename_i hselects
      rw [hselects] at hoperator
      cases hoperator
    · rfl
  · rw [hc] at hoperator
    cases hoperator

end Graph

/-! ## Scalars that are added -/

section

variable {live : NodeId → Prop} {g : Graph} {x y z : NodeId}

/-- A literal may be added. -/
theorem MeetsOn.slimLiteral (h : MeetsOn Slim live g) (v : Scalar) :
    Brings Slim live (Build.scalar v) g fun id g' => Usable live g' id :=
  (h.plain (.constant (.ofScalar v)) _ (fun _ hc => nomatch hc) fun _ hn => hn.slim_literal).mono
    fun _ _ _ _ hid => hid.1

/-- An operator that is not for vectors may be applied. -/
theorem MeetsOn.slimOperator (h : MeetsOn Slim live g) {op : Operation} (shape : Shape)
    (hop : op.isOperator = true) (hvector : op.vectorial = false)
    (hchildren : ∀ c ∈ op.children, Usable live g c) :
    Brings Slim live (Build.plain op shape) g fun id g' => Usable live g' id :=
  (h.plain op shape hchildren fun _ hn => hn.slim_operator hop hvector).mono
    fun _ _ _ _ hid => hid.1

/-- An operator with one operand may be applied. -/
theorem MeetsOn.slimUnary (h : MeetsOn Slim live g) {op : UnaryOp}
    (hvector : (Operation.unary op x).vectorial = false) (hx : Usable live g x) :
    Brings Slim live (Build.unary op x) g fun id g' => Usable live g' id :=
  h.slimOperator .unknown rfl hvector fun _ hc => List.mem_singleton.mp hc ▸ hx

/-- An operator with two operands may be applied. -/
theorem MeetsOn.slimBinary (h : MeetsOn Slim live g) {op : BinaryOp}
    (hvector : (Operation.binary op x y).vectorial = false) (hx : Usable live g x)
    (hy : Usable live g y) :
    Brings Slim live (Build.binary op x y) g fun id g' => Usable live g' id := by
  refine h.slimOperator .unknown rfl hvector fun c hc => ?_
  rcases List.mem_pair.mp hc with rfl | rfl
  · exact hx
  · exact hy

/-- A kind may be changed. -/
theorem MeetsOn.slimConvert (h : MeetsOn Slim live g) (target : Kind) (hx : Usable live g x) :
    Brings Slim live (Build.convert x target) g fun id g' => Usable live g' id :=
  h.slimOperator _ rfl rfl fun _ hc => List.mem_singleton.mp hc ▸ hx

/-! ## Lines -/

namespace Line

/-- The line makes a scalar of scalars. -/
def slim : Line → Bool
  | literal _ | convert _ _ | ternary _ _ _ _ => true
  | unary op _ => !(Operation.unary op 0).vectorial
  | binary op _ _ => !(Operation.binary op 0 0).vectorial
  | swizzle _ _ | spread _ _ => false

/-- Lines that refer to so many nodes, and to each other, make scalars of scalars. -/
def slims : Nat → List Line → Bool
  | _, [] => true
  | count, l :: rest => l.slim && l.places.all (· < count) && slims (count + 1) rest

variable {ids : List NodeId}

/-- A line brings in a scalar. -/
theorem build_brings (h : MeetsOn Slim live g) (hids : ∀ c ∈ ids, Usable live g c) {l : Line}
    (hslim : l.slim = true) (hplaces : l.places.all (· < ids.length) = true) :
    Brings Slim live (l.build ids) g fun id g' => Usable live g' id := by
  have hget : ∀ i ∈ l.places, Usable live g (ids.getD i 0) := by
    intro i hi
    have hlt : i < ids.length := of_decide_eq_true (List.all_eq_true.mp hplaces i hi)
    rw [List.getD_eq_getElem?_getD, List.getElem?_eq_getElem hlt]
    exact hids _ (List.getElem_mem hlt)
  have hunmixed : ∀ {op : Operation} (op' : Operation), op.head = op'.head →
      (!op'.vectorial) = true → op.vectorial = false := fun op' hhead hvector =>
    (Operation.vectorial_of_head hhead).trans ((Bool.not_eq_true' _).mp hvector)
  cases l with
  | literal v => exact h.slimLiteral v
  | unary op x => exact h.slimUnary (hunmixed (.unary op 0) rfl hslim) (hget x (by simp [places]))
  | convert x target => exact h.slimConvert target (hget x (by simp [places]))
  | binary op x y =>
    exact h.slimBinary (hunmixed (.binary op 0 0) rfl hslim) (hget x (by simp [places]))
      (hget y (by simp [places]))
  | ternary op x y z =>
    refine h.slimOperator .unknown rfl rfl fun c hc => ?_
    simp only [Operation.children, List.mem_cons, List.not_mem_nil, or_false] at hc
    rcases hc with rfl | rfl | rfl
    all_goals exact hget _ (by simp [places])
  | swizzle | spread => cases hslim

/-- Lines bring in scalars. -/
theorem run_brings (lines : List Line) (h : MeetsOn Slim live g) (hids : ∀ c ∈ ids, Usable live g c)
    (hslims : slims ids.length lines = true) :
    Brings Slim live (run ids lines) g fun ids' g' => ids <+: ids' ∧ ∀ c ∈ ids', Usable live g' c := by
  induction lines generalizing g ids with
  | nil => exact .pure h ⟨List.prefix_refl ids, hids⟩
  | cons l rest ih =>
    rw [slims, Bool.and_eq_true, Bool.and_eq_true] at hslims
    obtain ⟨⟨hslim, hplaces⟩, hrest⟩ := hslims
    refine (build_brings h hids hslim hplaces).bind fun id g₁ k₁ h₁ hid => ?_
    refine (ih h₁ (fun c hc => ?_) (by rwa [List.length_append])).mono fun ids' g' _ _ h' =>
      ⟨(List.prefix_append ids [id]).trans h'.1, h'.2⟩
    rcases List.mem_append.mp hc with hc | hc
    · exact (hids c hc).keeping k₁
    · exact List.mem_singleton.mp hc ▸ hid

/-- The last of several lines brings in a scalar. -/
theorem make_brings {lines : List Line} (h : MeetsOn Slim live g)
    (hids : ∀ c ∈ ids, Usable live g c) (hne : ids ≠ []) (hslims : slims ids.length lines = true) :
    Brings Slim live (make ids lines) g fun id g' => Usable live g' id := by
  refine (run_brings lines h hids hslims).bind fun ids' g' _ h' hall => .pure h' ?_
  have hne' : ids' ≠ [] := fun hnil => hne (List.prefix_nil.mp (hnil ▸ hall.1))
  rw [List.getLastD_eq_getLast?, List.getLast?_eq_some_getLast hne']
  exact hall.2 _ (List.getLast_mem hne')

end Line

end

/-! ## Lowering -/

namespace Folding

/-- What follows the look at the literal of a node. -/
theorem brings_scalarAt {live : NodeId → Prop} {g : Graph} {id : NodeId} {β : Type} {next : Option Scalar → Build β} {post : β → Graph → Prop}
    {P : Condition} (hid : id < g.nodes.size)
    (h : Brings P live (next (g.lookAt id).scalar?) g post) :
    Brings P live (scalarAt? id >>= next) g post := by
  obtain ⟨n, hn⟩ := Graph.exists_node hid
  rw [Graph.scalar?_lookAt hn] at h
  unfold scalarAt?
  rw [bind_assoc]
  exact .node hn h

end Folding

namespace Lowering

variable {live : NodeId → Prop} {g : Graph} {id x y : NodeId} {n : Node}

/-- A number stays, and anything else is converted. -/
theorem toFloat_brings (h : MeetsOn Slim live g) (hx : Usable live g x) :
    Brings Slim live (toFloat x) g fun id g' => Usable live g' id := by
  unfold toFloat kindOf
  rw [bind_assoc]
  refine .shape hx.lt ?_
  rw [pure_bind]
  split
  · exact .pure h hx
  · exact h.slimConvert .float hx

/-- A power by way of logarithms is brought in. -/
theorem powByLog_brings (kind : Kind) (h : MeetsOn Slim live g) (hx : Usable live g x)
    (hy : Usable live g y) :
    Brings Slim live (lowerPowByLog kind x y) g fun id g' => Usable live g' id := by
  unfold lowerPowByLog
  refine (toFloat_brings h hx).bind fun base g₁ k₁ h₁ hbase => ?_
  refine (toFloat_brings h₁ (hy.keeping k₁)).bind fun exponent g₂ k₂ h₂ hexponent => ?_
  refine (h₂.slimUnary rfl (hbase.keeping k₂)).bind fun log g₃ k₃ h₃ hlog => ?_
  refine (h₃.slimBinary rfl (hexponent.keeping k₃) hlog).bind fun scaled g₄ _ h₄ hscaled => ?_
  refine (h₄.slimUnary rfl hscaled).bind fun result g₅ _ h₅ hresult => ?_
  split
  · exact (h₅.slimUnary rfl hresult).bind fun rounded g₆ _ h₆ hrounded =>
      h₆.slimConvert .int hrounded
  · exact .pure h₅ hresult

/-- A power is brought in, or its base. -/
theorem pow_brings (kind : Kind) (h : MeetsOn Slim live g) (hx : Usable live g x)
    (hy : Usable live g y) :
    Brings Slim live (lowerPow kind x y) g fun id g' => Usable live g' id := by
  unfold lowerPow
  refine Folding.brings_scalarAt hx.lt ?_
  split
  · exact h.slimUnary rfl hy
  · refine Folding.brings_scalarAt hy.lt ?_
    split
    · exact powByLog_brings kind h hx hy
    · split
      · exact .pure h hx
      · split
        · rename_i chain hchain
          have hmem := mem_chains hchain
          have hslims : ∀ chain ∈ Power.chains, Line.slims 2 (chainLines chain) = true := by decide
          rw [powerChain_eq x y hmem]
          refine Line.make_brings h (fun c hc => ?_) (List.cons_ne_nil _ _) (hslims chain hmem)
          rcases List.mem_pair.mp hc with rfl | rfl <;> assumption
        · exact powByLog_brings kind h hx hy

/-- A logarithm is brought in. -/
theorem log_brings (h : MeetsOn Slim live g) (hx : Usable live g x) (hy : Usable live g y) :
    Brings Slim live (lowerLog x y) g fun id g' => Usable live g' id := by
  unfold lowerLog
  refine (h.slimUnary rfl hy).bind fun logValue g₁ k₁ h₁ hlog => ?_
  have hx₁ := hx.keeping k₁
  refine Folding.brings_scalarAt hx₁.lt ?_
  split
  · split
    · exact .pure h₁ hlog
    · exact (h₁.slimLiteral _).bind fun factor g₂ k₂ h₂ hfactor =>
        h₂.slimBinary rfl (hlog.keeping k₂) hfactor
  · exact (h₁.slimUnary rfl hx₁).bind fun logBase g₂ k₂ h₂ hbase =>
      h₂.slimBinary rfl (hlog.keeping k₂) hbase

/-- A remainder is brought in. -/
theorem modulo_brings (kind : Kind) (h : MeetsOn Slim live g) (hx : Usable live g x)
    (hy : Usable live g y) :
    Brings Slim live (lowerBinary id kind .modulo x y) g fun id g' => Usable live g' id := by
  unfold lowerBinary
  refine (h.slimBinary rfl hx hy).bind fun quotient g₁ k₁ h₁ hquotient => ?_
  -- Numbers are cut off, and other quotients are whole already.
  have hrest : ∀ {whole : NodeId} {g₂ : Graph}, Keeping (fun _ => True) g₁ g₂ →
      MeetsOn Slim live g₂ → Usable live g₂ whole → Brings Slim live (do
        let product ← Build.binary .multiply y whole
        Build.binary .subtract x product) g₂ fun id g' => Usable live g' id := by
    intro whole g₂ k₂ h₂ hwhole
    have k := k₁.trans k₂
    exact (h₂.slimBinary rfl (hy.keeping k) hwhole).bind fun product g₃ k₃ h₃ hproduct =>
      h₃.slimBinary rfl (hx.keeping (k.trans k₃)) hproduct
  unfold kindOf
  rw [bind_assoc]
  refine .shape hquotient.lt ?_
  rw [pure_bind]
  dsimp only
  split
  · exact (h₁.slimUnary rfl hquotient).bind fun whole _ k₂ h₂ hwhole => hrest k₂ h₂ hwhole
  · rw [pure_bind]
    exact hrest (.refl _ g₁) h₁ hquotient

/-- An operator with one operand is replaced by scalars, or it stays. -/
theorem unary_brings (op : UnaryOp) (kind : Kind) (h : MeetsOn Slim live g)
    (hid : Usable live g id) (hx : Usable live g x) :
    Brings Slim live (lowerUnary id kind op x) g fun id g' => Usable live g' id := by
  have hlines : ∀ {lines : List Line}, Line.slims 1 lines = true →
      Brings Slim live (Line.make [x] lines) g fun id g' => Usable live g' id := fun hslims =>
    Line.make_brings h (fun c hc => List.mem_singleton.mp hc ▸ hx) (List.cons_ne_nil _ _) hslims
  cases op
  case negate | saturate | radToDeg | degToRad | frac =>
    rw [lowerUnary_eq id x kind (.inl (by decide))]
    exact hlines rfl
  case pow2 =>
    by_cases hkind : kind = .int
    · rw [lowerUnary_eq id x kind (.inr ⟨rfl, hkind⟩)]
      exact hlines rfl
    · unfold lowerUnary
      dsimp only
      rw [if_neg hkind]
      exact .pure h hid
  case all | any => exact .pure h hx
  case convert =>
    unfold lowerUnary kindOf
    rw [bind_assoc]
    refine .shape hx.lt ?_
    rw [pure_bind]
    split
    · exact .pure h hx
    · split
      · rw [zero_eq]
        exact (h.slimLiteral _).bind fun z g₁ k₁ h₁ hz => h₁.slimBinary rfl (hx.keeping k₁) hz
      · split
        · have hmake : (do
              let t ← one kind
              let f ← zero kind
              Build.ternary .select x t f) = Line.make [x] (ofBoolLines kind) := by
            simp [zero_eq, one_eq, ofBoolLines, Line.make, Line.run, Line.build]
          rw [hmake]
          exact hlines rfl
        · exact .pure h hid
  all_goals exact .pure h hid

/-- What an operator is lowered to is brought in, or the node stays. -/
theorem replace_brings (h : MeetsOn Slim live g) (hid : live id) (hn : g.node? id = some n) :
    Brings Slim live (replace id) g fun new g' => Usable live g' new := by
  have hid : Usable live g id := ⟨hid, Graph.lt_size hn⟩
  have hready : ∀ {op}, n.op = op → ∀ c ∈ op.children, Usable live g c := by
    rintro op rfl
    exact h.ready id n hid.live hn
  unfold replace
  refine .node hn ?_
  split
  · rename_i op x hop
    exact unary_brings op n.shape.kind h hid (hready hop x (List.mem_singleton_self x))
  · rename_i op x y hop
    have hx := hready hop x List.mem_cons_self
    have hy := hready hop y (List.mem_cons_of_mem _ (List.mem_singleton_self y))
    cases op
    case modulo => exact modulo_brings n.shape.kind h hx hy
    case log => exact log_brings h hx hy
    case pow => exact pow_brings n.shape.kind h hx hy
    all_goals exact .pure h hid
  · rename_i op x y z hop
    by_cases hselect : op = .select
    · subst hselect
      exact .pure h hid
    · have hslims : Line.slims 3 (ternaryLines op n.shape.kind) = true := by
        cases op
        case select => exact absurd rfl hselect
        all_goals cbv
      rw [lowerTernary_eq id x y z n.shape.kind hselect]
      exact Line.make_brings h (hready hop) (List.cons_ne_nil _ _) hslims
  · rename_i argument hop
    exact .pure h (hready hop argument (List.mem_singleton_self argument))
  · exact trivial
  · exact .pure h hid

/-- Scalars are lowered to scalars. -/
theorem steadies {S : Streams} : Steadies S Slim (fun _ _ => True) (fun _ => True) replace where
  descends := descends
  eases _ _ _ _ _ h hid hn := (replace_brings h hid hn).mono fun _ _ _ _ hnew =>
    ⟨hnew, trivial, fun _ => trivial⟩
  bears _ _ _ _ _ hslim := ⟨hslim.unmixed, hslim.settled, hslim.constant⟩
  refl _ := trivial
  trans _ _ _ _ _ := trivial

/-- Lowering leaves scalars. -/
theorem pass_slim {S : Streams} (h : Orderly S g) (hg : g.Obeys Slim) :
    Ends pass.run g (fun _ g' => g'.Obeys Slim) fun _ => True :=
  (Pass.downward_obeys rfl steadies h hg).mono fun _ _ hends => hends.1.imp fun _ _ _ h => h.1

end Lowering

end LaneGraph
