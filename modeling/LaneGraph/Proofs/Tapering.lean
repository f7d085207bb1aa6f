import LaneGraph.Proofs.Denotation
import LaneGraph.Proofs.Extraction
import LaneGraph.Proofs.Settling

/-!
# Selections end in scalars

Once vectors are written out and streams are split, a node of one component has operands of
one component, unless it selects one; and so has every constructor. This is all that it
takes for components to be scalars: what stands for a selected component has one component
itself, whether it is resolved or not, and no selection stays. The outputs are scalars, so
in the end everything is that they depend on.
-/

namespace LaneGraph

open Build

/-- The operand has at most one component. -/
def Look.Narrow (l : Look) : Prop := l.shape.width ≤ 1

/-- The operator exists for vectors. -/
def Operation.vectorial : Operation → Bool
  | .unary .length _ | .unary .normalize _ => true
  | .binary .dot _ _ | .binary .cross _ _ | .binary .reflect _ _ => true
  | _ => false

/-- Where a node has one component, so have its operands, unless it selects one of several;
and the operands of a constructor have one component in any case. -/
structure Tapers (_ : List Signature) (n : Node) (looks : List Look) : Prop where
  unmixed : n.op.vectorial = false
  constant : ∀ c, n.op = .constant c → n.shape = c.shape ∧ (n.shape.width ≤ 1 → c.bits.length ≤ 1)
  construct : ∀ arguments, n.op = .construct arguments → ∀ l ∈ looks, l.Narrow
  operands : n.selects = false → n.shape.width ≤ 1 → ∀ l ∈ looks, l.Narrow

/-- No operator is for vectors, no component is selected, and literals have at most one. -/
structure Slim (_ : List Signature) (n : Node) (_ : List Look) : Prop where
  unmixed : n.op.vectorial = false
  settled : n.selects = false
  constant : ∀ c, n.op = .constant c → n.shape = c.shape ∧ c.bits.length ≤ 1

/-- Operands may be exchanged for others with one component. -/
theorem Tapers.bears : Condition.Bears Tapers fun l l' => l.Narrow → l'.Narrow := by
  intro functions n looks looks' hlooks h
  have hall : (∀ l ∈ looks, l.Narrow) → ∀ l ∈ looks', l.Narrow := by
    intro hnarrow
    clear h
    induction hlooks with
    | nil => exact hnarrow
    | cons hfirst _ ih =>
      rw [List.forall_mem_cons] at hnarrow ⊢
      exact ⟨hfirst hnarrow.1, ih hnarrow.2⟩
  exact ⟨h.unmixed, h.constant, fun arguments hop => hall (h.construct arguments hop),
    fun hselects hwidth => hall (h.operands hselects hwidth)⟩

namespace Operation

/-- Whether an operation is for vectors is seen in its head. -/
theorem vectorial_of_head {op op' : Operation} (h : op'.head = op.head) :
    op'.vectorial = op.vectorial := by
  have hhead : ∀ o : Operation, o.head.vectorial = o.vectorial := by
    intro o
    cases o with
    | unary op x => cases op <;> rfl
    | binary op x y => cases op <;> rfl
    | _ => rfl
  rw [← hhead, h, hhead]

/-- An operator is seen in its head. -/
theorem isOperator_of_head {op op' : Operation} (h : op'.head = op.head) :
    op'.isOperator = op.isOperator := by
  have hhead : ∀ o : Operation, o.head.isOperator = o.isOperator := by
    intro o
    cases o <;> rfl
  rw [← hhead, h, hhead]

end Operation

namespace Node

/-- A node that selects components is a selection. -/
theorem selects_iff {n : Node} : n.selects = true ↔ ∃ components source, n.op = .swizzle components source := by
  unfold selects
  constructor
  · intro h
    split at h
    · exact ⟨_, _, ‹_›⟩
    · cases h
  · rintro ⟨components, source, hop⟩
    rw [hop]

/-- Which literal a node is, is seen in its frame. -/
@[simp] theorem op_frame_constant (n : Node) (c : Constant) :
    n.frame.op = .constant c ↔ n.op = .constant c := by
  unfold frame
  cases n.op <;> simp [Operation.mapChildren]

/-- Whether an operation is for vectors is seen in its frame. -/
@[simp] theorem vectorial_frame (n : Node) : n.frame.op.vectorial = n.op.vectorial := by
  unfold frame
  cases n.op with
  | unary op x => cases op <;> rfl
  | binary op x y => cases op <;> rfl
  | _ => rfl

/-- What does not mix components is not for vectors. -/
theorem vectorial_of_mixes {n : Node} (h : n.mixes = false) : n.op.vectorial = false := by
  unfold mixes at h
  cases hop : n.op with
  | unary op x =>
    rw [hop] at h
    cases op <;> first | rfl | cases h
  | binary op x y =>
    rw [hop] at h
    cases op <;> first | rfl | cases h
  | _ => rfl

/-- A shape of one component at most stays so when it is brought into bounds. -/
theorem width_of_le_one {kind : Kind} {width : Nat} (h : width ≤ 1) :
    (Shape.of kind width).width ≤ 1 := by
  unfold Shape.of
  split
  · exact Nat.zero_le 1
  · dsimp only
    omega

/-- An operator on operands of one component has one component. -/
theorem resolved_narrow {n : Node} {functions : List Signature} {shapes : List Shape}
    (hop : n.op.isOperator = true) (hn : n.shape.width ≤ 1) (h : ∀ s ∈ shapes, s.width ≤ 1) :
    (n.resolved functions shapes).shape.width ≤ 1 := by
  have hwidest := widest_le (Nat.le_refl 1) h
  have hoperator : ∀ types reduces, (n.resolveOperator types shapes reduces).shape.width ≤ 1 := by
    intro types reduces
    unfold resolveOperator
    dsimp only
    split
    · exact hn
    · split
      · exact hn
      · exact width_of_le_one (by split <;> omega)
  unfold resolved
  split
  case h_1 => exact width_of_le_one hwidest
  case h_2 | h_3 | h_4 => exact hoperator _ _
  case h_6 =>
    unfold resolveCall
    dsimp only
    split
    · exact hn
    · split
      · exact hn
      · exact width_of_le_one hwidest
  all_goals
    rename_i hcase
    rw [hcase] at hop
    cases hop

end Node

section

variable {live : NodeId → Prop} {g : Graph}

/-- What comes of adding an operation has its head. -/
theorem Graph.Adds.head {op : Operation} {shape : Shape} {n : Node} (h : g.Adds op shape n) :
    n.op.head = op.head := by
  cases h with
  | raw => rfl
  | resolved => exact (Node.resolves_resolved _ _ _).head

/-- An operator may be applied to operands of one component. -/
theorem MeetsOn.operator (h : MeetsOn Tapers live g) (op : Operation) (shape : Shape)
    (hop : op.isOperator = true) (hvector : op.vectorial = false) (hshape : shape.width ≤ 1)
    (hchildren : ∀ c ∈ op.children, Usable live g c ∧ (g.lookAt c).Narrow) :
    Brings Tapers live (Build.plain op shape) g fun id g' =>
      Usable live g' id ∧ (g'.lookAt id).Narrow := by
  have hadds : ∀ n, g.Adds op shape n → n.op.isOperator = true ∧ n.shape.width ≤ 1 := by
    intro n hn
    cases hn with
    | raw => exact ⟨hop, hshape⟩
    | resolved =>
      refine ⟨(Operation.isOperator_of_head (Node.resolves_resolved _ _ _).head).trans hop,
        Node.resolved_narrow hop hshape fun s hs => ?_⟩
      obtain ⟨c, hc, rfl⟩ := List.mem_map.mp hs
      exact (hchildren c hc).2
  refine (h.plain op shape (fun c hc => (hchildren c hc).1) fun n hn => ?_).mono ?_
  · have hlooks : ∀ l ∈ n.children.map g.lookAt, l.Narrow := by
      intro l hl
      obtain ⟨c, hc, rfl⟩ := List.mem_map.mp hl
      exact (hchildren c (hn.children c hc)).2
    refine ⟨?_, fun c hcase => ?_, fun _ _ => hlooks, fun _ _ => hlooks⟩
    · rw [n.vectorial_frame, Operation.vectorial_of_head hn.head, hvector]
    have hoperator := (hadds n hn).1
    rw [(n.op_frame_constant c).mp hcase] at hoperator
    cases hoperator
  · rintro id g' - - ⟨husable, n, hn, hid⟩
    refine ⟨husable, ?_⟩
    rw [Graph.lookAt_eq hid]
    exact (hadds n hn).2

/-- A component may be selected. -/
theorem MeetsOn.selection (h : MeetsOn Tapers live g) (c : Component) {source : NodeId}
    (hsource : Usable live g source) :
    Brings Tapers live (Build.swizzle [c] source) g fun id g' =>
      Usable live g' id ∧ (g'.lookAt id).Narrow := by
  have hadds : ∀ n, g.Adds (.swizzle [c] source) .unknown n →
      n.op = .swizzle [c] source ∧ n.shape.width ≤ 1 := by
    intro n hn
    cases hn with
    | raw => exact ⟨rfl, Nat.zero_le 1⟩
    | resolved => exact ⟨rfl, Node.width_of_le_one (Nat.le_refl 1)⟩
  refine (h.plain (.swizzle [c] source) .unknown (fun x hx => List.mem_singleton.mp hx ▸ hsource)
    fun n hn => ?_).mono ?_
  · have hselects : n.frame.selects = true :=
      n.selects_frame.trans (Node.selects_iff.mpr ⟨[c], source, (hadds n hn).1⟩)
    obtain ⟨components, x, hframe⟩ := Node.selects_iff.mp hselects
    refine ⟨by rw [hframe]; rfl, fun value hcase => ?_, fun arguments hcase => ?_,
      fun hnone => absurd (hselects.symm.trans hnone) Bool.noConfusion⟩
    all_goals exact absurd (hframe.symm.trans hcase) (fun heq => nomatch heq)
  · rintro id g' - - ⟨husable, n, hn, hid⟩
    refine ⟨husable, ?_⟩
    rw [Graph.lookAt_eq hid]
    exact (hadds n hn).2

/-- A node without operands may be added, if it has one component. -/
theorem MeetsOn.leaf (h : MeetsOn Tapers live g) {op : Operation} {shape : Shape}
    (hop : op.children = []) (hselects : ∀ n, g.Adds op shape n → n.shape.width ≤ 1 ∧
      ∀ c, n.op = .constant c → n.shape = c.shape ∧ c.bits.length ≤ 1) :
    Brings Tapers live (Build.plain op shape) g fun id g' =>
      Usable live g' id ∧ (g'.lookAt id).Narrow := by
  refine (h.plain op shape (fun c hc => by rw [hop] at hc; cases hc) fun n hn => ?_).mono ?_
  · have hnone : n.children = [] := by
      refine List.eq_nil_iff_forall_not_mem.mpr fun c hc => ?_
      have hmem := hn.children c hc
      rw [hop] at hmem
      cases hmem
    have hlooks : ∀ l ∈ n.children.map g.lookAt, l.Narrow := by
      rw [hnone]
      exact fun _ hl => nomatch hl
    refine ⟨?_, fun c hcase => ?_, fun _ _ => hlooks, fun _ _ => hlooks⟩
    · rw [n.vectorial_frame, Operation.vectorial_of_head hn.head]
      cases op <;> first | rfl | cases hop
    · obtain ⟨hshape, hlength⟩ := (hselects n hn).2 c ((n.op_frame_constant c).mp hcase)
      exact ⟨n.shape_frame ▸ hshape, fun _ => hlength⟩
  · rintro id g' - - ⟨husable, n, hn, hid⟩
    refine ⟨husable, ?_⟩
    rw [Graph.lookAt_eq hid]
    exact (hselects n hn).1

/-- A literal may be added. -/
theorem MeetsOn.literal (h : MeetsOn Tapers live g) (v : Scalar) :
    Brings Tapers live (Build.scalar v) g fun id g' =>
      Usable live g' id ∧ (g'.lookAt id).Narrow := by
  have hwidth : (Constant.ofScalar v).shape.width ≤ 1 := by
    unfold Constant.shape
    split
    · exact Node.width_of_le_one (Nat.le_refl 1)
    · exact Nat.zero_le 1
  refine h.leaf rfl fun n hn => ?_
  have hcase : n.op = .constant (.ofScalar v) ∧ n.shape = (Constant.ofScalar v).shape := by
    cases hn with
    | raw => exact ⟨rfl, rfl⟩
    | resolved => exact ⟨rfl, rfl⟩
  refine ⟨hcase.2 ▸ hwidth, fun c hc => ?_⟩
  rw [hcase.1] at hc
  cases hc
  exact ⟨hcase.2, Nat.le_refl 1⟩

/-- The table of input streams may change. -/
theorem MeetsOn.withInputs {P : Condition} (h : MeetsOn P live g) (inputs : List Channel) :
    MeetsOn P live { g with inputs } := by
  have hkeeping : Keeping live g { g with inputs } :=
    ⟨rfl, rfl, Nat.le_refl _, fun _ _ _ hn => hn⟩
  exact h.keeping hkeeping fun _ _ _ hm => .inl hm

/-- A scalar stream may be read. -/
theorem MeetsOn.read (h : MeetsOn Tapers live g) {channel : Channel}
    (hwidth : channel.format.shape.width ≤ 1) :
    Brings Tapers live (Build.input channel) g fun id g' =>
      Usable live g' id ∧ (g'.lookAt id).Narrow := by
  have hleaf : ∀ inputs, Brings Tapers live (Build.plain (.input channel) channel.format.shape)
      { g with inputs } fun id g' => Usable live g' id ∧ (g'.lookAt id).Narrow := by
    intro inputs
    refine (h.withInputs inputs).leaf rfl fun n hn => ?_
    have hcase : n.op = .input channel ∧ n.shape = channel.format.shape := by
      cases hn with
      | raw => exact ⟨rfl, rfl⟩
      | resolved => exact ⟨rfl, rfl⟩
    refine ⟨hcase.2 ▸ hwidth, fun c hc => ?_⟩
    rw [hcase.1] at hc
    cases hc
  unfold Brings Build.input
  rw [ends_bind, ends_modify]
  split
  · exact hleaf g.inputs
  · refine Ends.mono (hleaf _) ?_
    rintro id g' ⟨hkeeping, hrest⟩
    exact ⟨⟨hkeeping.functions, hkeeping.outputs, hkeeping.size, hkeeping.node⟩, hrest⟩

end

/-- Nodes that fit taper, whatever their calls are like. -/
theorem Node.Fits.tapers {exact : Prop} {functions : List Signature} {n : Node}
    {shapes : List Shape} (h : n.Fits exact functions shapes) (hmixes : n.mixes = false)
    {looks : List Look} (hlooks : looks.map Look.shape = shapes) : Tapers functions n looks := by
  have hmem : ∀ l ∈ looks, l.shape ∈ shapes := fun l hl => hlooks ▸ List.mem_map_of_mem hl
  have hvector := Node.vectorial_of_mixes hmixes
  rcases h with htyped | ⟨-, hheld⟩
  · refine ⟨hvector, fun c hop => ?_, fun arguments hop l hl => ?_, fun hselects hwidth l hl => ?_⟩
    · unfold Node.Typed at htyped
      rw [hop] at htyped
      obtain ⟨-, hvalid, hshape⟩ := htyped
      refine ⟨hshape, fun hwidth => ?_⟩
      rw [hshape, (Constant.shape_eq hvalid).1] at hwidth
      exact hwidth
    · unfold Node.Typed at htyped
      rw [hop] at htyped
      have hshape := hmem l hl
      rw [htyped.2.2] at hshape
      exact Nat.le_of_eq (congrArg Shape.width (List.eq_of_mem_replicate hshape))
    · have hshape := hmem l hl
      by_cases hop : n.op.isOperator = true
      · exact Nat.le_trans (htyped.width_le hop hmixes _ hshape) hwidth
      unfold Node.Typed at htyped
      cases hcase : n.op <;> rw [hcase] at htyped hop
      case unary | binary | ternary | call => exact absurd rfl hop
      case swizzle => exact absurd ((Node.selects_iff.mpr ⟨_, _, hcase⟩).symm.trans hselects) Bool.noConfusion
      case constant | input =>
        rw [htyped.1] at hshape
        cases hshape
      case output =>
        rw [htyped.1] at hshape
        unfold Look.Narrow
        rw [List.mem_singleton.mp hshape]
        exact hwidth
      case construct =>
        rw [htyped.2.2] at hshape
        exact Nat.le_of_eq (congrArg Shape.width (List.eq_of_mem_replicate hshape))
  · have hcall := hheld.isCall
    refine ⟨hvector, fun c hop => ?_, fun arguments hop => ?_, fun _ hwidth l hl =>
      Nat.le_trans (hheld.operands _ (hmem l hl)).2 hwidth⟩
    all_goals
      rw [hop] at hcall
      cases hcall

/-- Once streams are split, the graph tapers. -/
theorem Stage.tapers {tracked simple exact : Prop} {S : Semantics} {G : Agreement} {g : Graph}
    {made : List Delivery} (h : Stage (Scalars.rulesOf tracked simple S G exact).rules g made) :
    g.Obeys Tapers := by
  obtain ⟨w, hs, hwrites⟩ := h
  intro id hid
  obtain ⟨n, hn, hsound⟩ := hs id (hs.live_of_needs (fun _ => hwrites.live) hid)
  obtain ⟨hfits, hform, -⟩ := hsound.fits
  have hmixes : n.frame.mixes = false := by
    have hsplit : (!n.frame.mixes && n.frame.readsScalar) = true := hform
    rw [Bool.and_eq_true, Bool.not_eq_true'] at hsplit
    exact hsplit.1
  exact ⟨n, hn, hfits.tapers hmixes (by rw [List.map_map]; rfl)⟩

/-- Outputs that write scalar streams have one component. -/
theorem Stage.narrow_outputs {tracked simple exact : Prop} {S : Semantics} {G : Agreement}
    {g : Graph} {made : List Delivery}
    (h : Stage (Scalars.rulesOf tracked simple S G exact).rules g made)
    (hcount : ∀ d ∈ made, d.channel.format.count ≤ 1) : ∀ id ∈ g.outputs, (g.lookAt id).Narrow := by
  obtain ⟨w, hs, hwrites⟩ := h
  intro id hid
  obtain ⟨k, hk, rfl⟩ := List.getElem_of_mem hid
  have hk' : k < made.length := hwrites.length_eq ▸ hk
  obtain ⟨hlive, hchannel, -⟩ := hwrites.get hk hk'
  obtain ⟨n, source, hn, hop⟩ := Graph.channelAt_eq_some hchannel
  have htyped := (Node.fits_frame.mp (hs.nodeSound hlive hn).fits.1).typed_of_isCall (hop ▸ rfl)
  unfold Node.Typed at htyped
  rw [hop] at htyped
  obtain ⟨-, hpos, hle, hshape⟩ := htyped
  show (g.shapeAt (g.outputs.get ⟨k, hk⟩)).width ≤ 1
  rw [Graph.shapeAt_eq hn, hshape, (Format.shape_eq hpos hle).1]
  exact hcount _ (List.get_mem _ ⟨k, hk'⟩)

/-! ## Components -/

namespace Scalars

variable {S : Streams} {live : NodeId → Prop} {g : Graph} {id : NodeId} {n : Node}

/-- What is usable and has one component stays so when nodes are added. -/
theorem narrow_keeping {g' : Graph} {x : NodeId} (hkeeping : Keeping (fun _ => True) g g')
    (hx : Usable live g x ∧ (g.lookAt x).Narrow) : Usable live g' x ∧ (g'.lookAt x).Narrow :=
  ⟨hx.1.keeping hkeeping, (hkeeping.lookAt trivial hx.1.lt).symm ▸ hx.2⟩

/-- An operator with one operand is applied to a component of it. -/
theorem unary_brings (h : MeetsOn Tapers live g) (c : Component) (kind : Kind) {op : UnaryOp}
    {x : NodeId} (hx : Usable live g x) (hvector : (Operation.unary op x).vectorial = false) :
    Brings Tapers live (do
      let x ← Build.swizzle [c] x
      if op = .convert then Build.convert x kind else Build.unary op x) g fun new g' =>
      Usable live g' new ∧ (g'.lookAt new).Narrow := by
  refine (h.selection c hx).bind fun y g₁ _ h₁ hy => ?_
  have hoperand : ∀ z ∈ [y], Usable live g₁ z ∧ (g₁.lookAt z).Narrow :=
    fun z hz => List.mem_singleton.mp hz ▸ hy
  split
  · exact h₁.operator (.unary .convert y) _ rfl rfl (Node.width_of_le_one (Nat.le_refl 1)) hoperand
  · have hvector' : (Operation.unary op y).vectorial = (Operation.unary op x).vectorial :=
      Operation.vectorial_of_head rfl
    exact h₁.operator (.unary op y) .unknown rfl (hvector'.trans hvector) (Nat.zero_le 1) hoperand

/-- An operator with two operands is applied to a component of each. -/
theorem binary_brings (h : MeetsOn Tapers live g) (c : Component) {op : BinaryOp} {x y : NodeId}
    (hx : Usable live g x) (hy : Usable live g y)
    (hvector : (Operation.binary op x y).vectorial = false) :
    Brings Tapers live (do
      let x ← Build.swizzle [c] x
      let y ← Build.swizzle [c] y
      Build.binary op x y) g fun new g' => Usable live g' new ∧ (g'.lookAt new).Narrow := by
  refine (h.selection c hx).bind fun l g₁ k₁ h₁ hl => ?_
  refine (h₁.selection c (hy.keeping k₁)).bind fun r g₂ k₂ h₂ hr => ?_
  have hvector' : (Operation.binary op l r).vectorial = (Operation.binary op x y).vectorial :=
    Operation.vectorial_of_head rfl
  refine h₂.operator (.binary op l r) .unknown rfl (hvector'.trans hvector) (Nat.zero_le 1)
    fun z hz => ?_
  rcases List.mem_pair.mp hz with rfl | rfl
  · exact narrow_keeping k₂ hl
  · exact hr

/-- An operator with three operands is applied to a component of each. -/
theorem ternary_brings (h : MeetsOn Tapers live g) (c : Component) {op : TernaryOp}
    {x y z : NodeId} (hx : Usable live g x) (hy : Usable live g y) (hz : Usable live g z) :
    Brings Tapers live (do
      let x ← Build.swizzle [c] x
      let y ← Build.swizzle [c] y
      let z ← Build.swizzle [c] z
      Build.ternary op x y z) g fun new g' => Usable live g' new ∧ (g'.lookAt new).Narrow := by
  refine (h.selection c hx).bind fun a g₁ k₁ h₁ ha => ?_
  refine (h₁.selection c (hy.keeping k₁)).bind fun b g₂ k₂ h₂ hb => ?_
  refine (h₂.selection c (hz.keeping (k₁.trans k₂))).bind fun d g₃ k₃ h₃ hd => ?_
  refine h₃.operator (.ternary op a b d) .unknown rfl rfl (Nat.zero_le 1) fun x hx => ?_
  simp only [Operation.children, List.mem_cons, List.not_mem_nil, or_false] at hx
  rcases hx with rfl | rfl | rfl
  · exact narrow_keeping (k₂.trans k₃) ha
  · exact narrow_keeping k₃ hb
  · exact hd

/-- What stands for a component has one component. -/
theorem extract_brings {depth : Nat} (h : MeetsOn Tapers live g) (hid : Usable live g id)
    (c : Component) : Brings Tapers live (extract depth id c) g fun new g' =>
      Usable live g' new ∧ (g'.lookAt new).Narrow := by
  induction depth generalizing g id c with
  | zero => exact trivial
  | succ depth ih =>
    obtain ⟨n, hn⟩ := Graph.exists_node hid.lt
    have hmeets := h.meets id n hid.live hn
    have hready : ∀ {op : Operation}, n.op = op → ∀ x ∈ op.children, Usable live g x := by
      rintro op rfl
      exact h.ready id n hid.live hn
    have hvector : ∀ {op : Operation}, n.op = op → op.vectorial = false := by
      rintro op rfl
      exact n.vectorial_frame ▸ hmeets.unmixed
    rw [extract]
    refine .node hn ?_
    split
    · rename_i hscalar
      refine .pure h ⟨hid, ?_⟩
      rw [Graph.lookAt_eq hn]
      exact Nat.le_of_eq (of_decide_eq_true hscalar.1)
    · dsimp only
      split
      · split
        · exact h.literal _
        · exact trivial
      · rename_i components source hop
        split
        · exact ih h (hready hop source (List.mem_singleton_self _)) _
        · exact trivial
      · split
        · exact trivial
        · refine h.read ?_
          rw [component_shape]
      · rename_i arguments hop
        split
        · rename_i argument hargument
          have hmem := List.mem_of_getElem? hargument
          have hframe : n.frame.op = .construct (arguments.map fun _ => 0) := by
            unfold Node.frame
            rw [hop]
            rfl
          exact .pure h ⟨hready hop argument hmem, hmeets.construct _ hframe _
            (List.mem_map_of_mem ((Node.mem_children hop).mpr hmem))⟩
        · exact trivial
      · rename_i op operand hop
        exact unary_brings h c _ (hready hop operand (by simp [Operation.children])) (hvector hop)
      · rename_i op left right hop
        exact binary_brings h c (hready hop left (by simp [Operation.children]))
          (hready hop right (by simp [Operation.children])) (hvector hop)
      · rename_i op first second third hop
        exact ternary_brings h c (hready hop first (by simp [Operation.children]))
          (hready hop second (by simp [Operation.children]))
          (hready hop third (by simp [Operation.children]))
      · rename_i candidates arguments hop
        split
        · rename_i chosen _
          refine (Brings.mapM Look.Narrow arguments h fun x hx g' hkeeping h' =>
            h'.selection c ((hready hop x hx).keeping hkeeping)).bind fun ids g₁ _ h₁ hids => ?_
          exact h₁.operator (.call [chosen] ids) .unknown rfl rfl (Nat.zero_le 1) hids
        · exact trivial
      · exact trivial

/-- Selected components are replaced by scalars, and no selection stays. -/
theorem steadies : Steadies S Tapers (fun l l' => l.Narrow → l'.Narrow) (fun n => n.selects = false)
    splitSwizzle where
  descends := descends
  bears := Tapers.bears
  refl _ h := h
  trans _ _ _ h h' hl := h' (h hl)
  eases := by
    intro live g id n horderly h hid hn
    by_cases hselects : n.selects = true
    · obtain ⟨components, source, hop⟩ := Node.selects_iff.mp hselects
      obtain ⟨rank, hordered⟩ := horderly
      have hsource := h.ready id n hid hn source
        ((Node.mem_children hop).mpr (List.mem_singleton_self source))
      have hbrings : Brings Tapers live (splitSwizzle id) g fun new g' =>
          Usable live g' new ∧ (g'.lookAt new).Narrow := by
        unfold splitSwizzle
        refine .node hn ?_
        rw [hop]
        split
        · rename_i heq
          cases heq
          exact extract_brings h hsource _
        · exact trivial
        · rename_i hnone
          exact absurd rfl (hnone components source)
      refine Ends.mono ((selection_moves hordered hn hop).and_ends hbrings) ?_
      rintro new g' ⟨⟨rank', -, -, hmoves⟩, hkeeping, h', husable, hnarrow⟩
      exact ⟨hkeeping, h', husable, fun _ => hnarrow, fun hsame => absurd hsame hmoves⟩
    · have hstay : Brings Tapers live (pure id) g fun new g' => Usable live g' new ∧
          ((g.lookAt id).Narrow → (g'.lookAt new).Narrow) ∧ (new = id → n.frame.selects = false) :=
        .pure h ⟨⟨hid, Graph.lt_size hn⟩, fun h => h,
          fun _ => by rwa [n.selects_frame, ← Bool.not_eq_true]⟩
      unfold splitSwizzle
      refine .node hn ?_
      split
      · rename_i hop
        exact absurd (Node.selects_iff.mpr ⟨_, _, hop⟩) hselects
      · rename_i hop
        exact absurd (Node.selects_iff.mpr ⟨_, _, hop⟩) hselects
      · exact hstay

/-- After the pass the outputs depend on literals of one component only, if they are
scalars themselves. -/
theorem swizzlePass_slims (h : Orderly S g) (hg : g.Obeys Tapers)
    (houtputs : ∀ id ∈ g.outputs, (g.lookAt id).Narrow) :
    Ends swizzlePass.run g (fun _ g' => g'.Obeys Slim) fun _ => True := by
  refine (Pass.downward_obeys rfl steadies h hg).mono ?_
  rintro _ g' ⟨hg', hlooks⟩
  have hscalars : ∀ id ∈ g'.outputs, (g'.lookAt id).Narrow := by
    intro id hid
    obtain ⟨k, hk, rfl⟩ := List.getElem_of_mem hid
    have hk' : k < g.outputs.length := hlooks.length_eq ▸ hk
    exact hlooks.get hk' hk (houtputs _ (List.getElem_mem hk'))
  have hnarrow : ∀ id, g'.Needs id → (g'.lookAt id).Narrow := by
    rintro id ⟨output, houtput, hreach⟩
    induction hreach with
    | refl => exact hscalars output houtput
    | tail hpath huses ih =>
      obtain ⟨n, hn, hc⟩ := huses
      obtain ⟨m, hm, hmeets, hselects⟩ := hg' _ ⟨output, houtput, hpath⟩
      rw [hn] at hm
      cases hm
      rw [Graph.lookAt_eq hn] at ih
      exact hmeets.operands hselects ih _ (List.mem_map_of_mem hc)
  intro id hid
  obtain ⟨n, hn, hmeets, hsettled⟩ := hg' id hid
  have hwidth := hnarrow id hid
  rw [Graph.lookAt_eq hn] at hwidth
  exact ⟨n, hn, hmeets.unmixed, hsettled, fun c hop => ⟨(hmeets.constant c hop).1,
    (hmeets.constant c hop).2 hwidth⟩⟩

end Scalars

end LaneGraph
