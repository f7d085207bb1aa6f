import LaneGraph.Proofs.Consistency
import LaneGraph.Proofs.Sharing
import LaneGraph.Proofs.Slimming

/-!
# What folding leaves over

Folding goes up a graph and applies its rules to every node. So when it is done there is no
node to which a rule applies: an operator has literals for all operands only if it has no
value on them, and a literal stays on the left only where it has no business to be. What
types nodes have does not matter to this, and it outlasts the sharing of nodes. In the end
the final check rules out that an operator has no value on its literals, for these are of
the kinds that the operator asks for.
-/

namespace LaneGraph

open Build

/-- An operation has nothing left to fold, given which of its operands are literals. -/
def Operation.folded (op : Operation) (literals : List Bool) : Bool :=
  let literal (index : Nat) := literals.getD index false
  match op with
  | unary _ _ => !literal 0
  | binary op _ _ => !literal 0 || (!literal 1 && !op.turns)
  | ternary op _ _ _ =>
    if op = .select then !literal 0 else !(literal 0 && literal 1 && literal 2)
  | _ => true

namespace Graph

variable {g : Graph} {n : Node}

/-- The node at a position is a literal. -/
def isLiteral (g : Graph) (id : NodeId) : Bool := ((g.node? id).bind Node.constant?).isSome

/-- The node at a position is a literal if it is one. -/
theorem isLiteral_eq {id : NodeId} (h : g.node? id = some n) :
    g.isLiteral id = n.constant?.isSome := by
  unfold isLiteral
  rw [h]
  rfl

/-- A node has nothing left to fold. -/
def folded (g : Graph) (n : Node) : Bool := n.op.folded (n.children.map g.isLiteral)

/-- Everything that the outputs depend on is folded. -/
def FullyFolded (g : Graph) : Prop :=
  ∀ (id : NodeId) (n : Node), g.Needs id → g.node? id = some n → g.folded n = true

end Graph

/-- No rule of folding applies to an operation of a kind, given the literals that its
operands are. -/
def Operation.Spent (op : Operation) (kind : Kind) (literals : List (Option Scalar)) : Prop :=
  match op with
  | .unary op _ => ∀ v, literals = [some v] → op.eval? kind v = none
  | .binary op _ _ => ∀ a y, literals = [some a, y] →
    match y with
    | some b => op.eval? a b = none
    | none => Folding.leftFold a op = .keep
  | .ternary op _ _ _ => ∀ a b c, literals = [a, b, c] →
    if op = .select then ∀ v, a ≠ some (.bool v)
    else ∀ x y z, a = some x → b = some y → c = some z → op.eval? x y z = none
  | _ => True

/-- Literals have at most one component, and no rule of folding applies. -/
structure Done (functions : List Signature) (n : Node) (looks : List Look) : Prop where
  slim : Slim functions n looks
  spent : n.op.Spent n.shape.kind (looks.map Look.scalar?)

namespace Graph

variable {g : Graph} {id : NodeId} {n : Node}

/-- Whether rules of folding apply does not depend on where operands are. -/
theorem meets_done : g.Meets Done n ↔ g.Meets Slim n ∧
    n.op.Spent n.shape.kind (n.children.map fun c => (g.lookAt c).scalar?) := by
  have hspent : n.frame.op.Spent n.shape.kind = n.op.Spent n.shape.kind := by
    unfold Node.frame
    cases n.op <;> rfl
  have hlooks : (n.children.map g.lookAt).map Look.scalar? =
      n.children.map fun c => (g.lookAt c).scalar? := List.map_map
  constructor
  · rintro ⟨hs, hop⟩
    refine ⟨⟨hs.unmixed, hs.settled, hs.constant⟩, ?_⟩
    rwa [Node.shape_frame, hspent, hlooks] at hop
  · rintro ⟨hs, hop⟩
    refine ⟨⟨hs.unmixed, hs.settled, hs.constant⟩, ?_⟩
    rwa [Node.shape_frame, hspent, hlooks]

end Graph

/-! ## Folding -/

section

variable {live : NodeId → Prop} {g : Graph}

/-- A literal may be added. -/
theorem MeetsOn.doneLiteral (h : MeetsOn Done live g) (v : Scalar) :
    Brings Done live (Build.scalar v) g fun id g' => Usable live g' id := by
  refine (h.plain (.constant (.ofScalar v)) _ (fun c hc => nomatch hc) fun n hn => ?_).mono
    fun id g' _ _ hid => hid.1
  refine Graph.meets_done.mpr ⟨hn.slim_literal, ?_⟩
  rw [hn.op_eq rfl]
  exact trivial

/-- An operator may be applied if its first operand is no literal. -/
theorem MeetsOn.doneBinary (h : MeetsOn Done live g) {op : BinaryOp} {l r : NodeId}
    (hvector : (Operation.binary op l r).vectorial = false) (hl : Usable live g l)
    (hr : Usable live g r) (hliteral : (g.lookAt l).scalar? = none) :
    Brings Done live (Build.binary op l r) g fun id g' =>
      Usable live g' id ∧ (g'.lookAt id).scalar? = none := by
  refine (h.plain (.binary op l r) .unknown ?_ fun n hn => ?_).mono ?_
  · intro c hc
    rcases List.mem_pair.mp hc with rfl | rfl
    · exact hl
    · exact hr
  · have hop := hn.op_eq rfl
    have hchildren : n.children = [l, r] := congrArg Operation.children hop
    refine Graph.meets_done.mpr ⟨hn.slim_operator rfl hvector, ?_⟩
    rw [hop, hchildren, List.map_cons, hliteral]
    rintro a y hcase
    cases hcase
  · rintro id g' - - ⟨husable, n, hn, hid⟩
    refine ⟨husable, ?_⟩
    rw [Graph.scalar?_lookAt hid]
    unfold Node.scalar? Node.constant?
    rw [hn.op_eq rfl]
    rfl

end

namespace Folding

variable {live : NodeId → Prop} {g : Graph} {id left right : NodeId} {n : Node}

/-- A quotient by a power of two is brought in, if the dividend is no literal. -/
theorem divideByPowerOfTwo_brings (h : MeetsOn Done live g) {x : NodeId} (hx : Usable live g x)
    (hliteral : (g.lookAt x).scalar? = none) (shift : Nat) :
    Brings Done live (divideByPowerOfTwo x shift) g fun new g' => Usable live g' new := by
  have hlater : ∀ {g' : Graph}, Keeping (fun _ => True) g g' →
      Usable live g' x ∧ (g'.lookAt x).scalar? = none := fun hkeeping =>
    ⟨hx.keeping hkeeping, by rw [hkeeping.lookAt trivial hx.lt, hliteral]⟩
  unfold divideByPowerOfTwo
  refine (h.doneLiteral _).bind fun signShift g₁ k₁ h₁ hsignShift => ?_
  refine (h₁.doneBinary rfl (hlater k₁).1 hsignShift (hlater k₁).2).bind
    fun sign g₂ k₂ h₂ hsign => ?_
  refine (h₂.doneLiteral _).bind fun mask g₃ k₃ h₃ hmask => ?_
  have hsign' : (g₃.lookAt sign).scalar? = none := by
    rw [k₃.lookAt trivial hsign.1.lt, hsign.2]
  refine (h₃.doneBinary rfl (hsign.1.keeping k₃) hmask hsign').bind
    fun bias g₄ k₄ h₄ hbias => ?_
  have k := ((k₁.trans k₂).trans k₃).trans k₄
  refine (h₄.doneBinary rfl (hlater k).1 hbias.1 (hlater k).2).bind fun biased g₅ k₅ h₅ hbiased => ?_
  refine (h₅.doneLiteral _).bind fun count g₆ k₆ h₆ hcount => ?_
  have hbiased' : (g₆.lookAt biased).scalar? = none := by
    rw [k₆.lookAt trivial hbiased.1.lt, hbiased.2]
  exact (h₆.doneBinary rfl (hbiased.1.keeping k₆) hcount hbiased').mono
    fun _ _ _ _ hnew => hnew.1

/-- With a literal on the right, a node stays, or what takes its place is brought in. -/
theorem foldRight_brings (h : MeetsOn Done live g) (op : BinaryOp) (hl : Usable live g left)
    (hr : Usable live g right) (hliteral : (g.lookAt left).scalar? = none) (c : Scalar) :
    Brings Done live (foldRight id op left right c) g fun new g' =>
      new = id ∨ Usable live g' new := by
  have hid : Brings Done live (pure id) g fun new g' => new = id ∨ Usable live g' new :=
    .pure h (.inl rfl)
  have hleft : Brings Done live (pure left) g fun new g' => new = id ∨ Usable live g' new :=
    .pure h (.inr hl)
  have hright : Brings Done live (pure right) g fun new g' => new = id ∨ Usable live g' new :=
    .pure h (.inr hr)
  unfold foldRight
  split <;> (try split) <;> (try split) <;> try assumption
  · exact (divideByPowerOfTwo_brings h hl hliteral _).mono fun _ _ _ _ hnew => .inr hnew
  · refine (h.doneLiteral _).bind fun factor g₁ k₁ h₁ hfactor => ?_
    refine (h₁.doneBinary rfl (hl.keeping k₁) hfactor ?_).mono fun _ _ _ _ hnew => .inr hnew.1
    rw [k₁.lookAt trivial hl.lt, hliteral]

/-- With a literal on the left alone, a node that does not stay is replaced by what is brought
in. -/
theorem foldLeft_brings (h : MeetsOn Done live g) (op : BinaryOp) (hl : Usable live g left)
    (hr : Usable live g right) (hliteral : (g.lookAt right).scalar? = none) {c : Scalar}
    (hkeep : leftFold c op ≠ .keep) :
    Brings Done live (foldLeft id op c left right) g fun new g' => Usable live g' new := by
  unfold foldLeft
  split
  · rename_i hcase
    exact absurd hcase hkeep
  · exact .pure h hl
  · exact .pure h hr
  · rename_i swapped hswap
    have hvector : (Operation.binary swapped right left).vectorial = false := by
      have hswaps : ∀ p ∈ swaps, (Operation.binary p.2 right left).vectorial = false := by
        simp [swaps, Operation.vectorial]
      have hmem := leftFold_cases c op
      rw [hswap] at hmem
      exact hswaps _ hmem
    refine (h.doneBinary hvector hr hl hliteral).bind fun turned g₁ k₁ h₁ hturned => ?_
    have hliteral' : (g₁.lookAt right).scalar? = none := by
      rw [k₁.lookAt trivial hr.lt, hliteral]
    refine (foldRight_brings h₁ swapped (hr.keeping k₁) (hl.keeping k₁) hliteral' c).mono ?_
    rintro new g' k' - (rfl | hnew)
    · exact hturned.1.keeping k'
    · exact hnew

/-- A literal in place of a node is brought in. -/
theorem literalOr_brings (h : MeetsOn Done live g) (v : Option Scalar) :
    Brings Done live (literalOr id v) g fun new g' => new = id ∧ v = none ∨ Usable live g' new := by
  cases v with
  | none => exact .pure h (.inl ⟨rfl, rfl⟩)
  | some v => exact (h.doneLiteral v).mono fun _ _ _ _ hnew => .inr hnew

/-- A slim node to whose operation no rule applies is done. -/
theorem meets_of_spent {op : Operation} (hslim : g.Meets Slim n) (hop : n.op = op)
    (hspent : op.Spent n.shape.kind (op.children.map fun c => (g.lookAt c).scalar?)) :
    g.Meets Done n := by
  subst hop
  exact Graph.meets_done.mpr ⟨hslim, hspent⟩

/-- What folding leads to: the node stays and no rule applies to it, or what takes its place is
brought in. -/
def Leaves (live : NodeId → Prop) (g : Graph) (id : NodeId) (n : Node) (new : NodeId)
    (g' : Graph) : Prop :=
  new = id ∧ g.Meets Done n ∨ Usable live g' new

/-- A node to which no rule applies may stay. -/
theorem stays_brings (h : MeetsOn Done live g) (hdone : g.Meets Done n) :
    Brings Done live (pure id) g (Leaves live g id n) :=
  .pure h (.inl ⟨rfl, hdone⟩)

/-- A literal takes the place of a node, or there is none and the node stays. -/
theorem literalOr_leaves (h : MeetsOn Done live g) {v : Option Scalar}
    (hdone : v = none → g.Meets Done n) :
    Brings Done live (literalOr id v) g (Leaves live g id n) :=
  (literalOr_brings h v).mono fun _ _ _ _ hnew =>
    hnew.imp_left fun hsame => ⟨hsame.1, hdone hsame.2⟩

/-- An operator with one operand is folded, or no rule applies to it. -/
theorem unary_brings {op : UnaryOp} {x : NodeId} (h : MeetsOn Done live g)
    (hslim : g.Meets Slim n) (hop : n.op = .unary op x) (hx : Usable live g x) :
    Brings Done live (do literalOr id ((← scalarAt? x).bind (op.eval? n.shape.kind))) g
      (Leaves live g id n) := by
  refine brings_scalarAt hx.lt (literalOr_leaves h fun hnone => meets_of_spent hslim hop ?_)
  intro v hv
  have hliteral : (g.lookAt x).scalar? = some v := (List.cons.inj hv).1
  rwa [hliteral] at hnone

/-- An operator with two operands is folded, or no rule applies to it. -/
theorem binary_brings {op : BinaryOp} (h : MeetsOn Done live g) (hslim : g.Meets Slim n)
    (hop : n.op = .binary op left right) (hleft : Usable live g left)
    (hright : Usable live g right) :
    Brings Done live (do
      match ← scalarAt? left, ← scalarAt? right with
      | some a, some b => literalOr id (op.eval? a b)
      | some a, none => foldLeft id op a left right
      | none, some b => foldRight id op left right b
      | none, none => return id) g (Leaves live g id n) := by
  have hspent : (∀ a, (g.lookAt left).scalar? = some a → match (g.lookAt right).scalar? with
      | some b => op.eval? a b = none
      | none => leftFold a op = .keep) → g.Meets Done n := by
    refine fun hcases => meets_of_spent hslim hop fun a y hay => ?_
    obtain ⟨ha, hy⟩ := List.cons.inj hay
    obtain rfl := (List.cons.inj hy).1
    exact hcases a ha
  refine brings_scalarAt hleft.lt (brings_scalarAt hright.lt ?_)
  cases ha : (g.lookAt left).scalar? with
  | none =>
    have hdone : g.Meets Done n := hspent fun a ha' => nomatch ha.symm.trans ha'
    cases hb : (g.lookAt right).scalar? with
    | none => exact stays_brings h hdone
    | some b =>
      exact (foldRight_brings h op hleft hright ha b).mono fun _ _ _ _ hnew =>
        hnew.imp_left fun hsame => ⟨hsame, hdone⟩
  | some a =>
    rw [ha] at hspent
    cases hb : (g.lookAt right).scalar? with
    | none =>
      rw [hb] at hspent
      by_cases hkeep : leftFold a op = .keep
      · dsimp only
        unfold foldLeft
        rw [hkeep]
        refine stays_brings h (hspent fun a' ha' => ?_)
        cases ha'
        exact hkeep
      · exact (foldLeft_brings h op hleft hright hb hkeep).mono fun _ _ _ _ hnew => .inr hnew
    | some b =>
      rw [hb] at hspent
      refine literalOr_leaves h fun hnone => hspent fun a' ha' => ?_
      cases ha'
      exact hnone

/-- An operator with three operands is folded, or no rule applies to it. -/
theorem ternary_brings {op : TernaryOp} {a b c : NodeId} (h : MeetsOn Done live g)
    (hslim : g.Meets Slim n) (hop : n.op = .ternary op a b c) (ha : Usable live g a)
    (hb : Usable live g b) (hc : Usable live g c) :
    Brings Done live (do
      let x ← scalarAt? a
      let y ← scalarAt? b
      let z ← scalarAt? c
      if op = .select then
        match x with
        | some (.bool true) => return b
        | some (.bool false) => return c
        | _ => return id
      else
        match x, y, z with
        | some x, some y, some z => literalOr id (op.eval? x y z)
        | _, _, _ => return id) g (Leaves live g id n) := by
  have hspent : (if op = .select then ∀ v, (g.lookAt a).scalar? ≠ some (.bool v) else
      ∀ x y z, (g.lookAt a).scalar? = some x → (g.lookAt b).scalar? = some y →
        (g.lookAt c).scalar? = some z → op.eval? x y z = none) → g.Meets Done n := by
    refine fun hcases => meets_of_spent hslim hop fun x y z hxyz => ?_
    obtain ⟨rfl, hyz⟩ := List.cons.inj hxyz
    obtain ⟨rfl, hz⟩ := List.cons.inj hyz
    obtain ⟨rfl, -⟩ := List.cons.inj hz
    exact hcases
  refine brings_scalarAt ha.lt (brings_scalarAt hb.lt (brings_scalarAt hc.lt ?_))
  by_cases hselect : op = .select
  · rw [if_pos hselect] at hspent ⊢
    split
    · exact .pure h (.inr hb)
    · exact .pure h (.inr hc)
    · rename_i htrue hfalse
      refine stays_brings h (hspent fun v hv => ?_)
      cases v with
      | true => exact htrue hv
      | false => exact hfalse hv
  · rw [if_neg hselect] at hspent ⊢
    split
    · rename_i x y z hx hy hz
      refine literalOr_leaves h fun hnone => hspent fun x' y' z' hx' hy' hz' => ?_
      cases hx.symm.trans hx'
      cases hy.symm.trans hy'
      cases hz.symm.trans hz'
      exact hnone
    · rename_i hnone
      exact stays_brings h (hspent fun x y z hx hy hz => (hnone x y z hx hy hz).elim)

/-- What folding puts in the place of a node is brought in, or no rule applies to the node and
it stays. -/
theorem replace_brings (h : MeetsOn Done live g) (hn : g.node? id = some n)
    (hslim : g.Meets Slim n) (hready : ∀ c ∈ n.children, Usable live g c) :
    Brings Done live (replace id) g (Leaves live g id n) := by
  have hmem : ∀ {op}, n.op = op → ∀ c ∈ op.children, Usable live g c := by
    rintro op rfl
    exact hready
  unfold replace
  refine .node hn ?_
  cases hop : n.op with
  | unary op x => exact unary_brings h hslim hop (hmem hop x (by simp [Operation.children]))
  | binary op left right =>
    exact binary_brings h hslim hop (hmem hop left (by simp [Operation.children]))
      (hmem hop right (by simp [Operation.children]))
  | ternary op a b c =>
    exact ternary_brings h hslim hop (hmem hop a (by simp [Operation.children]))
      (hmem hop b (by simp [Operation.children])) (hmem hop c (by simp [Operation.children]))
  | _ => exact stays_brings h (meets_of_spent hslim hop trivial)

/-- After folding no rule applies to anything that the outputs depend on. -/
theorem pass_done {S : Streams} (h : Orderly S g) (hg : g.Obeys Slim) :
    Ends pass.run g (fun _ g' => g'.Obeys Done) fun _ => True := by
  have hlifts : Lifts Slim Done (fun _ _ => True) replace := fun live g id n hs _ hn _ hready hslim =>
    Supplants.of_brings (replace_brings hs hn hslim hready) hn hready
  have hbears : Condition.Bears Slim fun _ _ => True := fun _ _ _ _ _ hslim =>
    ⟨hslim.unmixed, hslim.settled, hslim.constant⟩
  exact (pass.upward_obeys rfl hlifts (fun _ _ _ _ _ => trivial) hbears trivial h hg).mono
    fun _ _ hends => hends.1

end Folding

/-! ## Sharing -/

namespace Sharing

variable {live : NodeId → Prop} {g : Graph} {id : NodeId} {n : Node}

/-- Nodes that are the same are the same literal, if they are one. -/
theorem constantAt_of_same {x : NodeId} (hn : g.node? id = some n) (h : g.same x id = .ok true) :
    g.constantAt x = n.constant? := by
  unfold Graph.constantAt
  unfold Graph.same Graph.node at h
  split at h
  · rename_i heq
    rw [heq, hn]
    rfl
  · cases hm : g.node? x with
    | none =>
      rw [hm] at h
      cases h
    | some m =>
      rw [hm, hn] at h
      have hsame : Graph.sameNode m n = true := Except.ok.inj h
      rw [Option.bind_some]
      unfold Node.constant?
      rcases (Graph.sameNode_iff.mp hsame).2 with ⟨hop, -⟩ | ⟨op, l, r, -, hmop, hnop⟩
      · rw [hop]
      · rw [hmop, hnop]

/-- What a search finds is a representative, and the literal that the node is, if it is one. -/
theorem representative_any (hn : g.node? id = some n) (print : UInt64)
    (reps : List (UInt64 × NodeId)) :
    Ends (representative? print id reps) g (fun found g' => g' = g ∧ ∀ x, found = some x →
      (∃ p ∈ reps, p.2 = x) ∧ g.constantAt x = n.constant?) fun _ => True := by
  induction reps with
  | nil => exact ⟨rfl, fun _ h => nomatch h⟩
  | cons p rest ih =>
    obtain ⟨other, candidate⟩ := p
    have hrest : Ends (representative? print id rest) g (fun found g' => g' = g ∧
        ∀ x, found = some x → (∃ p ∈ (other, candidate) :: rest, p.2 = x) ∧
          g.constantAt x = n.constant?) fun _ => True := by
      refine ih.mono fun found g' ⟨hg, hfound⟩ => ⟨hg, fun x hx => ?_⟩
      obtain ⟨⟨p, hp, hpx⟩, hliteral⟩ := hfound x hx
      exact ⟨⟨p, List.mem_cons_of_mem _ hp, hpx⟩, hliteral⟩
    unfold representative?
    split
    · rw [ends_bind, ends_ask_any]
      intro same hsame
      split
      · rename_i htrue
        rw [htrue] at hsame
        refine ⟨rfl, fun x hx => ?_⟩
        cases hx
        exact ⟨⟨_, List.mem_cons_self, rfl⟩, constantAt_of_same hn hsame⟩
      · exact hrest
    · exact hrest

/-- The representatives belong to the set. -/
def Represents (live : NodeId → Prop) (g : Graph) : Prop :=
  ∀ p ∈ g.representatives, Usable live g p.2

/-- Sharing puts a node of the set in the place of a node, which is the same literal if the
node is one. -/
theorem share_lifts : Lifts Done Done (fun l l' => l'.literal = l.literal) share Represents := by
  intro live g id n h hreps hn hdead hready hmeets
  unfold share refreshFingerprint
  rw [ends_bind, ends_bind, ends_node hn, ends_bind, ends_ask_any]
  intro print _
  let n₁ : Node := { n with fingerprint := print }
  let g₁ := g.setNode id n₁
  have hn₁ : g₁.node? id = some n₁ := Graph.node?_setNode_self n₁ hn
  have hset : Keeping (· ≠ id) g g₁ := .setNode g id n₁
  have h₁ : MeetsOn Done live g₁ := h.setNode hdead n₁
  have husable : ∀ {x}, Usable live g x → Usable live g₁ x := fun hx => hx.keeping hset
  have hreps₁ : Represents live g₁ := fun p hp => husable (hreps p hp)
  have hlook : g.lookAt id = ⟨id, n.shape, n.constant?⟩ := Graph.lookAt_eq hn
  rw [ends_bind, ends_modifyNode hn, ends_pure, ends_bind, ends_get, ends_bind]
  refine (representative_any hn₁ print g₁.representatives).mono ?_
  rintro (_ | x) g' ⟨rfl, hfound⟩
  · rw [ends_bind, ends_modify, ends_pure]
    let g₂ : Graph := { g₁ with representatives := g₁.representatives ++ [(print, id)] }
    have hsame : ∀ kept, Keeping kept g₁ g₂ :=
      fun _ => ⟨rfl, rfl, Nat.le_refl _, fun _ _ _ hm => hm⟩
    have h₂ : MeetsOn Done live g₂ := h₁.keeping (hsame live) fun _ _ _ hm => .inl hm
    have hmeets₂ : g₂.Meets Done n₁ :=
      MeetsOn.meets_keeping (hset.trans (hsame _))
        (fun c hc => ⟨fun heq => hdead (heq ▸ (hready c hc).live), (hready c hc).lt⟩) hmeets
    have hready₂ : ∀ c ∈ n₁.children, Usable live g₂ c :=
      fun c hc => (husable (hready c hc)).keeping (hsame live)
    refine ⟨hset.trans (hsame _), ⟨_, fun _ hx => .inr hx, fun _ hx => hx,
      h₂.join hn₁ hmeets₂ hready₂, fun p hp => ?_, .inl rfl, Graph.lt_size hn₁⟩, ?_⟩
    · rcases List.mem_append.mp hp with hp | hp
      · exact ⟨.inr (hreps₁ p hp).live, (hreps₁ p hp).lt⟩
      · rw [List.mem_singleton.mp hp]
        exact ⟨.inl rfl, Graph.lt_size hn₁⟩
    · rw [hlook, Graph.lookAt_eq (g := g₂) hn₁]
      rfl
  · obtain ⟨⟨p, hp, rfl⟩, hliteral⟩ := hfound x rfl
    refine ⟨hset, ⟨live, fun _ hx => hx, fun _ hx => .inr hx, h₁, hreps₁, hreps₁ p hp⟩, ?_⟩
    rw [hlook]
    exact hliteral

/-- After sharing no rule of folding applies, if none applied before. -/
theorem pass_done {S : Streams} (hnone : g.representatives = []) (h : Orderly S g)
    (hg : g.Obeys Done) : Ends pass.run g (fun _ g' => g'.Obeys Done) fun _ => True := by
  have hbears : Condition.Bears Done fun l l' => l'.literal = l.literal := by
    intro functions m looks looks' hlooks hdone
    have hsame : looks'.map Look.scalar? = looks.map Look.scalar? := by
      clear hdone
      induction hlooks with
      | nil => rfl
      | cons hfirst _ ih =>
        rw [List.map_cons, List.map_cons, ih]
        unfold Look.scalar?
        rw [hfirst]
    exact ⟨⟨hdone.slim.unmixed, hdone.slim.settled, hdone.slim.constant⟩, hsame ▸ hdone.spent⟩
  have hset : ∀ live g id n, Represents live g → Represents live (g.setNode id n) :=
    fun live g id n hreps p hp => (hreps p hp).keeping (Keeping.setNode g id n)
  have hstart : Represents (g.nodes.size ≤ ·) g := by
    intro p hp
    rw [hnone] at hp
    cases hp
  exact (pass.upward_obeys rfl share_lifts hset hbears hstart h hg).mono fun _ _ hends => hends.1

end Sharing

/-! ## The final check -/

namespace Consistency

variable {g : Graph} {n : Node}

/-- A literal of one component that passes the final check has its kind. -/
theorem scalar?_of_check (hslim : g.Meets Slim n) (h : checkNode g n = .ok ()) {v : Constant}
    (hv : n.constant? = some v) : ∃ s, n.scalar? = some s ∧ s.kind = n.shape.kind := by
  have hop : n.op = .constant v := by
    unfold Node.constant? at hv
    split at hv <;> cases hv
    assumption
  have hvalid := (known_of_checkNode h).2.2 v hop
  obtain ⟨hshape, hlength⟩ := (Graph.meets_slim.mp hslim).2.2 v hop
  obtain ⟨hform, hsized⟩ := Constant.shape_eq hvalid
  rw [hform] at hsized hshape
  obtain ⟨b, hb⟩ := List.length_eq_one_iff.mp (Nat.le_antisymm hlength hsized.pos)
  obtain ⟨s, hs, hkind⟩ := Scalar.ofBits?_total hsized.known b
  refine ⟨s, ?_, by rw [hkind, hshape]⟩
  unfold Node.scalar? Constant.scalar?
  rw [hv, Option.bind_some, hb]
  exact hs

end Consistency

/-- The literals among the operands are of the kinds that the type asks for. -/
def OperatorType.Takes (t : OperatorType) (literals : List (Option Scalar)) : Prop :=
  ∀ (i : Nat) (v : Scalar), literals[i]? = some (some v) → t.operands[i]? = some v.kind

/-- An operator has a value on a literal that it takes, unless it is for vectors. -/
theorem UnaryOp.exists_value {op : UnaryOp} {x : NodeId}
    (hunmixed : (Operation.unary op x).vectorial = false) {kind : Kind} (hkind : kind ≠ .unknown)
    {v : Scalar} (htypes : op.types ≠ [] → ∃ t ∈ op.types, t.Takes [some v]) :
    ∃ r, op.eval? kind v = some r := by
  by_cases hconvert : op = .convert
  · subst hconvert
    obtain ⟨r, hr, -⟩ := v.convert?_total hkind
    exact ⟨r, hr⟩
  · have hne : op.types ≠ [] := by
      cases op <;> first | exact absurd rfl hconvert | exact List.cons_ne_nil _ _
    have hop : op ≠ .length ∧ op ≠ .normalize := by
      constructor <;> rintro rfl <;> cases hunmixed
    obtain ⟨t, ht, htakes⟩ := htypes hne
    obtain ⟨k, hk⟩ := List.length_eq_one_iff.mp (op.typeTable.arity t ht)
    have hfirst := htakes 0 v rfl
    rw [hk] at hfirst
    obtain rfl : k = v.kind := Option.some.inj hfirst
    obtain ⟨r, hr, -⟩ := UnaryOp.eval?_total ht hk hop kind
    exact ⟨r, hr⟩

namespace BinaryOp

variable {op : BinaryOp} {t : OperatorType} {a b : Scalar}

/-- The first operand is of the kind that the type asks for first. -/
theorem operands_of_takes (ht : t ∈ op.types) {y : Option Scalar} (h : t.Takes [some a, y]) :
    ∃ kind, t.operands = [a.kind, kind] := by
  obtain ⟨k, k', hk⟩ := List.length_eq_two.mp (op.typeTable.arity t ht)
  have hfirst := h 0 a rfl
  rw [hk] at hfirst ⊢
  exact ⟨k', congrArg (fun k => [k, k']) (Option.some.inj hfirst)⟩

/-- An operator has a value on literals that it takes, unless it is for vectors. -/
theorem exists_value {x y : NodeId} (hunmixed : (Operation.binary op x y).vectorial = false)
    (ht : t ∈ op.types) (h : t.Takes [some a, some b]) : ∃ r, op.eval? a b = some r := by
  obtain ⟨kind, hoperands⟩ := operands_of_takes ht h
  have hsecond := h 1 b rfl
  rw [hoperands] at hsecond
  obtain rfl : kind = b.kind := Option.some.inj hsecond
  have hop : op ≠ .dot ∧ op ≠ .cross ∧ op ≠ .reflect := by
    refine ⟨?_, ?_, ?_⟩ <;> rintro rfl <;> cases hunmixed
  obtain ⟨r, hr, -⟩ := BinaryOp.eval?_total ht hoperands hop
  exact ⟨r, hr⟩

end BinaryOp

namespace TernaryOp

variable {op : TernaryOp} {t : OperatorType}

/-- A condition that is taken is a boolean. -/
theorem condition_of_takes (ht : t ∈ TernaryOp.select.types) {a : Scalar} {b c : Option Scalar}
    (h : t.Takes [some a, b, c]) : ∃ v, a = .bool v := by
  have hfirst := h 0 a rfl
  have hkind : a.kind = .bool := by
    simp only [types, List.mem_cons, List.not_mem_nil, or_false] at ht
    rcases ht with rfl | rfl | rfl <;> exact (Option.some.inj hfirst).symm
  cases a with
  | bool v => exact ⟨v, rfl⟩
  | int | float => cases hkind

/-- An operator other than a choice has a value on literals that it takes. -/
theorem exists_value (hselect : op ≠ .select) (ht : t ∈ op.types) {a b c : Scalar}
    (h : t.Takes [some a, some b, some c]) : ∃ r, op.eval? a b c = some r := by
  obtain ⟨k, k', k'', hk⟩ := List.length_eq_three.mp (op.typeTable.arity t ht)
  have hfirst := h 0 a rfl
  have hsecond := h 1 b rfl
  have hthird := h 2 c rfl
  rw [hk] at hfirst hsecond hthird
  obtain rfl : k = a.kind := Option.some.inj hfirst
  obtain rfl : k' = b.kind := Option.some.inj hsecond
  obtain rfl : k'' = c.kind := Option.some.inj hthird
  obtain ⟨r, hr, -⟩ := TernaryOp.lift_total ht hk
  have hlift : op.lift (some a) (some b) (some c) = op.eval? a b c := by
    cases op <;> first | exact absurd rfl hselect | rfl
  exact ⟨r, hlift ▸ hr⟩

end TernaryOp

/-- Where no rule applies to literals that an operation takes, it is folded. -/
theorem Operation.folded_of_spent {op : Operation} {kind : Kind} {literals : List (Option Scalar)}
    (hspent : op.Spent kind literals) (hlength : literals.length = op.children.length)
    (hunmixed : op.vectorial = false) (hkind : kind ≠ .unknown)
    (htypes : op.types ≠ [] → ∃ t ∈ op.types, t.Takes literals) :
    op.folded (literals.map Option.isSome) = true := by
  cases op with
  | unary op x =>
    obtain ⟨a, rfl⟩ := List.length_eq_one_iff.mp hlength
    cases a with
    | none => rfl
    | some v =>
      obtain ⟨r, hr⟩ := UnaryOp.exists_value hunmixed hkind htypes
      exact absurd (hr.symm.trans (hspent v rfl)) (Option.some_ne_none r)
  | binary op x y =>
    obtain ⟨a, b, rfl⟩ := List.length_eq_two.mp hlength
    obtain ⟨t, ht, htakes⟩ := htypes (by cases op <;> exact List.cons_ne_nil _ _)
    cases a with
    | none => rfl
    | some a =>
      cases b with
      | none =>
        obtain ⟨kind', hoperands⟩ := BinaryOp.operands_of_takes ht htakes
        have hturns := Folding.leftFold_keep ht (by rw [hoperands]; rfl) (hspent a none rfl)
        show (!true || (!false && !op.turns)) = true
        rw [hturns]
        rfl
      | some b =>
        obtain ⟨r, hr⟩ := BinaryOp.exists_value hunmixed ht htakes
        exact absurd (hr.symm.trans (hspent a (some b) rfl)) (Option.some_ne_none r)
  | ternary op x y z =>
    obtain ⟨a, b, c, rfl⟩ := List.length_eq_three.mp hlength
    obtain ⟨t, ht, htakes⟩ := htypes (by cases op <;> exact List.cons_ne_nil _ _)
    have hcases := hspent a b c rfl
    by_cases hselect : op = .select
    · subst hselect
      cases a with
      | none => rfl
      | some a =>
        obtain ⟨v, rfl⟩ := TernaryOp.condition_of_takes ht htakes
        exact absurd rfl (hcases v)
    · rw [if_neg hselect] at hcases
      have hnotAll : (a.isSome && b.isSome && c.isSome) = false := by
        by_contra hall
        simp only [Bool.not_eq_false, Bool.and_eq_true, Option.isSome_iff_exists] at hall
        obtain ⟨⟨⟨a, rfl⟩, b, rfl⟩, c, rfl⟩ := hall
        obtain ⟨r, hr⟩ := TernaryOp.exists_value hselect ht htakes
        exact absurd (hr.symm.trans (hcases a b c rfl rfl rfl)) (Option.some_ne_none r)
      show (if op = .select then !a.isSome else !(a.isSome && b.isSome && c.isSome)) = true
      rw [if_neg hselect, hnotAll]
      rfl
  | _ => rfl

/-- Where no rule of folding applies and the final check lets everything pass, everything is
folded. -/
theorem Graph.fullyFolded_of_check {S : Streams} {g : Graph} (h : Orderly S g) (hg : g.Obeys Done)
    (hcheck : ∀ id, g.Needs id → Consistency.check g id = .ok ()) : g.FullyFolded := by
  obtain ⟨rank, h⟩ := h
  intro id n hid hn
  obtain ⟨m, hm, hmeets⟩ := hg id hid
  rw [hn] at hm
  cases hm
  obtain ⟨hslim, hspent⟩ := meets_done.mp hmeets
  have hknown := Consistency.known_of_checkNode (Consistency.check_eq_ok hn (hcheck id hid)).1
  -- Operands that are literals have a value, which is of their kind.
  have hliteral : ∀ c ∈ n.children, (g.lookAt c).scalar?.isSome = g.isLiteral c ∧
      ∀ v, (g.lookAt c).scalar? = some v → v.kind = (g.shapeAt c).kind := by
    intro c hc
    obtain ⟨output, houtput, hpath⟩ := hid
    have hneeds : g.Needs c := ⟨output, houtput, hpath.tail ⟨n, hn, hc⟩⟩
    obtain ⟨m, hm, hmeets⟩ := hg c hneeds
    rw [scalar?_lookAt hm, isLiteral_eq hm, shapeAt_eq hm]
    cases hconstant : m.constant? with
    | none =>
      unfold Node.scalar?
      rw [hconstant]
      exact ⟨rfl, fun _ hv => nomatch hv⟩
    | some value =>
      obtain ⟨s, hs, hkind⟩ := Consistency.scalar?_of_check (meets_done.mp hmeets).1
        (Consistency.check_eq_ok hm (hcheck c hneeds)).1 hconstant
      rw [hs]
      exact ⟨rfl, fun v hv => Option.some.inj hv ▸ hkind⟩
  have hfolded := Operation.folded_of_spent hspent (List.length_map _) (meets_slim.mp hslim).1
    hknown.1 fun htypes => ?_
  · rw [List.map_map] at hfolded
    unfold folded
    rw [← hfolded]
    exact congrArg _ (List.map_congr_left fun c hc => (hliteral c hc).1.symm)
  · obtain ⟨t, ht, hoperands⟩ :=
      Consistency.types_of_check hn (hcheck id hid) (h.node hn).recorded htypes
    refine ⟨t, ht, fun i v hi => ?_⟩
    rw [List.getElem?_map] at hi
    obtain ⟨c, hc, hv⟩ := Option.map_eq_some_iff.mp hi
    rw [hoperands, List.getElem?_map, hc, Option.map_some,
      (hliteral c (List.mem_of_getElem? hc)).2 v hv]

end LaneGraph
