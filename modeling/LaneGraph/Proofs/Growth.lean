import LaneGraph.Proofs.Arena
import LaneGraph.Proofs.Recipes

/-!
# Nodes that are made in order

Whatever a factory makes of operands of an arena in order, it keeps the order,
whether the operands are resolved or not. The rank of the new node follows from
those of its operands. For nodes that are made line by line, ranks are found by
running the lines on ranks alone.
-/

namespace LaneGraph

open Build

variable {S : Streams} {g g' : Graph} {rank rank' : NodeId → Nat}

/-! ## Resolution -/

/-- What the resolution of a node can do: the head stays, operands may be dropped,
and a new shape is brought into bounds. -/
structure Node.Resolves (n : Node) (shapes : List Shape) (n' : Node) : Prop where
  head : n'.op.head = n.op.head
  children : ∀ c ∈ n'.children, c ∈ n.children
  inputWidth : n'.inputWidth = n.inputWidth ∨ n'.inputWidth = widest shapes
  shape : n'.shape = n.shape ∨
    (∀ channel, n.op ≠ .input channel) ∧ ∃ kind width, n'.shape = Shape.of kind width
  recorded : n.Recorded → n'.Recorded

namespace Node

/-- Nothing may happen. -/
theorem Resolves.refl (n : Node) (shapes : List Shape) : n.Resolves shapes n :=
  ⟨rfl, fun _ hc => hc, .inl rfl, .inl rfl, id⟩

/-- Choosing an operator type. -/
theorem resolves_operator {n : Node} {types : List OperatorType} (htypes : n.op.types = types)
    (shapes : List Shape) (reduces : Bool) (hinput : ∀ channel, n.op ≠ .input channel) :
    n.Resolves shapes (n.resolveOperator types shapes reduces) := by
  unfold resolveOperator
  dsimp only
  split
  · exact .refl n shapes
  · rename_i k _
    split
    · exact .refl n shapes
    · rename_i hk
      refine ⟨rfl, fun _ hc => hc, .inr rfl, .inr ⟨hinput, _, _, rfl⟩, fun _ _ j hj => ?_⟩
      have hlt := (List.getElem?_eq_some_iff.mp hk).1
      have hle := Nat.mod_le k 256
      cases hj
      show k % 256 < n.op.types.length
      rw [htypes]
      omega

/-- Choosing a candidate function. -/
theorem resolves_call {n : Node} (functions : List Signature) {candidates : List FunctionId}
    {arguments : List NodeId} (shapes : List Shape) (hop : n.op = .call candidates arguments) :
    n.Resolves shapes (n.resolveCall functions candidates arguments shapes) := by
  unfold resolveCall
  dsimp only
  split
  · exact .refl n shapes
  · split
    · exact .refl n shapes
    · refine ⟨by rw [hop]; rfl, fun c hc => ?_, .inr rfl, .inr ⟨?_, _, _, rfl⟩,
        fun _ hnone => absurd rfl hnone⟩
      · exact (mem_children hop).mpr (List.mem_of_mem_take hc)
      · rw [hop]
        exact fun _ h => (nomatch h)

/-- Resolving a node. -/
theorem resolves_resolved (n : Node) (functions : List Signature) (shapes : List Shape) :
    n.Resolves shapes (n.resolved functions shapes) := by
  unfold resolved
  split
  case h_1 | h_5 =>
    rename_i hop
    have hinput : ∀ channel, n.op ≠ .input channel := by
      rw [hop]
      exact fun _ h => (nomatch h)
    refine ⟨rfl, fun _ hc => hc, .inr rfl, .inr ⟨hinput, _, _, rfl⟩, fun _ hnone => ?_⟩
    exact absurd (by rw [hop]; rfl) hnone
  case h_2 | h_3 | h_4 =>
    rename_i hop
    exact resolves_operator (by rw [hop]; rfl) shapes _ (by rw [hop]; exact fun _ h => (nomatch h))
  case h_6 => exact resolves_call functions shapes ‹_›
  case h_10 => exact .refl n shapes
  all_goals exact ⟨rfl, fun _ hc => hc, .inr rfl, .inl rfl, id⟩

end Node

/-- The streams that an operation mentions are seen in its head. -/
theorem Streams.admits_of_head {op op' : Operation} {shape shape' : Shape}
    (h : S.Admits op shape) (hhead : op'.head = op.head)
    (hshape : shape' = shape ∨ ∀ channel, op ≠ .input channel) : S.Admits op' shape' := by
  cases op <;> cases op' <;> try cases hhead
  case input =>
    rcases hshape with rfl | hnone
    · exact h
    · exact absurd rfl (hnone _)
  all_goals exact h

/-- A resolved node is in order where the node was. -/
theorem NodeOrdered.resolves {n n' : Node} {place : Nat} {shapes : List Shape}
    (h : NodeOrdered S g rank n place) (hn' : n.Resolves shapes n')
    (hshapes : ∀ s ∈ shapes, s.width ≤ 4) : NodeOrdered S g rank n' place where
  admits := Streams.admits_of_head h.admits hn'.head (hn'.shape.imp id And.left)
  width := by
    rcases hn'.shape with hshape | ⟨-, kind, width, hshape⟩
    · rw [hshape]
      exact h.width
    · rw [hshape]
      exact Shape.width_of_le kind width
  inputWidth := by
    rcases hn'.inputWidth with hwidth | hwidth
    · rw [hwidth]
      exact h.inputWidth
    · rw [hwidth]
      exact widest_le (by decide) hshapes
  child c hc := h.child c (hn'.children c hc)
  below c hc := by
    rw [Operation.room_of_head hn'.head]
    exact h.below c (hn'.children c hc)
  recorded := hn'.recorded h.recorded

namespace Ordered

/-- Looking for the shapes of operands does not fail, and what is found is no wider
than vectors are. -/
theorem knownShapes? (h : Ordered S g rank) {ids : List NodeId}
    (hids : ∀ c ∈ ids, c < g.nodes.size) :
    g.knownShapes? ids = .ok none ∨
      ∃ shapes, g.knownShapes? ids = .ok (some shapes) ∧ ∀ s ∈ shapes, s.width ≤ 4 := by
  induction ids with
  | nil => exact .inr ⟨[], rfl, fun _ hs => (nomatch hs)⟩
  | cons id rest ih =>
    obtain ⟨n, hn⟩ := Graph.exists_node (hids id List.mem_cons_self)
    have hnode : g.node id = .ok n := by
      unfold Graph.node
      rw [hn]
    rw [Graph.knownShapes?, hnode]
    dsimp only
    split
    · exact .inl rfl
    · rcases ih fun c hc => hids c (List.mem_cons_of_mem _ hc) with hnone | ⟨shapes, hsome, hall⟩
      · rw [hnone]
        exact .inl rfl
      · rw [hsome]
        refine .inr ⟨n.shape :: shapes, rfl, fun s hs => ?_⟩
        rcases List.mem_cons.mp hs with rfl | hs
        · exact (h.node hn).width
        · exact hall s hs

/-- Resolving a node other than a constructor keeps the order. -/
theorem resolvePlain (h : Ordered S g rank) {id : NodeId} {n : Node} (hn : g.node? id = some n) :
    Keeps S g rank (Build.resolvePlain id) fun _ g' _ =>
      ∃ n', g'.node? id = some n' ∧ n'.op.head = n.op.head ∧ ∀ c ∈ n'.children, c ∈ n.children := by
  unfold Build.resolvePlain
  refine .node hn ?_
  have hstay : ∃ n', g.node? id = some n' ∧ n'.op.head = n.op.head ∧
      ∀ c ∈ n'.children, c ∈ n.children := ⟨n, hn, rfl, fun _ hc => hc⟩
  split
  · exact .pure h hstay
  · rcases h.knownShapes? (h.node hn).child with hnone | ⟨shapes, hsome, hwidths⟩
    · exact .ask hnone (.pure h hstay)
    · refine .ask hsome (.get ?_)
      have hresolves := n.resolves_resolved g.functions shapes
      obtain ⟨h', ho⟩ := h.setNode _ hn hresolves.head ((h.node hn).resolves hresolves hwidths)
      exact ⟨rank, h', ho, _, Graph.node?_setNode_self _ hn, hresolves.head, hresolves.children⟩

/-- A node other than a constructor is made where it is in order. -/
theorem plain (h : Ordered S g rank) (op : Operation) (shape : Shape) {place : Nat}
    (hnode : NodeOrdered S g rank { op, shape } place) :
    Keeps S g rank (Build.plain op shape) fun id g' rank' =>
      Below g' rank' place id ∧ ∃ n, g'.node? id = some n ∧ n.op.head = op.head := by
  obtain ⟨h', ho⟩ := h.push hnode
  have hnew := Graph.node?_push_size g ({ op, shape } : Node)
  have happend : Keeps S g rank (append { op, shape }) fun id g' rank' =>
      Below g' rank' place id ∧ g'.node? id = some { op, shape } :=
    ⟨_, h', ho, ⟨Graph.lt_size hnew, Nat.le_of_eq (Function.update_self _ _ _)⟩, hnew⟩
  unfold Build.plain
  refine happend.bind ?_
  rintro id g₁ rank₁ h₁ - ⟨hbelow, hid⟩
  refine (h₁.resolvePlain hid).bind ?_
  rintro - g₂ rank₂ h₂ ho₂ ⟨n, hn, hhead, -⟩
  exact .pure h₂ ⟨hbelow.onward ho₂, n, hn, hhead⟩

/-- A node without operands ranks at the bottom. -/
theorem leaf (h : Ordered S g rank) (op : Operation) (shape : Shape) (hop : op.children = [])
    (hadmits : S.Admits op shape) (hwidth : shape.width ≤ 4) :
    Keeps S g rank (Build.plain op shape) fun id g' rank' =>
      Below g' rank' 0 id ∧ ∃ n, g'.node? id = some n ∧ n.op.head = op.head := by
  refine h.plain op shape ⟨hadmits, hwidth, Nat.zero_le 4, ?_, ?_, Node.recorded_raw op shape⟩
  all_goals
    intro c hc
    have hmem : c ∈ op.children := hc
    rw [hop] at hmem
    cases hmem

/-- An operation on operands below a bound is made above it. -/
theorem apply (h : Ordered S g rank) {op : Operation} (shape : Shape) {bound : Nat}
    (hchildren : ∀ c ∈ op.children, Below g rank bound c) (hadmits : S.Admits op shape)
    (hwidth : shape.width ≤ 4) :
    Keeps S g rank (Build.plain op shape) fun id g' rank' =>
      Below g' rank' (bound + op.room) id ∧ ∃ n, g'.node? id = some n ∧ n.op.head = op.head :=
  h.plain op shape ⟨hadmits, hwidth, Nat.zero_le 4, fun c hc => (hchildren c hc).lt,
    fun c hc => Nat.add_le_add_right (hchildren c hc).le _, Node.recorded_raw op shape⟩

/-- A literal ranks at the bottom. -/
theorem scalar (h : Ordered S g rank) (v : Scalar) :
    Keeps S g rank (Build.scalar v) fun id g' rank' => Below g' rank' 0 id := by
  have hwidth := (Constant.ofScalar v).width_le
  exact (h.leaf (.constant (.ofScalar v)) _ rfl trivial hwidth).mono fun _ _ _ _ _ hid => hid.1

variable {bound : Nat} {x y z : NodeId}

/-- A selection is made. -/
theorem swizzle (h : Ordered S g rank) (components : List Component)
    (hx : Below g rank bound x) :
    Keeps S g rank (Build.swizzle components x) fun id g' rank' =>
      Below g' rank' (bound + 1) id := by
  have hchildren : ∀ c ∈ (Operation.swizzle components x).children, Below g rank bound c :=
    fun c hc => List.mem_singleton.mp hc ▸ hx
  exact (h.apply Shape.unknown hchildren trivial (Nat.zero_le 4)).mono
    fun _ _ _ _ _ hid => hid.1

/-- A change of kind is made. -/
theorem convert (h : Ordered S g rank) (target : Kind) (hx : Below g rank bound x) :
    Keeps S g rank (Build.convert x target) fun id g' rank' =>
      Below g' rank' (bound + 3) id := by
  have hchildren : ∀ c ∈ (Operation.unary .convert x).children, Below g rank bound c :=
    fun c hc => List.mem_singleton.mp hc ▸ hx
  exact (h.apply _ hchildren trivial (Shape.width_of_le target 1)).mono
    fun _ _ _ _ _ hid => hid.1

/-- An operator with one operand is made. -/
theorem unary (h : Ordered S g rank) (op : UnaryOp) (hx : Below g rank bound x) :
    Keeps S g rank (Build.unary op x) fun id g' rank' =>
      Below g' rank' (bound + (Operation.unary op 0).room) id := by
  have hchildren : ∀ c ∈ (Operation.unary op x).children, Below g rank bound c :=
    fun c hc => List.mem_singleton.mp hc ▸ hx
  refine (h.apply Shape.unknown hchildren trivial (Nat.zero_le 4)).mono ?_
  rintro id g' rank' - - ⟨hid, -⟩
  rw [← Operation.room_head] at hid
  exact hid

/-- An operator with two operands is made. -/
theorem binary (h : Ordered S g rank) (op : BinaryOp) (hx : Below g rank bound x)
    (hy : Below g rank bound y) :
    Keeps S g rank (Build.binary op x y) fun id g' rank' =>
      Below g' rank' (bound + (Operation.binary op 0 0).room) id := by
  have hchildren : ∀ c ∈ (Operation.binary op x y).children, Below g rank bound c := by
    intro c hc
    rcases List.mem_pair.mp hc with rfl | rfl <;> assumption
  refine (h.apply Shape.unknown hchildren trivial (Nat.zero_le 4)).mono ?_
  rintro id g' rank' - - ⟨hid, -⟩
  rw [← Operation.room_head] at hid
  exact hid

/-- An operator with three operands is made. -/
theorem ternary (h : Ordered S g rank) (op : TernaryOp) (hx : Below g rank bound x)
    (hy : Below g rank bound y) (hz : Below g rank bound z) :
    Keeps S g rank (Build.ternary op x y z) fun id g' rank' =>
      Below g' rank' (bound + (Operation.ternary op 0 0 0).room) id := by
  have hchildren : ∀ c ∈ (Operation.ternary op x y z).children, Below g rank bound c := by
    intro c hc
    simp only [Operation.children, List.mem_cons, List.not_mem_nil, or_false] at hc
    rcases hc with rfl | rfl | rfl <;> assumption
  refine (h.apply Shape.unknown hchildren trivial (Nat.zero_le 4)).mono ?_
  rintro id g' rank' - - ⟨hid, -⟩
  rw [← Operation.room_head] at hid
  exact hid

/-- The tables of streams do not matter for the order. -/
theorem withInputs (h : Ordered S g rank) (inputs : List Channel) :
    Ordered S { g with inputs } rank ∧ Onward g rank { g with inputs } rank :=
  ⟨h.of_nodes rfl h.outputs h.representatives, .of_nodes rfl rfl⟩

/-- A read of a stream ranks at the bottom. -/
theorem input (h : Ordered S g rank) {channel : Channel} (hreads : S.reads channel) :
    Keeps S g rank (Build.input channel) fun id g' rank' =>
      Below g' rank' 0 id ∧ ∃ n, g'.node? id = some n ∧ n.op.head = .input channel := by
  have hentered : Ordered S (if g.inputs.any (·.name == channel.name) then g
      else { g with inputs := g.inputs ++ [channel] }) rank ∧
      Onward g rank (if g.inputs.any (·.name == channel.name) then g
        else { g with inputs := g.inputs ++ [channel] }) rank := by
    split
    · exact ⟨h, Onward.refl g rank⟩
    · exact h.withInputs (g.inputs ++ [channel])
  unfold Build.input
  refine (Keeps.change hentered).bind fun _ g' rank' h' _ _ => ?_
  exact h'.leaf (.input channel) _ rfl ⟨hreads, rfl⟩ (Shape.width_of_le _ _)

/-- A write of a stream is made above what is written. -/
theorem unlistedOutput (h : Ordered S g rank) {channel : Channel} (hwrites : S.writes channel)
    (hx : Below g rank bound x) :
    Keeps S g rank (Build.unlistedOutput channel x) fun id g' rank' =>
      Below g' rank' (bound + 1) id ∧ ∃ n, g'.node? id = some n ∧ n.isOutput = true := by
  have hchildren : ∀ c ∈ (Operation.output channel x).children, Below g rank bound c :=
    fun c hc => List.mem_singleton.mp hc ▸ hx
  refine (h.apply _ hchildren hwrites (Shape.width_of_le _ _)).mono ?_
  rintro id g' rank' - - ⟨hid, n, hn, hhead⟩
  exact ⟨hid, n, hn, Node.isOutput_of_head (n := { n with op := .output channel x }) hhead⟩

/-! ## Constructors -/

/-- Splitting arguments into scalars takes selections of them. -/
theorem flatten (arguments : List (NodeId × Shape)) (h : Ordered S g rank)
    (hall : ∀ a ∈ arguments, Below g rank bound a.1) :
    Keeps S g rank (Build.flatten arguments) fun ids g' rank' =>
      ∀ id ∈ ids, Below g' rank' (bound + 1) id := by
  induction arguments generalizing g rank with
  | nil => exact .pure h fun _ hid => (nomatch hid)
  | cons a rest ih =>
    obtain ⟨argument, shape⟩ := a
    have hargument : Below g rank bound argument := hall _ List.mem_cons_self
    rw [Build.flatten]
    -- The rest follows whichever way the first argument is split.
    have hrest : ∀ {steps : Build (List NodeId)}, Keeps S g rank steps (fun ids g' rank' =>
        ∀ id ∈ ids, Below g' rank' (bound + 1) id) →
        Keeps S g rank (do let parts ← steps; return parts ++ (← Build.flatten rest))
          fun ids g' rank' => ∀ id ∈ ids, Below g' rank' (bound + 1) id := by
      intro steps hsteps
      refine hsteps.bind fun parts g₁ rank₁ h₁ ho₁ hparts => ?_
      refine (ih h₁ fun b hb => (hall b (List.mem_cons_of_mem _ hb)).onward ho₁).bind ?_
      intro others g₂ rank₂ h₂ ho₂ hothers
      refine .pure h₂ fun id hid => ?_
      rcases List.mem_append.mp hid with hid | hid
      · exact (hparts id hid).onward ho₂
      · exact hothers id hid
    dsimp only
    split
    · refine hrest (.pure h fun id hid => ?_)
      rw [List.mem_singleton.mp hid]
      exact hargument.mono (Nat.le_succ bound)
    · exact hrest (.mapM h (fun ho hid => hid.onward ho) fun i _ _ _ h' ho =>
        h'.swizzle _ (hargument.onward ho))

/-- Arranging arguments takes selections of them and a zero. -/
theorem arrangement (target : Shape) (arguments : List (NodeId × Shape)) (h : Ordered S g rank)
    (hall : ∀ a ∈ arguments, Below g rank bound a.1) :
    Keeps S g rank (Build.arrangement target arguments) fun ids g' rank' =>
      ∀ id ∈ ids, Below g' rank' (bound + 1) id := by
  unfold Build.arrangement
  dsimp only
  split
  · rename_i argument hspread
    refine .pure h fun id hid => ?_
    rw [List.eq_of_mem_replicate hid]
    have hmem : ∃ shape, (argument, shape) ∈ arguments := by
      split at hspread
      · split at hspread
        · cases hspread
          exact ⟨_, List.mem_singleton_self _⟩
        · cases hspread
      · cases hspread
    obtain ⟨shape, hmem⟩ := hmem
    exact (hall _ hmem).mono (Nat.le_succ bound)
  · refine (flatten arguments h hall).bind fun flat g₁ rank₁ h₁ _ hflat => ?_
    have htake : ∀ id ∈ flat.take target.width, Below g₁ rank₁ (bound + 1) id :=
      fun id hid => hflat id (List.mem_of_mem_take hid)
    split
    · split
      · refine (h₁.scalar _).bind fun pad g₂ rank₂ h₂ ho₂ hpad => ?_
        refine .pure h₂ fun id hid => ?_
        rcases List.mem_append.mp hid with hid | hid
        · exact (htake id hid).onward ho₂
        · rw [List.eq_of_mem_replicate hid]
          exact hpad.mono (Nat.zero_le _)
      · exact .pure h₁ htake
    · exact .pure h₁ htake

/-- Resolving a node keeps the order, if there is room for selections between a
constructor and its arguments. -/
theorem resolve (h : Ordered S g rank) {id : NodeId} {n : Node} (hn : g.node? id = some n)
    (hchildren : ∀ c ∈ n.children, Below g rank bound c)
    (hroom : bound + 1 + n.op.room ≤ rank id) :
    Keeps S g rank (Build.resolve id) fun _ g' rank' => ∃ n', g'.node? id = some n' ∧
      n'.op.head = n.op.head ∧ ∀ c ∈ n'.children, Below g' rank' (bound + 1) c := by
  have hstay : ∃ n', g.node? id = some n' ∧ n'.op.head = n.op.head ∧
      ∀ c ∈ n'.children, Below g rank (bound + 1) c :=
    ⟨n, hn, rfl, fun c hc => (hchildren c hc).mono (Nat.le_succ bound)⟩
  unfold Build.resolve
  refine .node hn ?_
  split
  · rename_i arguments hop
    have hmem : ∀ {c : NodeId}, c ∈ n.children ↔ c ∈ arguments := Node.mem_children hop
    split
    · exact .pure h hstay
    · rcases h.knownShapes? fun c hc => (h.node hn).child c (hmem.mpr hc) with
        hnone | ⟨shapes, hsome, -⟩
      · exact .ask hnone (.pure h hstay)
      · refine .ask hsome ?_
        have hall : ∀ a ∈ arguments.zip shapes, Below g rank bound a.1 := fun a ha =>
          hchildren a.1 (hmem.mpr (List.of_mem_zip ha).1)
        refine (arrangement n.shape _ h hall).bind fun arranged g₁ rank₁ h₁ ho₁ harranged => ?_
        obtain ⟨m, hm, hhead⟩ := ho₁.head hn
        unfold modifyNode
        refine .node hm ?_
        have hrank := ho₁.rank id (Graph.lt_size hn)
        have hconstruct : ∃ old, m.op = .construct old := by
          rw [hop] at hhead
          cases hmop : m.op <;> rw [hmop] at hhead <;> first | exact ⟨_, rfl⟩ | cases hhead
        obtain ⟨old, hmop⟩ := hconstruct
        have hroom' : bound + 1 + (Operation.construct arranged).room ≤ rank₁ id := by
          rw [hrank]
          rw [hop] at hroom
          exact hroom
        have hnode := h₁.node hm
        obtain ⟨h₂, ho₂⟩ := h₁.setNode
          { m with op := .construct arranged, inputWidth := 1, overload := some 0 } hm
          (by rw [hmop]; rfl)
          ⟨trivial, hnode.width, (by decide : 1 ≤ 4), fun c hc => (harranged c hc).lt, fun c hc =>
            Nat.le_trans (Nat.add_le_add_right (harranged c hc).le _) hroom',
            fun hnone => absurd rfl hnone⟩
        refine ⟨rank₁, h₂, ho₂, _, Graph.node?_setNode_self _ hm, by rw [hop]; rfl, ?_⟩
        exact fun c hc => (harranged c hc).onward ho₂
  · refine (h.resolvePlain hn).mono ?_
    rintro - g' rank' - ho ⟨n', hn', hhead, hsub⟩
    exact ⟨n', hn', hhead, fun c hc =>
      ((hchildren c (hsub c hc)).mono (Nat.le_succ bound)).onward ho⟩

/-- A constructor is made above its arguments, with room for selections. -/
theorem construct (h : Ordered S g rank) {shape : Shape} (hwidth : shape.width ≤ 4)
    {arguments : List NodeId} (hall : ∀ c ∈ arguments, Below g rank bound c) :
    Keeps S g rank (Build.construct shape arguments) fun id g' rank' =>
      Below g' rank' (bound + 3) id := by
  have hnode : NodeOrdered S g rank { op := .construct arguments, shape } (bound + 3) :=
    ⟨trivial, hwidth, Nat.zero_le 4, fun c hc => (hall c hc).lt, fun c hc =>
      Nat.add_le_add (hall c hc).le (by decide : 2 ≤ 3), Node.recorded_raw _ _⟩
  obtain ⟨h', ho⟩ := h.push hnode
  have hnew := Graph.node?_push_size g ({ op := .construct arguments, shape } : Node)
  have hplace : Function.update rank g.nodes.size (bound + 3) g.nodes.size = bound + 3 :=
    Function.update_self _ _ _
  have happend : Keeps S g rank (append { op := .construct arguments, shape })
      fun id g' rank' => id = g.nodes.size ∧ g' = g.push { op := .construct arguments, shape } ∧
        rank' = Function.update rank g.nodes.size (bound + 3) :=
    ⟨_, h', ho, rfl, rfl, rfl⟩
  unfold Build.construct
  refine happend.bind ?_
  rintro id g₁ rank₁ h₁ ho₁ ⟨rfl, rfl, rfl⟩
  refine (h₁.resolve hnew (fun c hc => (hall c hc).onward ho₁) ?_).bind ?_
  · rw [hplace]
    exact Nat.le_refl (bound + 3)
  · intro _ g₂ rank₂ h₂ ho₂ _
    exact .pure h₂ (Below.onward ⟨Graph.lt_size hnew, Nat.le_of_eq hplace⟩ ho₂)

end Ordered

/-! ## Lines -/

namespace Line

/-- The places that a line refers to. -/
def places : Line → List Nat
  | literal _ => []
  | unary _ x | convert x _ | swizzle _ x | spread _ x => [x]
  | binary _ x y => [x, y]
  | ternary _ x y z => [x, y, z]

/-- By how much the node of a line ranks above the places it refers to. -/
def rise : Line → Nat
  | literal _ => 0
  | unary op _ => (Operation.unary op 0).room
  | convert _ _ | spread _ _ => 3
  | binary op _ _ => (Operation.binary op 0 0).room
  | ternary op _ _ _ => (Operation.ternary op 0 0 0).room
  | swizzle _ _ => 1

/-- The highest of some places. -/
def top (heights : List Nat) (places : List Nat) : Nat :=
  (places.map fun i => heights.getD i 0).foldl max 0

/-- A line makes no vector that is too wide. -/
def modest : Line → Bool
  | spread shape _ => shape.width ≤ 4
  | _ => true

/-- The heights of all nodes after lines; none if a line refers to a place that is not
there or makes a vector that is too wide. -/
def heights : List Nat → List Line → Option (List Nat)
  | hs, [] => some hs
  | hs, l :: rest =>
    if l.modest && l.places.all (· < hs.length) then
      heights (hs ++ [top hs l.places + l.rise]) rest
    else none

/-- Lines on some operands end at most at a height above them. -/
def endsBy (operands : Nat) (lines : List Line) (limit : Nat) : Bool :=
  match heights (List.replicate operands 0) lines with
  | some hs => hs.getLastD (limit + 1) ≤ limit
  | none => false

variable {ids : List NodeId} {hs : List Nat} {base : Nat}

/-- Nodes below given heights above a base. -/
abbrev Heights (g : Graph) (rank : NodeId → Nat) (base : Nat) (ids : List NodeId)
    (hs : List Nat) : Prop :=
  List.Forall₂ (fun id height => Below g rank (base + height) id) ids hs

/-- A place that is referred to is below the highest one. -/
theorem Heights.get (h : Heights g rank base ids hs) {places : List Nat} {i : Nat}
    (hi : i ∈ places) (hlt : i < hs.length) :
    Below g rank (base + top hs places) (ids.getD i 0) := by
  have hlt' : i < ids.length := by
    rw [h.length_eq]
    exact hlt
  have hbelow := List.Forall₂.get h hlt' hlt
  have hmem : hs[i] ∈ places.map fun i => hs.getD i 0 := by
    refine List.mem_map.mpr ⟨i, hi, ?_⟩
    simp [List.getD_eq_getElem?_getD, hlt]
  have htop : hs[i] ≤ top hs places := le_foldl_max hmem 0
  have hid : ids.getD i 0 = ids[i] := by simp [List.getD_eq_getElem?_getD, hlt']
  rw [hid]
  exact hbelow.mono (Nat.add_le_add_left htop base)

/-- A line makes its node at its height. -/
theorem build_keeps (h : Ordered S g rank) (hids : Heights g rank base ids hs) {l : Line}
    (hplaces : l.places.all (· < hs.length) = true) (hmodest : l.modest = true) :
    Keeps S g rank (l.build ids) fun id g' rank' =>
      Below g' rank' (base + (top hs l.places + l.rise)) id := by
  have hget : ∀ i ∈ l.places, Below g rank (base + top hs l.places) (ids.getD i 0) :=
    fun i hi => hids.get hi (of_decide_eq_true (List.all_eq_true.mp hplaces i hi))
  rw [← Nat.add_assoc]
  cases l with
  | literal v => exact (h.scalar v).mono fun _ _ _ _ _ hid => hid.mono (Nat.zero_le _)
  | unary op x => exact h.unary op (hget x (by simp [places]))
  | convert x target => exact h.convert target (hget x (by simp [places]))
  | binary op x y => exact h.binary op (hget x (by simp [places])) (hget y (by simp [places]))
  | ternary op x y z =>
    exact h.ternary op (hget x (by simp [places])) (hget y (by simp [places]))
      (hget z (by simp [places]))
  | swizzle components x => exact h.swizzle components (hget x (by simp [places]))
  | spread shape x =>
    refine h.construct (of_decide_eq_true hmodest) fun c hc => ?_
    rw [List.mem_singleton.mp hc]
    exact hget x (by simp [places])

/-- Lines make their nodes at their heights. -/
theorem run_keeps (lines : List Line) {hs' : List Nat} (h : Ordered S g rank)
    (hids : Heights g rank base ids hs) (hheights : heights hs lines = some hs') :
    Keeps S g rank (run ids lines) fun ids' g' rank' => Heights g' rank' base ids' hs' := by
  induction lines generalizing g rank ids hs with
  | nil =>
    cases hheights
    exact .pure h hids
  | cons l rest ih =>
    rw [heights] at hheights
    split at hheights
    · rename_i hline
      rw [Bool.and_eq_true] at hline
      refine (build_keeps h hids hline.2 hline.1).bind fun id g₁ rank₁ h₁ ho₁ hid => ?_
      refine ih h₁ (List.rel_append ?_ (.cons hid .nil)) hheights
      exact hids.imp fun _ _ hbelow => hbelow.onward ho₁
    · cases hheights

/-- The last entries of related lists are related. -/
theorem Heights.getLastD (h : Heights g rank base ids hs) {id : NodeId} {height : Nat}
    (hid : Below g rank (base + height) id) :
    Below g rank (base + hs.getLastD height) (ids.getLastD id) := by
  induction h generalizing id height with
  | nil => exact hid
  | cons hfirst _ ih =>
    rw [List.getLastD_cons, List.getLastD_cons]
    exact ih hfirst

/-- The last of several lines makes its node at most at the height where they end. -/
theorem make_keeps {lines : List Line} {limit : Nat} (h : Ordered S g rank)
    (hids : ∀ id ∈ ids, Below g rank base id) (hends : endsBy ids.length lines limit = true) :
    Keeps S g rank (make ids lines) fun id g' rank' => Below g' rank' (base + limit) id := by
  unfold endsBy at hends
  split at hends
  · rename_i hs' hheights
    have hlast := of_decide_eq_true hends
    have hstart : Heights g rank base ids (List.replicate ids.length 0) := by
      unfold Heights
      rw [← List.map_const', List.forall₂_map_right_iff, List.forall₂_same]
      exact hids
    refine (run_keeps lines h hstart hheights).bind ?_
    intro ids' g' rank' h' _ hall
    refine .pure h' ?_
    cases hall with
    | nil => exact absurd hlast (Nat.not_succ_le_self limit)
    | cons hfirst hrest =>
      rw [List.getLastD_cons] at hlast ⊢
      exact (Heights.getLastD hrest hfirst).mono (Nat.add_le_add_left hlast base)
  · cases hends

end Line

end LaneGraph
