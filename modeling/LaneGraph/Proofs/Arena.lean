import LaneGraph.Proofs.Evaluation
import LaneGraph.Proofs.Upward
import Mathlib.Logic.Function.Basic

/-!
# Arenas in order

An arena is in order if every operand is in it and ranks below its users. The
positions of nodes are no such ranking: constructors and passes redirect old
nodes to younger ones. So a ranking is carried along. How far a node ranks above
its operands depends on its operation, and there is room for everything that a
pass may put in its place.

What is said about steps holds whether they succeed or fail. In both cases the
arena is still in order, the nodes that were there keep their ranks and do what
they did before, and no step fails because a reference leads nowhere or a bound
is used up.
-/

namespace LaneGraph

open Build

namespace GraphError

/-- The cause is a fault of the steps themselves: a reference that leads out of
the arena, or a bound that was used up. -/
def isFault : GraphError → Bool
  | missingNode _ | unsettled => true
  | _ => false

end GraphError

namespace Operation

/-- What an operation does, without its operands. -/
def head : Operation → Operation
  | unary op _ => unary op 0
  | binary op _ _ => binary op 0 0
  | ternary op _ _ _ => ternary op 0 0 0
  | constant value => constant value
  | input channel => input channel
  | swizzle components _ => swizzle components 0
  | output channel _ => output channel 0
  | call candidates _ => call candidates []
  | construct _ => construct []

/-- By how much an operation ranks above its operands. Operators that passes
write out take the most; conversions, powers of two, saturation and constructors
also occur in what others are written out to. -/
def room : Operation → Nat
  | unary .convert _ | unary .pow2 _ => 3
  | unary .saturate _ => 4
  | unary .negate _ | unary .radToDeg _ | unary .degToRad _ | unary .frac _ | unary .all _
  | unary .any _ | unary .length _ | unary .normalize _ => 16
  | binary .dot _ _ | binary .cross _ _ | binary .reflect _ _ | binary .modulo _ _
  | binary .log _ _ | binary .pow _ _ => 16
  | ternary .select _ _ _ => 1
  | ternary _ _ _ _ => 16
  | construct _ => 2
  | _ => 1

/-- A selection weighs more than what it is replaced by at the same rank. -/
def weight : Operation → Nat
  | swizzle _ _ => 1
  | _ => 0

/-- The room of an operation is seen in its head. -/
@[simp] theorem room_head (op : Operation) : op.head.room = op.room := by
  cases op with
  | unary op x => cases op <;> rfl
  | binary op x y => cases op <;> rfl
  | ternary op x y z => cases op <;> rfl
  | _ => rfl

/-- The weight of an operation is seen in its head. -/
@[simp] theorem weight_head (op : Operation) : op.head.weight = op.weight := by cases op <;> rfl

/-- Operations with the same head have the same room. -/
theorem room_of_head {op op' : Operation} (h : op'.head = op.head) : op'.room = op.room := by
  rw [← room_head, h, room_head]

/-- There is always some room, and never more than sixteen. -/
theorem room_bounds (op : Operation) : 1 ≤ op.room ∧ op.room ≤ 16 := by
  unfold room
  split <;> exact ⟨by decide, by decide⟩

/-- Weights are at most one. -/
theorem weight_le (op : Operation) : op.weight ≤ 1 := by
  unfold weight
  split <;> decide

/-- Replacing an operand does not change the head. -/
@[simp] theorem head_setChild (op : Operation) (index : Nat) (child : NodeId) :
    (op.setChild index child).head = op.head := by
  unfold setChild
  split <;> rfl

/-- Mapping the operands does not change the head. -/
@[simp] theorem head_mapChildren (op : Operation) (f : NodeId → NodeId) :
    (op.mapChildren f).head = op.head := by cases op <;> rfl

/-- Operands after one was replaced. -/
theorem mem_children_setChild {op : Operation} {index : Nat} {child c : NodeId}
    (h : c ∈ (op.setChild index child).children) : c = child ∨ c ∈ op.children := by
  unfold setChild at h
  split at h
  case h_9 | h_10 =>
    rcases List.mem_or_eq_of_mem_set h with h | h
    · exact .inr h
    · exact .inl h
  all_goals
    simp only [children, List.mem_cons, List.not_mem_nil, or_false] at h ⊢
    try tauto

end Operation

namespace Shape

/-- A shape that is brought into bounds has at most four components. -/
theorem width_of_le (kind : Kind) (width : Nat) : (of kind width).width ≤ 4 := by
  unfold of
  split
  · exact Nat.zero_le 4
  · dsimp only
    omega

end Shape

/-- Constants have at most four components. -/
theorem Constant.width_le (value : Constant) : value.shape.width ≤ 4 := by
  unfold Constant.shape
  split
  · exact Shape.width_of_le _ _
  · exact Nat.zero_le 4

/-- The operands of a node are those of its operation. -/
theorem Node.mem_children {n : Node} {op : Operation} (hop : n.op = op) {c : NodeId} :
    c ∈ n.children ↔ c ∈ op.children := by
  unfold children
  rw [hop]

/-- The widest of some shapes is no wider than a bound if none of them is. -/
theorem widest_le {shapes : List Shape} {width : Nat} (hpos : 1 ≤ width)
    (h : ∀ s ∈ shapes, s.width ≤ width) : widest shapes ≤ width := by
  have hfold : ∀ (rest : List Shape) (start : Nat), (∀ s ∈ rest, s.width ≤ width) →
      start ≤ width → rest.foldl (fun w t => max w t.width) start ≤ width := by
    intro rest
    induction rest with
    | nil => exact fun _ _ hstart => hstart
    | cons s rest ih =>
      intro start hrest hstart
      refine ih _ (fun t ht => hrest t (List.mem_cons_of_mem _ ht)) ?_
      exact Nat.max_le.mpr ⟨hstart, hrest s List.mem_cons_self⟩
  cases shapes with
  | nil => exact hpos
  | cons s rest =>
    exact hfold rest s.width (fun t ht => h t (List.mem_cons_of_mem _ ht)) (h s List.mem_cons_self)

/-- The streams that the nodes of an arena may mention. With a vector stream come
the streams of its components. -/
structure Streams where
  /-- Streams that may be read. -/
  reads : Channel → Prop
  /-- Streams that may be written. -/
  writes : Channel → Prop
  reads_component : ∀ {channel : Channel} {c : Component}, reads channel →
    1 < channel.format.count → c.index < channel.format.count → reads (channel.component c)
  writes_component : ∀ {channel : Channel} {c : Component}, writes channel →
    1 < channel.format.count → c.index < channel.format.count → writes (channel.component c)

namespace Streams

/-- All streams may be mentioned. -/
def all : Streams where
  reads _ := True
  writes _ := True
  reads_component _ _ _ := trivial
  writes_component _ _ _ := trivial

/-- An operation of a shape mentions only streams that it may mention; what is read
has the shape of its stream. -/
def Admits (S : Streams) (op : Operation) (shape : Shape) : Prop :=
  match op with
  | .input channel => S.reads channel ∧ shape = channel.format.shape
  | .output channel _ => S.writes channel
  | _ => True

end Streams

variable {S : Streams} {g g' g'' : Graph} {rank rank' rank'' : NodeId → Nat}

/-- The types that an operation accepts, if it is resolved by types. -/
def Operation.types : Operation → List OperatorType
  | .unary op _ => op.types
  | .binary op _ _ => op.types
  | .ternary op _ _ _ => op.types
  | _ => []

/-- The types of an operation are seen in its head. -/
theorem Operation.types_of_head {op op' : Operation} (h : op'.head = op.head) :
    op'.types = op.types := by
  have hhead : ∀ o : Operation, o.head.types = o.types := by
    intro o
    cases o <;> rfl
  rw [← hhead, h, hhead]

/-- What is recorded of an operator that is resolved by types is the position of one of
them. -/
def Node.Recorded (n : Node) : Prop :=
  n.op.types ≠ [] → ∀ k, n.overload = some k → k < n.op.types.length

/-- Nodes of one head for which the same is recorded. -/
theorem Node.Recorded.of_head {n n' : Node} (h : n.Recorded) (hhead : n'.op.head = n.op.head)
    (hoverload : n'.overload = n.overload) : n'.Recorded := by
  unfold Recorded
  rw [Operation.types_of_head hhead, hoverload]
  exact h

/-- Nothing is recorded of a node that is not resolved. -/
theorem Node.recorded_raw (op : Operation) (shape : Shape) : ({ op, shape } : Node).Recorded :=
  fun _ _ hk => nomatch hk

/-- A node is in order at a rank: it is no wider than vectors are, mentions
admitted streams, what is recorded of it is one of its types, and its operands are in the
arena and leave room below. -/
structure NodeOrdered (S : Streams) (g : Graph) (rank : NodeId → Nat) (n : Node) (place : Nat) :
    Prop where
  admits : S.Admits n.op n.shape
  width : n.shape.width ≤ 4
  inputWidth : n.inputWidth ≤ 4
  child : ∀ c ∈ n.children, c < g.nodes.size
  below : ∀ c ∈ n.children, rank c + n.op.room ≤ place
  recorded : n.Recorded

/-- An arena is in order: its nodes are, its outputs write streams, and the
representatives of sharing are in it. -/
structure Ordered (S : Streams) (g : Graph) (rank : NodeId → Nat) : Prop where
  node : ∀ {id : NodeId} {n : Node}, g.node? id = some n → NodeOrdered S g rank n (rank id)
  outputs : ∀ id ∈ g.outputs, ∃ n, g.node? id = some n ∧ n.isOutput = true
  representatives : ∀ entry ∈ g.representatives, entry.2 < g.nodes.size

/-- The arena is in order by some ranking. -/
def Orderly (S : Streams) (g : Graph) : Prop := ∃ rank, Ordered S g rank

/-- An arena goes on: nodes are added, and those that were there keep their ranks
and do what they did. -/
structure Onward (g : Graph) (rank : NodeId → Nat) (g' : Graph) (rank' : NodeId → Nat) :
    Prop where
  size : g.nodes.size ≤ g'.nodes.size
  outputs : g'.outputs = g.outputs
  rank : ∀ id < g.nodes.size, rank' id = rank id
  head : ∀ {id : NodeId} {n : Node}, g.node? id = some n →
    ∃ n', g'.node? id = some n' ∧ n'.op.head = n.op.head

/-- A node is in the arena and ranks no higher than a bound. -/
structure Below (g : Graph) (rank : NodeId → Nat) (bound : Nat) (id : NodeId) : Prop where
  lt : id < g.nodes.size
  le : rank id ≤ bound

/-- A position of the arena has a node. -/
theorem Graph.exists_node {id : NodeId} (h : id < g.nodes.size) : ∃ n, g.node? id = some n :=
  ⟨g.nodes[id], Array.getElem?_eq_getElem h⟩

namespace Onward

/-- Nothing happens. -/
theorem refl (g : Graph) (rank : NodeId → Nat) : Onward g rank g rank :=
  ⟨Nat.le_refl _, rfl, fun _ _ => rfl, fun hn => ⟨_, hn, rfl⟩⟩

/-- Going on twice. -/
theorem trans (h : Onward g rank g' rank') (h' : Onward g' rank' g'' rank'') :
    Onward g rank g'' rank'' where
  size := Nat.le_trans h.size h'.size
  outputs := h'.outputs.trans h.outputs
  rank id hid := (h'.rank id (Nat.lt_of_lt_of_le hid h.size)).trans (h.rank id hid)
  head hn := by
    obtain ⟨n', hn', hhead⟩ := h.head hn
    obtain ⟨n'', hn'', hhead'⟩ := h'.head hn'
    exact ⟨n'', hn'', hhead'.trans hhead⟩

end Onward

namespace Below

variable {bound bound' : Nat} {id : NodeId}

/-- A larger bound is a bound. -/
theorem mono (h : Below g rank bound id) (hle : bound ≤ bound') : Below g rank bound' id :=
  ⟨h.lt, Nat.le_trans h.le hle⟩

/-- Bounds stay. -/
theorem onward (h : Below g rank bound id) (ho : Onward g rank g' rank') :
    Below g' rank' bound id :=
  ⟨Nat.lt_of_lt_of_le h.lt ho.size, by rw [ho.rank id h.lt]; exact h.le⟩

end Below

/-- A node stays in order while the arena goes on. -/
theorem NodeOrdered.onward {n : Node} {place : Nat} (h : NodeOrdered S g rank n place)
    (ho : Onward g rank g' rank') : NodeOrdered S g' rank' n place where
  admits := h.admits
  width := h.width
  inputWidth := h.inputWidth
  child c hc := Nat.lt_of_lt_of_le (h.child c hc) ho.size
  below c hc := by
    rw [ho.rank c (h.child c hc)]
    exact h.below c hc
  recorded := h.recorded

/-- Nodes with the same head do both write a stream, or neither does. -/
theorem Node.isOutput_of_head {m n : Node} (h : m.op.head = n.op.head) :
    m.isOutput = n.isOutput := by
  have hhead : ∀ k : Node, k.isOutput = ({ k with op := k.op.head } : Node).isOutput := by
    intro k
    unfold isOutput
    cases k.op <;> rfl
  rw [hhead m, hhead n]
  unfold isOutput
  dsimp only
  rw [h]

/-- Nodes that write streams go on to write them. -/
theorem Onward.output (h : Onward g rank g' rank') {id : NodeId}
    (hout : ∃ n, g.node? id = some n ∧ n.isOutput = true) :
    ∃ n, g'.node? id = some n ∧ n.isOutput = true := by
  obtain ⟨n, hn, hisOutput⟩ := hout
  obtain ⟨n', hn', hhead⟩ := h.head hn
  exact ⟨n', hn', (Node.isOutput_of_head hhead).trans hisOutput⟩

/-- An arena goes on if its nodes and outputs stay as they are. -/
theorem Onward.of_nodes (hnodes : g'.nodes = g.nodes) (houtputs : g'.outputs = g.outputs) :
    Onward g rank g' rank where
  size := Nat.le_of_eq (congrArg Array.size hnodes.symm)
  outputs := houtputs
  rank _ _ := rfl
  head {id n} hn := by
    refine ⟨n, ?_, rfl⟩
    unfold Graph.node?
    rw [hnodes]
    exact hn

namespace Ordered

/-- The tables of an arena may be changed if its outputs and representatives are nodes
as they should be. -/
theorem of_nodes (h : Ordered S g rank) (hnodes : g'.nodes = g.nodes)
    (houtputs : ∀ id ∈ g'.outputs, ∃ n, g.node? id = some n ∧ n.isOutput = true)
    (hentries : ∀ entry ∈ g'.representatives, entry.2 < g.nodes.size) : Ordered S g' rank := by
  have hnode? : ∀ id, g'.node? id = g.node? id := by
    intro id
    unfold Graph.node?
    rw [hnodes]
  refine ⟨fun {id n} hn => ?_, fun id hid => ?_, fun entry hentry => ?_⟩
  · rw [hnode?] at hn
    have hnode := h.node hn
    refine ⟨hnode.admits, hnode.width, hnode.inputWidth, fun c hc => ?_, hnode.below,
      hnode.recorded⟩
    rw [hnodes]
    exact hnode.child c hc
  · rw [hnode?]
    exact houtputs id hid
  · rw [hnodes]
    exact hentries entry hentry

/-- Operands of a node that is in order are below it. -/
theorem operand (h : Ordered S g rank) {id c : NodeId} {n : Node} (hn : g.node? id = some n)
    (hc : c ∈ n.children) {bound : Nat} (hbound : rank id ≤ bound + n.op.room) :
    Below g rank bound c := by
  have hbelow := (h.node hn).below c hc
  exact ⟨(h.node hn).child c hc, by omega⟩

/-- An arena in order has no cycles. -/
theorem acyclic (h : Ordered S g rank) : g.Acyclic := by
  have huses : ∀ {a b : NodeId}, g.Uses a b → rank b < rank a := by
    rintro a b ⟨n, hn, hb⟩
    have hbelow := (h.node hn).below b hb
    have hroom := n.op.room_bounds.1
    omega
  have htrans : ∀ {a b : NodeId}, Relation.TransGen g.Uses a b → rank b < rank a := by
    intro a b hab
    induction hab with
    | single hstep => exact huses hstep
    | tail _ hstep ih => exact Nat.lt_trans (huses hstep) ih
  exact fun id hcycle => Nat.lt_irrefl _ (htrans hcycle)

/-- A node may be added at a rank that leaves room above its operands. -/
theorem push (h : Ordered S g rank) {n : Node} {place : Nat}
    (hn : NodeOrdered S g rank n place) :
    Ordered S (g.push n) (Function.update rank g.nodes.size place) ∧
      Onward g rank (g.push n) (Function.update rank g.nodes.size place) := by
  have hsize : (g.push n).nodes.size = g.nodes.size + 1 := Array.size_push n
  have hrank : ∀ id < g.nodes.size, Function.update rank g.nodes.size place id = rank id :=
    fun id hid => Function.update_of_ne (Nat.ne_of_lt hid) _ _
  have ho : Onward g rank (g.push n) (Function.update rank g.nodes.size place) :=
    ⟨by rw [hsize]; exact Nat.le_succ _, rfl, hrank,
      fun hm => ⟨_, Graph.node?_push_of_some hm, rfl⟩⟩
  refine ⟨⟨?_, ?_, ?_⟩, ho⟩
  · intro id m hm
    by_cases hid : id < g.nodes.size
    · obtain ⟨k, hk⟩ := Graph.exists_node hid
      rw [Graph.node?_push_of_some hk] at hm
      cases hm
      rw [hrank id hid]
      exact (h.node hk).onward ho
    · have hlt := Graph.lt_size hm
      rw [hsize] at hlt
      obtain rfl : id = g.nodes.size :=
        Nat.le_antisymm (Nat.lt_succ_iff.mp hlt) (Nat.not_lt.mp hid)
      rw [Graph.node?_push_size] at hm
      cases hm
      rw [Function.update_self]
      exact hn.onward ho
  · exact fun id hid => ho.output (h.outputs id hid)
  · intro entry hentry
    rw [hsize]
    exact Nat.lt_succ_of_lt (h.representatives entry hentry)

/-- A node may be replaced by one with the same head that is in order at its
rank. -/
theorem setNode (h : Ordered S g rank) {id : NodeId} {n : Node} (n' : Node)
    (hn : g.node? id = some n) (hhead : n'.op.head = n.op.head)
    (hn' : NodeOrdered S g rank n' (rank id)) :
    Ordered S (g.setNode id n') rank ∧ Onward g rank (g.setNode id n') rank := by
  have hnodes : ∀ {x : NodeId} {m : Node}, g.node? x = some m →
      ∃ m', (g.setNode id n').node? x = some m' ∧ m'.op.head = m.op.head := by
    intro x m hm
    by_cases hx : x = id
    · subst hx
      rw [hn] at hm
      cases hm
      exact ⟨n', Graph.node?_setNode_self n' hn, hhead⟩
    · exact ⟨m, by rw [Graph.node?_setNode_of_ne n' hx]; exact hm, rfl⟩
  have ho : Onward g rank (g.setNode id n') rank :=
    ⟨Nat.le_of_eq (Graph.size_setNode g id n').symm, rfl, fun _ _ => rfl, hnodes⟩
  refine ⟨⟨?_, ?_, ?_⟩, ho⟩
  · intro x m hm
    by_cases hx : x = id
    · subst hx
      rw [Graph.node?_setNode_self n' hn] at hm
      cases hm
      exact hn'.onward ho
    · rw [Graph.node?_setNode_of_ne n' hx] at hm
      exact (h.node hm).onward ho
  · exact fun x hx => ho.output (h.outputs x hx)
  · intro entry hentry
    rw [Graph.size_setNode]
    exact h.representatives entry hentry

end Ordered

/-! ## Steps that keep the order -/

namespace Build

variable {α β : Type} {post : α → Graph → Prop} {exit : GraphError → Graph → Prop}

/-- Steps end with a result and a graph that satisfy one condition, or with a cause
and a graph that satisfy another one. -/
def Lands (steps : Build α) (g : Graph) (post : α → Graph → Prop)
    (exit : GraphError → Graph → Prop) : Prop :=
  match steps.runOn g with
  | (.ok a, g') => post a g'
  | (.error e, g') => exit e g'

/-- Steps that are known to succeed land where they do. -/
theorem lands_of_runOn {steps : Build α} {a : α} (h : steps.runOn g = (.ok a, g')) :
    Lands steps g post exit ↔ post a g' := by
  unfold Lands
  rw [h]

/-- Steps that follow others land as they do from where these land. -/
theorem lands_bind {first : Build α} {next : α → Build β} {post : β → Graph → Prop} :
    Lands (first >>= next) g post exit ↔
      Lands first g (fun a g' => Lands (next a) g' post exit) exit := by
  unfold Lands
  rw [runOn_bind]
  cases hrun : first.runOn g with
  | mk result g' => cases result <;> rfl

/-- Looking at the graph leaves it as it is. -/
theorem lands_get {post : Graph → Graph → Prop} :
    Lands (get : Build Graph) g post exit ↔ post g g := Iff.rfl

/-- Conditions may be weakened. -/
theorem Lands.mono {steps : Build α} {post' : α → Graph → Prop}
    {exit' : GraphError → Graph → Prop} (h : Lands steps g post exit)
    (hpost : ∀ a g', post a g' → post' a g') (hexit : ∀ e g', exit e g' → exit' e g') :
    Lands steps g post' exit' := by
  unfold Lands at h ⊢
  cases hrun : steps.runOn g with
  | mk result g' =>
    rw [hrun] at h
    cases result with
    | ok a => exact hpost a g' h
    | error e => exact hexit e g' h

/-- Where steps land is where they end. -/
theorem Lands.ends {steps : Build α} (h : Lands steps g post exit) :
    Ends steps g post fun _ => True := by
  unfold Lands at h
  unfold Ends
  cases hrun : steps.runOn g with
  | mk result g' =>
    rw [hrun] at h
    cases result with
    | ok a => exact h
    | error e => trivial

end Build

/-- Steps keep the order of an arena: they end with a result in an arena that went
on in order, or with a cause that is no fault and such an arena. -/
def Keeps {α : Type} (S : Streams) (g : Graph) (rank : NodeId → Nat) (steps : Build α)
    (post : α → Graph → (NodeId → Nat) → Prop) : Prop :=
  Lands steps g
    (fun a g' => ∃ rank', Ordered S g' rank' ∧ Onward g rank g' rank' ∧ post a g' rank')
    (fun e g' => e.isFault = false ∧ ∃ rank', Ordered S g' rank' ∧ Onward g rank g' rank')

namespace Keeps

variable {α β : Type} {post : α → Graph → (NodeId → Nat) → Prop}

/-- A condition may be weakened. -/
theorem mono {steps : Build α} {post' : α → Graph → (NodeId → Nat) → Prop}
    (h : Keeps S g rank steps post)
    (himp : ∀ a g' rank', Ordered S g' rank' → Onward g rank g' rank' → post a g' rank' →
      post' a g' rank') : Keeps S g rank steps post' := by
  refine Lands.mono h ?_ fun _ _ he => he
  rintro a g' ⟨rank', h', ho, hpost⟩
  exact ⟨rank', h', ho, himp a g' rank' h' ho hpost⟩

/-- A bare result. -/
theorem pure (h : Ordered S g rank) {a : α} (hpost : post a g rank) :
    Keeps S g rank (Pure.pure a) post := ⟨rank, h, Onward.refl g rank, hpost⟩

/-- A failure that is no fault. -/
theorem throw (h : Ordered S g rank) {e : GraphError} (he : e.isFault = false) :
    Keeps S g rank (MonadExcept.throw e : Build α) post :=
  ⟨he, rank, h, Onward.refl g rank⟩

/-- Steps that follow others keep the order if they do so from where these end. -/
theorem bind {first : Build α} {next : α → Build β} {post' : β → Graph → (NodeId → Nat) → Prop}
    (h : Keeps S g rank first post)
    (hnext : ∀ a g' rank', Ordered S g' rank' → Onward g rank g' rank' → post a g' rank' →
      Keeps S g' rank' (next a) post') : Keeps S g rank (first >>= next) post' := by
  unfold Keeps
  rw [lands_bind]
  refine Lands.mono h ?_ fun _ _ he => he
  rintro a g' ⟨rank', h', ho, hpost⟩
  refine Lands.mono (hnext a g' rank' h' ho hpost) ?_ ?_
  · rintro b g'' ⟨rank'', h'', ho', hpost'⟩
    exact ⟨rank'', h'', ho.trans ho', hpost'⟩
  · rintro e g'' ⟨he, rank'', h'', ho'⟩
    exact ⟨he, rank'', h'', ho.trans ho'⟩

/-- What follows a question with an answer. -/
theorem ask {question : Graph → Except GraphError α} {next : α → Build β} {a : α}
    {post : β → Graph → (NodeId → Nat) → Prop} (ha : question g = .ok a)
    (h : Keeps S g rank (next a) post) : Keeps S g rank (Build.ask question >>= next) post := by
  unfold Keeps
  rw [lands_bind, lands_of_runOn (runOn_ask ha)]
  exact h

/-- A question that is refused ends the steps. -/
theorem refuse (h : Ordered S g rank) {question : Graph → Except GraphError α}
    {next : α → Build β} {e : GraphError} {post : β → Graph → (NodeId → Nat) → Prop}
    (hquestion : question g = .error e) (he : e.isFault = false) :
    Keeps S g rank (Build.ask question >>= next) post := by
  have hrun : (Build.ask question).runOn g = (.error e, g) := by
    unfold Build.ask
    rw [runOn_bind]
    have hget : (MonadState.get : Build Graph).runOn g = (.ok g, g) := rfl
    rw [hget]
    dsimp only
    rw [hquestion]
    rfl
  unfold Keeps Lands
  rw [runOn_bind, hrun]
  exact ⟨he, rank, h, Onward.refl g rank⟩

/-- What follows the look at a node of the arena. -/
theorem node {id : NodeId} {n : Node} {next : Node → Build β}
    {post : β → Graph → (NodeId → Nat) → Prop} (hn : g.node? id = some n)
    (h : Keeps S g rank (next n) post) : Keeps S g rank (Build.node id >>= next) post := by
  unfold Keeps
  rw [lands_bind, lands_of_runOn (runOn_node hn)]
  exact h

/-- What follows the look at the shape of a node of the arena. -/
theorem shape {id : NodeId} {n : Node} {next : Shape → Build β}
    {post : β → Graph → (NodeId → Nat) → Prop} (hn : g.node? id = some n)
    (h : Keeps S g rank (next n.shape) post) : Keeps S g rank (Build.shape id >>= next) post := by
  unfold Build.shape
  rw [bind_assoc]
  exact node hn h

/-- What follows the look at the graph. -/
theorem get {next : Graph → Build β} {post : β → Graph → (NodeId → Nat) → Prop}
    (h : Keeps S g rank (next g) post) : Keeps S g rank (MonadState.get >>= next) post := by
  unfold Keeps
  rw [lands_bind]
  exact h

/-- A change of the graph that keeps it in order. -/
theorem change {f : Graph → Graph} (h : Ordered S (f g) rank ∧ Onward g rank (f g) rank) :
    Keeps S g rank (modify f) fun _ g' rank' => g' = f g ∧ rank' = rank :=
  ⟨rank, h.1, h.2, rfl, rfl⟩

/-- One step after the other on the members of a list; what holds of the results goes
on to hold. -/
theorem mapM {f : α → Build β} {P : Graph → (NodeId → Nat) → β → Prop} {xs : List α}
    (h : Ordered S g rank)
    (hkept : ∀ {g g' : Graph} {rank rank' : NodeId → Nat} {y : β}, Onward g rank g' rank' →
      P g rank y → P g' rank' y)
    (hf : ∀ x ∈ xs, ∀ {g' : Graph} {rank' : NodeId → Nat}, Ordered S g' rank' →
      Onward g rank g' rank' → Keeps S g' rank' (f x) fun y g'' rank'' => P g'' rank'' y) :
    Keeps S g rank (xs.mapM f) fun ys g' rank' => ∀ y ∈ ys, P g' rank' y := by
  induction xs generalizing g rank with
  | nil => exact pure h fun _ hy => (nomatch hy)
  | cons x xs ih =>
    rw [List.mapM_cons]
    refine bind (hf x List.mem_cons_self h (Onward.refl g rank)) ?_
    intro y g₁ rank₁ h₁ ho₁ hy
    refine bind (ih h₁ fun z hz _ _ h' ho' =>
      hf z (List.mem_cons_of_mem _ hz) h' (ho₁.trans ho')) ?_
    intro ys g₂ rank₂ h₂ ho₂ hys
    refine pure h₂ fun z hz => ?_
    rcases List.mem_cons.mp hz with rfl | hz
    · exact hkept ho₂ hy
    · exact hys z hz

/-- One step after the other on the members of a list, for their effects. -/
theorem forM {f : α → Build Unit} {P : Graph → (NodeId → Nat) → Prop} {xs : List α}
    (h : Ordered S g rank) (hP : P g rank)
    (hf : ∀ x ∈ xs, ∀ {g' : Graph} {rank' : NodeId → Nat}, Ordered S g' rank' →
      Onward g rank g' rank' → P g' rank' →
      Keeps S g' rank' (f x) fun _ g'' rank'' => P g'' rank'') :
    Keeps S g rank (xs.forM f) fun _ g' rank' => P g' rank' := by
  induction xs generalizing g rank with
  | nil => exact pure h hP
  | cons x xs ih =>
    refine bind (hf x List.mem_cons_self h (Onward.refl g rank) hP) ?_
    intro _ g₁ rank₁ h₁ ho₁ hP₁
    exact ih h₁ hP₁ fun z hz _ _ h' ho' =>
      hf z (List.mem_cons_of_mem _ hz) h' (ho₁.trans ho')

end Keeps

end LaneGraph
