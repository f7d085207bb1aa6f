import LaneGraph.Machine.Basic
import LaneGraph.Operator.Meaning
import LaneGraph.Proofs.Results
import LaneGraph.Proofs.Walk
import Mathlib.Data.Finset.Card

/-!
# Evaluating a graph directly

A finished graph has a value without any program: a literal is its own pattern,
an input is what its stream holds, and every operator is applied to the values
of its operands. The evaluation recurses along operands, so it is bounded by a
depth; on a graph without cycles a depth above the number of nodes changes
nothing any more.
-/

namespace LaneGraph

namespace UnaryOp

/-- The function of lane patterns that an operator stands for, by the kinds of
its operand and of its result. -/
def pattern? (op : UnaryOp) (operand result : Kind) : Option (UInt32 → UInt32) :=
  match op, operand, result with
  | convert, .int, .float => some (Pattern.ofIntToFloat Single.ofInt32)
  | convert, .float, .int => some (Pattern.ofFloatToInt Single.toInt32)
  | convert, _, _ => none
  | op, .float, _ => op.onFloat?.map Pattern.ofFloat
  | op, .int, _ => op.onInt?.map Pattern.ofInt
  | op, .bool, _ => op.onBool?.map Pattern.ofBool
  | _, .unknown, _ => none

end UnaryOp

namespace BinaryOp

/-- The operation on lane patterns that an operator stands for, by the kind of
its operands. -/
def pattern? (op : BinaryOp) : Kind → Option (UInt32 → UInt32 → UInt32)
  | .float => (op.onFloats?.map Pattern.ofFloats).or (op.testFloats?.map Pattern.ofFloatTest)
  | .int => (op.onInts?.map Pattern.ofInts).or (op.testInts?.map Pattern.ofIntTest)
  | .bool => op.onBools?.map Pattern.ofBools
  | .unknown => none

end BinaryOp

/-- What nodes refer to besides other nodes. -/
structure Setting (batches : Nat) where
  /-- The values of a stream over all batches, by its name. -/
  input : String → Option (Column batches)
  /-- The native function of a signature. -/
  native : Signature → Option Native
  /-- The named values that functions can see. -/
  globals : Globals

namespace Graph

variable {batches : Nat}

/-- The kind of a node; unknown if there is no such node. -/
def kindAt (g : Graph) (id : NodeId) : Kind :=
  match g.node? id with
  | some n => n.shape.kind
  | none => .unknown

/-- The value of a node from the values of its operands. -/
def nodeColumn? (g : Graph) (world : Setting batches) (value : NodeId → Option (Column batches))
    (n : Node) : Option (Column batches) :=
  match n.op with
  | .constant c => c.scalar?.map fun s => Vector.replicate batches (Lanes.splat s.bits)
  | .input channel => world.input channel.name
  | .output _ source => value source
  | .unary op operand => do
    let f ← op.pattern? (g.kindAt operand) n.shape.kind
    let x ← value operand
    return x.map (Lanes.map f)
  | .binary op left right => do
    let f ← op.pattern? (g.kindAt left)
    let x ← value left
    let y ← value right
    return zipColumns (Lanes.zip f) x y
  | .ternary .select condition ifTrue ifFalse => do
    let mask ← value condition
    let x ← value ifTrue
    let y ← value ifFalse
    return selectColumns mask x y
  | .call _ arguments => do
    let signature ← g.chosen? n
    let native ← world.native signature
    let columns ← arguments.mapM value
    return native.run batches columns world.globals
  | .ternary _ _ _ _ | .swizzle _ _ | .construct _ => none

/-- The value of a node, following operands up to a depth. -/
def columnTo? (g : Graph) (world : Setting batches) : Nat → NodeId → Option (Column batches)
  | 0, _ => none
  | depth + 1, id => (g.node? id).bind (g.nodeColumn? world (g.columnTo? world depth))

/-- The value of a node. -/
def column? (g : Graph) (world : Setting batches) (id : NodeId) : Option (Column batches) :=
  g.columnTo? world g.walkDepth id

/-- The value of a node depends on its operands only. -/
theorem nodeColumn?_congr {g : Graph} {world : Setting batches}
    {value value' : NodeId → Option (Column batches)} {n : Node}
    (h : ∀ c ∈ n.children, value c = value' c) :
    g.nodeColumn? world value n = g.nodeColumn? world value' n := by
  unfold Node.children at h
  unfold nodeColumn?
  cases hop : n.op with
  | unary op x =>
    rw [hop] at h
    dsimp only
    rw [h x (by simp [Operation.children])]
  | binary op l r =>
    rw [hop] at h
    dsimp only
    rw [h l (by simp [Operation.children]), h r (by simp [Operation.children])]
  | ternary op a b c =>
    rw [hop] at h
    cases op with
    | select =>
      dsimp only
      rw [h a (by simp [Operation.children]), h b (by simp [Operation.children]),
        h c (by simp [Operation.children])]
    | _ => rfl
  | output channel x =>
    rw [hop] at h
    exact h x (by simp [Operation.children])
  | call candidates arguments =>
    rw [hop] at h
    dsimp only
    have harguments : ∀ c ∈ arguments, value c = value' c := h
    rw [mapM_congr_of_mem harguments]
  | constant _ | input _ | swizzle _ _ | construct _ => rfl

/-- The second node is an operand of the first. -/
def Uses (g : Graph) (a b : NodeId) : Prop := ∃ n, g.node? a = some n ∧ b ∈ n.children

/-- The outputs depend on a node. -/
def Needs (g : Graph) (id : NodeId) : Prop :=
  ∃ output ∈ g.outputs, Relation.ReflTransGen g.Uses output id

/-- No node is needed for its own value. -/
def Acyclic (g : Graph) : Prop := ∀ id, ¬Relation.TransGen g.Uses id id

/-- The operands of the nodes of a closed set are in the set and have lower
ranks. -/
def Ranked (g : Graph) (live : NodeId → Prop) (rank : NodeId → Nat) : Prop :=
  ∀ id n, live id → g.node? id = some n → ∀ c ∈ n.children, live c ∧ rank c < rank id

/-- The nodes of the arena that the value of a node needs. -/
noncomputable def needed (g : Graph) (id : NodeId) : Finset NodeId :=
  open Classical in (Finset.range g.nodes.size).filter (Relation.TransGen g.Uses id)

/-- What is needed is in the arena and leads down from the node. -/
theorem mem_needed {g : Graph} {id j : NodeId} :
    j ∈ g.needed id ↔ j < g.nodes.size ∧ Relation.TransGen g.Uses id j := by
  simp only [needed, Finset.mem_filter, Finset.mem_range]

/-- A node of the arena ranks above the nodes that its value needs. -/
noncomputable def needRank (g : Graph) (id : NodeId) : Nat :=
  if id < g.nodes.size then 1 + (g.needed id).card else 0

namespace Acyclic

variable {g : Graph}

/-- The ranks of an arena without cycles are no larger than the arena. -/
theorem needRank_le (h : g.Acyclic) (id : NodeId) : g.needRank id ≤ g.nodes.size := by
  unfold needRank
  split
  · rename_i hlt
    have hsub : g.needed id ⊂ Finset.range g.nodes.size := by
      rw [Finset.ssubset_iff_of_subset fun j hj => Finset.mem_range.mpr (mem_needed.mp hj).1]
      exact ⟨id, Finset.mem_range.mpr hlt, fun hmem => h id (mem_needed.mp hmem).2⟩
    have hcard := Finset.card_lt_card hsub
    rw [Finset.card_range] at hcard
    omega
  · omega

/-- An arena without cycles is ranked by need. -/
theorem ranked (h : g.Acyclic) : g.Ranked (fun _ => True) g.needRank := by
  intro id n _ hn c hc
  refine ⟨trivial, ?_⟩
  have huse : g.Uses id c := ⟨n, hn, hc⟩
  have hid : id < g.nodes.size := (Array.getElem?_eq_some_iff.mp hn).1
  unfold needRank
  rw [if_pos hid]
  split
  · rename_i hlt
    have hsub : g.needed c ⊂ g.needed id := by
      rw [Finset.ssubset_iff_of_subset]
      · exact ⟨c, mem_needed.mpr ⟨hlt, .single huse⟩, fun hmem => h c (mem_needed.mp hmem).2⟩
      · intro j hj
        obtain ⟨hrange, hreach⟩ := mem_needed.mp hj
        exact mem_needed.mpr ⟨hrange, .head huse hreach⟩
    have hcard := Finset.card_lt_card hsub
    omega
  · omega

/-- An arena without cycles that holds all operands of its nodes is graded by need. -/
theorem graded (h : g.Acyclic)
    (hclosed : ∀ id n, g.node? id = some n → ∀ c ∈ n.children, c < g.nodes.size) :
    Graded (fun id => (g.node id).map Node.children) (· < g.nodes.size) g.needRank := by
  intro id next _ hnext c hc
  obtain ⟨n, hn, rfl⟩ := node?_of_children hnext
  exact ⟨hclosed id n hn c hc, (h.ranked id n trivial hn c hc).2⟩

end Acyclic

/-- Where operands stand before their users there are no cycles. -/
theorem acyclic_of_before {g : Graph}
    (h : ∀ p ∈ g.nodes.toList.zipIdx, ∀ c ∈ p.1.children, c < p.2) : g.Acyclic := by
  have hlower : ∀ a b, g.Uses a b → b < a := by
    rintro a b ⟨n, hn, hb⟩
    refine h (n, a) ?_ b hb
    rw [List.mem_zipIdx_iff_getElem?, Array.getElem?_toList]
    exact hn
  have htrans : ∀ a b, Relation.TransGen g.Uses a b → b < a := by
    intro a b h
    induction h with
    | single huse => exact hlower _ _ huse
    | tail _ huse ih => exact Nat.lt_trans (hlower _ _ huse) ih
  exact fun id hcycle => Nat.lt_irrefl id (htrans id id hcycle)

namespace Ranked

variable {g : Graph} {world : Setting batches} {live : NodeId → Prop} {rank : NodeId → Nat}

/-- A depth above the rank of a node does not matter for its value. -/
theorem columnTo?_eq (h : g.Ranked live rank) :
    ∀ (depth depth' : Nat) (id : NodeId), live id → rank id < depth → rank id < depth' →
      g.columnTo? world depth id = g.columnTo? world depth' id := by
  intro depth
  induction depth with
  | zero => intro depth' id _ hlt; omega
  | succ depth ih =>
    intro depth' id hlive hlt hlt'
    cases depth' with
    | zero => omega
    | succ depth' =>
      rw [columnTo?, columnTo?]
      cases hn : g.node? id with
      | none => rfl
      | some n =>
        rw [Option.bind_some, Option.bind_some]
        apply nodeColumn?_congr
        intro c hc
        obtain ⟨hc', hrank⟩ := h id n hlive hn c hc
        exact ih depth' c hc' (by omega) (by omega)

/-- The value of a node is that of its operation on the values of its
operands. -/
theorem column?_eq (h : g.Ranked live rank) (hrank : ∀ id, live id → rank id ≤ g.nodes.size)
    {id : NodeId} {n : Node} (hlive : live id) (hn : g.node? id = some n) :
    g.column? world id = g.nodeColumn? world (g.column? world) n := by
  have hdepth : ∀ c, live c → rank c < g.walkDepth := fun c hc => by
    have := hrank c hc
    rw [walkDepth]
    omega
  calc g.column? world id
      = g.columnTo? world (g.walkDepth + 1) id :=
        h.columnTo?_eq _ _ id hlive (hdepth id hlive) (by have := hdepth id hlive; omega)
    _ = g.nodeColumn? world (g.column? world) n := by
        rw [columnTo?, hn, Option.bind_some]
        rfl

end Ranked

end Graph

end LaneGraph
