import LaneGraph.Graph.Build
import LaneGraph.Proofs.Results

/-!
# Steps that change a graph

What can be said about steps is where they end: with a cause for which a graph
may be refused, or with a result and a graph that satisfy a condition. Steps
that follow one another are described one by one, so that the ends of a whole
sequence are found by rewriting.
-/

namespace LaneGraph

/-- Causes for which a graph made by its factories may be refused. All others
are faults of the passes themselves. -/
def GraphError.IsRefusal : GraphError → Prop
  | noMatchingOverload _ | implicitConversion _ _ | crossRequiresThree _
  | invalidSubscript _ _ _ | scalarizationFailed _ => True
  | _ => False

instance (e : GraphError) : Decidable e.IsRefusal := by
  cases e <;> unfold GraphError.IsRefusal <;> infer_instance

namespace Graph

/-- The graph with one more node. -/
def push (g : Graph) (n : Node) : Graph := { g with nodes := g.nodes.push n }

/-- Nodes that were there keep their places when one is added. -/
theorem node?_push_of_some {g : Graph} {n m : Node} {id : NodeId} (h : g.node? id = some m) :
    (g.push n).node? id = some m := by
  have hlt : id < g.nodes.size := (Array.getElem?_eq_some_iff.mp h).1
  unfold node? push
  rw [Array.getElem?_push, if_neg (Nat.ne_of_lt hlt)]
  exact h

/-- The node that is added stands at the end. -/
@[simp] theorem node?_push_size (g : Graph) (n : Node) :
    (g.push n).node? g.nodes.size = some n := Array.getElem?_push_size

/-- A node of the arena with one more node was there, or it is the one that is added. -/
theorem node?_push_cases {g : Graph} {n m : Node} {id : NodeId} (h : (g.push n).node? id = some m) :
    g.node? id = some m ∨ m = n := by
  unfold node? push at h
  rw [Array.getElem?_push] at h
  split at h
  · exact .inr (Option.some.inj h).symm
  · exact .inl h

/-- A node is in the arena at a position below its size. -/
theorem lt_size {g : Graph} {id : NodeId} {n : Node} (h : g.node? id = some n) :
    id < g.nodes.size := (Array.getElem?_eq_some_iff.mp h).1

/-- A replaced node is found in its place. -/
theorem node?_setNode_self {g : Graph} {id : NodeId} {m : Node} (n : Node)
    (h : g.node? id = some m) : (g.setNode id n).node? id = some n := by
  unfold node? setNode
  rw [Array.getElem?_setIfInBounds, if_pos rfl, if_pos (lt_size h)]

/-- Other nodes stay when one is replaced. -/
theorem node?_setNode_of_ne {g : Graph} {id other : NodeId} (n : Node) (h : other ≠ id) :
    (g.setNode id n).node? other = g.node? other := by
  unfold node? setNode
  rw [Array.getElem?_setIfInBounds, if_neg (Ne.symm h)]

/-- Replacing a node keeps the size of the arena. -/
@[simp] theorem size_setNode (g : Graph) (id : NodeId) (n : Node) :
    (g.setNode id n).nodes.size = g.nodes.size := Array.size_setIfInBounds

/-- A node that is replaced by itself changes nothing. -/
theorem setNode_self {g : Graph} {id : NodeId} {n : Node} (h : g.node? id = some n) :
    g.setNode id n = g := by
  unfold setNode
  have hnodes : g.nodes.setIfInBounds id n = g.nodes := by
    apply Array.ext_getElem?
    intro k
    rw [Array.getElem?_setIfInBounds]
    split
    · rename_i heq
      subst heq
      rw [if_pos (lt_size h)]
      exact h.symm
    · rfl
  rw [hnodes]

end Graph

namespace Build

variable {α β : Type} {g : Graph} {post : α → Graph → Prop} {refused : GraphError → Prop}

/-- Steps on a graph end with a cause that is accepted, or with a result and a graph
that satisfy a condition. Unless other causes are named, those for which a graph may
be refused are accepted. -/
def Ends (steps : Build α) (g : Graph) (post : α → Graph → Prop)
    (refused : GraphError → Prop := GraphError.IsRefusal) : Prop :=
  match steps.runOn g with
  | (.ok a, g') => post a g'
  | (.error e, _) => refused e

/-- A bare result leaves the graph as it is. -/
@[simp] theorem runOn_pure (a : α) : (pure a : Build α).runOn g = (.ok a, g) := rfl

/-- Steps that follow others run on the graph that these left, if they did not
fail. -/
theorem runOn_bind (first : Build α) (next : α → Build β) :
    (first >>= next).runOn g =
      match first.runOn g with
      | (.ok a, g') => (next a).runOn g'
      | (.error e, g') => (.error e, g') := by
  unfold runOn
  rw [ExceptT.run_bind, StateT.run_bind]
  cases hrun : StateT.run (ExceptT.run first) g with
  | mk result g' => cases result <;> rfl

/-- A bare result ends as it is. -/
@[simp] theorem ends_pure (a : α) : Ends (pure a) g post refused ↔ post a g := Iff.rfl

/-- Steps that follow others end as they do from where these end. -/
@[simp] theorem ends_bind {first : Build α} {next : α → Build β} {post : β → Graph → Prop} :
    Ends (first >>= next) g post refused ↔
      Ends first g (fun a g' => Ends (next a) g' post refused) refused := by
  unfold Ends
  rw [runOn_bind]
  cases hrun : first.runOn g with
  | mk result g' => cases result <;> rfl

/-- A failure ends with its cause. -/
@[simp] theorem ends_throw (e : GraphError) :
    Ends (throw e : Build α) g post refused ↔ refused e := Iff.rfl

/-- Looking at the graph leaves it as it is. -/
@[simp] theorem ends_get {post : Graph → Graph → Prop} :
    Ends (get : Build Graph) g post refused ↔ post g g := Iff.rfl

/-- Replacing the graph. -/
@[simp] theorem ends_set (g' : Graph) {post : Unit → Graph → Prop} :
    Ends (set g' : Build Unit) g post refused ↔ post () g' := Iff.rfl

/-- Changing the graph. -/
@[simp] theorem ends_modify (f : Graph → Graph) {post : Unit → Graph → Prop} :
    Ends (modify f : Build Unit) g post refused ↔ post () (f g) := Iff.rfl

/-- Weaker conditions for results and for causes. -/
theorem Ends.imp {steps : Build α} {post' : α → Graph → Prop} {refused' : GraphError → Prop}
    (h : Ends steps g post refused) (himp : ∀ a g', post a g' → post' a g')
    (hrefused : ∀ e, refused e → refused' e) : Ends steps g post' refused' := by
  unfold Ends at h ⊢
  cases hrun : steps.runOn g with
  | mk result g' =>
    rw [hrun] at h
    cases result with
    | ok a => exact himp a g' h
    | error e => exact hrefused e h

/-- A result with a weaker condition. -/
theorem Ends.mono {steps : Build α} {post' : α → Graph → Prop} (h : Ends steps g post refused)
    (himp : ∀ a g', post a g' → post' a g') : Ends steps g post' refused :=
  h.imp himp fun _ he => he

/-- Steps that end well do so whatever the causes to fail are. -/
theorem Ends.any {steps : Build α} (h : Ends steps g post refused) :
    Ends steps g post fun _ => True := h.imp (fun _ _ h => h) fun _ _ => trivial

/-- Two conditions that steps end with hold together. -/
theorem Ends.and {steps : Build α} {post' : α → Graph → Prop} (h : Ends steps g post refused)
    (h' : Ends steps g post' refused) : Ends steps g (fun a g' => post a g' ∧ post' a g') refused := by
  unfold Ends at h h' ⊢
  cases hrun : steps.runOn g with
  | mk result g' =>
    rw [hrun] at h h'
    cases result with
    | ok a => exact ⟨h, h'⟩
    | error e => exact h

/-- Steps that are known to succeed end where they do. -/
theorem ends_of_runOn {steps : Build α} {a : α} {g' : Graph} (h : steps.runOn g = (.ok a, g')) :
    Ends steps g post refused ↔ post a g' := by
  unfold Ends
  rw [h]

/-- What holds at the end of steps that succeed. -/
theorem Ends.of_runOn {steps : Build α} (h : Ends steps g post refused) {a : α} {g' : Graph}
    (hrun : steps.runOn g = (.ok a, g')) : post a g' := (ends_of_runOn hrun).mp h

/-- Steps with a result end on the graph that they lead to. -/
theorem runOn_eq {steps : Build α} {a : α} (h : (steps.runOn g).1 = .ok a) :
    steps.runOn g = (.ok a, (steps.runOn g).2) := Prod.ext h rfl

/-- Steps that accept no cause to fail succeed. -/
theorem Ends.succeeds {steps : Build α} (h : Ends steps g post fun _ => False) :
    ∃ a g', steps.runOn g = (.ok a, g') ∧ post a g' := by
  unfold Ends at h
  cases hrun : steps.runOn g with
  | mk result g' =>
    rw [hrun] at h
    cases result with
    | ok a => exact ⟨a, g', rfl, h⟩
    | error e => exact h.elim

/-- A question with an answer. -/
theorem runOn_ask {question : Graph → Except GraphError α} {a : α} (h : question g = .ok a) :
    (ask question).runOn g = (.ok a, g) := by
  unfold ask
  rw [runOn_bind]
  have hget : (get : Build Graph).runOn g = (.ok g, g) := rfl
  rw [hget]
  dsimp only
  rw [h]
  rfl

/-- A node of the arena is found. -/
theorem runOn_node {id : NodeId} {n : Node} (h : g.node? id = some n) :
    (node id).runOn g = (.ok n, g) :=
  runOn_ask (by unfold Graph.node; rw [h])

/-- A question with an answer ends with it. -/
theorem ends_ask {question : Graph → Except GraphError α} {a : α} (h : question g = .ok a) :
    Ends (ask question) g post refused ↔ post a g := ends_of_runOn (runOn_ask h)

/-- Where every cause to fail is accepted, a question matters if it has an answer. -/
theorem ends_ask_any {question : Graph → Except GraphError α} :
    Ends (ask question) g post (fun _ => True) ↔ ∀ a, question g = .ok a → post a g := by
  unfold ask
  rw [ends_bind, ends_get]
  cases question g with
  | error e => exact ⟨fun _ _ h => (nomatch h), fun _ => trivial⟩
  | ok a => exact ⟨fun h _ ha => by cases ha; exact h, fun h => h a rfl⟩

/-- A node of the arena is found. -/
theorem ends_node {post : Node → Graph → Prop} {id : NodeId} {n : Node}
    (h : g.node? id = some n) : Ends (node id) g post refused ↔ post n g :=
  ends_of_runOn (runOn_node h)

/-- The shape of a node of the arena is found. -/
theorem ends_shape {post : Shape → Graph → Prop} {id : NodeId} {n : Node}
    (h : g.node? id = some n) : Ends (shape id) g post refused ↔ post n.shape g := by
  unfold shape
  rw [ends_bind, ends_node h, ends_pure]

/-- A node of the arena is changed. -/
theorem ends_modifyNode {post : Unit → Graph → Prop} {id : NodeId} {n : Node} {f : Node → Node}
    (h : g.node? id = some n) :
    Ends (modifyNode id f) g post refused ↔ post () (g.setNode id (f n)) := by
  unfold modifyNode
  rw [ends_bind, ends_node h, ends_modify]

/-- An operand of a node of the arena is replaced. -/
theorem ends_setChild {post : Unit → Graph → Prop} {id : NodeId} {n : Node} {index : Nat}
    {child : NodeId} (h : g.node? id = some n) :
    Ends (setChild id index child) g post refused ↔
      post () (g.setNode id (n.setChild index child)) := by
  unfold setChild
  exact ends_modifyNode h

/-- A node is added at the end of the arena. -/
theorem runOn_append (n : Node) : (append n).runOn g = (.ok g.nodes.size, g.push n) := rfl

/-- A node is added at the end of the arena. -/
@[simp] theorem ends_append {post : NodeId → Graph → Prop} (n : Node) :
    Ends (append n) g post refused ↔ post g.nodes.size (g.push n) := Iff.rfl

end Build

end LaneGraph
