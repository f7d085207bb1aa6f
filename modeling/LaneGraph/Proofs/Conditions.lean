import LaneGraph.Proofs.Closure

/-!
# Conditions on nodes, and upward sweeps that bring them about

A condition is about one node, and it may depend on what the node sees of its operands:
where they are, which shapes they have and which literals they are. A graph obeys a
condition if all nodes do that its outputs depend on. While a sweep is under way, some
of its nodes obey the new condition already, as do all nodes that are added, and their
operands are among them; the others are as they were. So it is enough to know what
replacing one node achieves when its operands obey the new condition.

Nothing is said here about steps that fail. Whether they may fail, and with which causes,
does not matter to what holds of a graph that has passed.
-/

namespace LaneGraph

open Build

/-- What a node sees of an operand. -/
structure Look where
  /-- Where it is. -/
  id : NodeId
  /-- Its shape. -/
  shape : Shape
  /-- The literal that it is, if it is one. -/
  literal : Option Constant

/-- What is asked of the frame of a node, given the function table and what it sees of its
operands. -/
abbrev Condition := List Signature → Node → List Look → Prop

namespace Graph

/-- The literal at a position. -/
def constantAt (g : Graph) (id : NodeId) : Option Constant := (g.node? id).bind Node.constant?

/-- What is seen of a position. -/
def lookAt (g : Graph) (id : NodeId) : Look := ⟨id, g.shapeAt id, g.constantAt id⟩

/-- The node and its operands meet the condition. -/
def Meets (g : Graph) (P : Condition) (n : Node) : Prop :=
  P g.functions n.frame (n.children.map g.lookAt)

/-- All nodes that the outputs depend on are there, and they meet the condition. -/
def Obeys (g : Graph) (P : Condition) : Prop :=
  ∀ id, g.Needs id → ∃ n, g.node? id = some n ∧ g.Meets P n

variable {g g' : Graph} {id : NodeId} {n : Node}

/-- What is seen of a node is in its frame. -/
theorem lookAt_eq (h : g.node? id = some n) : g.lookAt id = ⟨id, n.shape, n.constant?⟩ := by
  unfold lookAt constantAt
  rw [shapeAt_eq h, h, Option.bind_some]

/-- Nodes of one frame look alike. -/
theorem lookAt_of_frame {m : Node} (hm : g'.node? id = some m) (hn : g.node? id = some n)
    (hframe : m.frame = n.frame) : g'.lookAt id = g.lookAt id := by
  rw [lookAt_eq hm, lookAt_eq hn, ← m.constant?_frame, ← m.shape_frame, hframe]
  simp

/-- A weaker condition is obeyed. -/
theorem Obeys.imp {P Q : Condition} (h : g.Obeys P) (himp : ∀ functions m looks,
    P functions m looks → Q functions m looks) : g.Obeys Q := by
  intro id hid
  obtain ⟨n, hn, hmeets⟩ := h id hid
  exact ⟨n, hn, himp _ _ _ hmeets⟩

end Graph

/-- Of the nodes that were there some stay, and others are only added. -/
structure Keeping (kept : NodeId → Prop) (g g' : Graph) : Prop where
  functions : g'.functions = g.functions
  outputs : g'.outputs = g.outputs
  size : g.nodes.size ≤ g'.nodes.size
  node : ∀ id n, kept id → g.node? id = some n → g'.node? id = some n

namespace Keeping

variable {kept kept' : NodeId → Prop} {g g' g'' : Graph}

/-- Doing nothing keeps all nodes. -/
theorem refl (kept : NodeId → Prop) (g : Graph) : Keeping kept g g :=
  ⟨rfl, rfl, Nat.le_refl _, fun _ _ _ hn => hn⟩

/-- Nodes that are kept twice are kept. -/
theorem trans (h : Keeping kept g g') (h' : Keeping kept g' g'') : Keeping kept g g'' where
  functions := h'.functions.trans h.functions
  outputs := h'.outputs.trans h.outputs
  size := Nat.le_trans h.size h'.size
  node id n hid hn := h'.node id n hid (h.node id n hid hn)

/-- Fewer nodes are kept if more are. -/
theorem mono (h : Keeping kept g g') (hkept : ∀ id, kept' id → kept id) : Keeping kept' g g' :=
  ⟨h.functions, h.outputs, h.size, fun id n hid => h.node id n (hkept id hid)⟩

/-- Adding a node keeps all others. -/
theorem push (kept : NodeId → Prop) (g : Graph) (n : Node) : Keeping kept g (g.push n) :=
  ⟨rfl, rfl, by unfold Graph.push; rw [Array.size_push]; exact Nat.le_succ _,
    fun _ _ _ hm => Graph.node?_push_of_some hm⟩

/-- Replacing a node keeps all others. -/
theorem setNode (g : Graph) (id : NodeId) (n : Node) : Keeping (· ≠ id) g (g.setNode id n) :=
  ⟨rfl, rfl, Nat.le_of_eq (Graph.size_setNode g id n).symm, fun x _ hx hm => by
    rw [Graph.node?_setNode_of_ne n hx]
    exact hm⟩

/-- Nodes that are kept look as before. -/
theorem lookAt (h : Keeping kept g g') {id : NodeId} (hid : kept id) (hlt : id < g.nodes.size) :
    g'.lookAt id = g.lookAt id := by
  obtain ⟨n, hn⟩ := Graph.exists_node hlt
  exact Graph.lookAt_of_frame (h.node id n hid hn) hn rfl

end Keeping

/-- A node of the set that is in the arena. -/
structure Usable (live : NodeId → Prop) (g : Graph) (id : NodeId) : Prop where
  live : live id
  lt : id < g.nodes.size

/-- Nodes of the arena stay in it. -/
theorem Usable.keeping {live kept : NodeId → Prop} {g g' : Graph} {id : NodeId}
    (h : Usable live g id) (hkeeping : Keeping kept g g') : Usable live g' id :=
  ⟨h.live, Nat.lt_of_lt_of_le h.lt hkeeping.size⟩

/-- The nodes of the set meet the condition and have operands in the set, and all nodes to
come belong to it. -/
structure MeetsOn (P : Condition) (live : NodeId → Prop) (g : Graph) : Prop where
  fresh : ∀ id, g.nodes.size ≤ id → live id
  meets : ∀ id n, live id → g.node? id = some n → g.Meets P n
  ready : ∀ id n, live id → g.node? id = some n → ∀ c ∈ n.children, Usable live g c

namespace MeetsOn

variable {P Q : Condition} {live : NodeId → Prop} {g g' : Graph} {id : NodeId} {n : Node}

/-- Where the outputs belong to the set, the graph obeys the condition. -/
theorem obeys (h : MeetsOn P live g) (houtputs : ∀ id ∈ g.outputs, Usable live g id) :
    g.Obeys P := by
  rintro id ⟨output, houtput, hreach⟩
  have husable : Usable live g id := by
    induction hreach with
    | refl => exact houtputs output houtput
    | tail _ huses ih =>
      obtain ⟨n, hn, hc⟩ := huses
      exact h.ready _ n ih.live hn _ hc
  obtain ⟨n, hn⟩ := Graph.exists_node husable.lt
  exact ⟨n, hn, h.meets id n husable.live hn⟩

/-- What the outputs depend on is such a set if the graph obeys the condition. -/
theorem of_obeys (h : g.Obeys P) : MeetsOn P (fun id => g.Needs id ∨ g.nodes.size ≤ id) g := by
  have hneeds : ∀ id n, g.Needs id ∨ g.nodes.size ≤ id → g.node? id = some n → g.Needs id :=
    fun id n hid hn => hid.resolve_right (Nat.not_le.mpr (Graph.lt_size hn))
  refine ⟨fun _ hid => .inr hid, fun id n hid hn => ?_, fun id n hid hn c hc => ?_⟩
  · obtain ⟨m, hm, hmeets⟩ := h id (hneeds id n hid hn)
    rw [hn] at hm
    cases hm
    exact hmeets
  · obtain ⟨output, houtput, hreach⟩ := hneeds id n hid hn
    have hc : g.Needs c := ⟨output, houtput, hreach.tail ⟨n, hn, hc⟩⟩
    obtain ⟨m, hm, -⟩ := h c hc
    exact ⟨.inl hc, Graph.lt_size hm⟩

/-- A node meets a condition where all that it sees looks as before. -/
theorem meets_keeping {kept : NodeId → Prop} (hkeeping : Keeping kept g g')
    (hchildren : ∀ c ∈ n.children, kept c ∧ c < g.nodes.size) (h : g.Meets P n) :
    g'.Meets P n := by
  have hlooks : n.children.map g'.lookAt = n.children.map g.lookAt :=
    List.map_congr_left fun c hc => hkeeping.lookAt (hchildren c hc).1 (hchildren c hc).2
  unfold Graph.Meets
  rw [hkeeping.functions, hlooks]
  exact h

/-- The condition goes on to be met where the nodes of the set are kept and new ones meet
it. -/
theorem keeping (h : MeetsOn P live g) (hkeeping : Keeping live g g')
    (hfresh : ∀ x m, live x → g'.node? x = some m →
      g.node? x = some m ∨ g.Meets P m ∧ ∀ c ∈ m.children, Usable live g c) :
    MeetsOn P live g' := by
  have hold : ∀ x m, live x → g'.node? x = some m →
      g.Meets P m ∧ ∀ c ∈ m.children, Usable live g c := by
    intro x m hx hm
    rcases hfresh x m hx hm with hsame | hnew
    · exact ⟨h.meets x m hx hsame, h.ready x m hx hsame⟩
    · exact hnew
  refine ⟨fun x hx => h.fresh x (Nat.le_trans hkeeping.size hx), fun x m hx hm => ?_,
    fun x m hx hm c hc => ((hold x m hx hm).2 c hc).keeping hkeeping⟩
  obtain ⟨hmeets, hready⟩ := hold x m hx hm
  exact meets_keeping hkeeping (fun c hc => ⟨(hready c hc).live, (hready c hc).lt⟩) hmeets

/-- A node that meets the condition may be added. -/
theorem push (h : MeetsOn P live g) (hn : g.Meets P n)
    (hchildren : ∀ c ∈ n.children, Usable live g c) : MeetsOn P live (g.push n) := by
  refine h.keeping (.push live g n) fun x m _ hm => ?_
  rcases Graph.node?_push_cases hm with hold | rfl
  · exact .inl hold
  · exact .inr ⟨hn, hchildren⟩

/-- A node that does not belong to the set may be replaced. -/
theorem setNode (h : MeetsOn P live g) (hdead : ¬live id) (n : Node) :
    MeetsOn P live (g.setNode id n) := by
  have hne : ∀ x, live x → x ≠ id := fun x hx heq => hdead (heq ▸ hx)
  refine h.keeping ((Keeping.setNode g id n).mono hne) fun x m hx hm => .inl ?_
  rwa [Graph.node?_setNode_of_ne n (hne x hx)] at hm

/-- A node that meets the condition may join the set. -/
theorem join (h : MeetsOn P live g) (hn : g.node? id = some n) (hmeets : g.Meets P n)
    (hchildren : ∀ c ∈ n.children, Usable live g c) : MeetsOn P (fun x => x = id ∨ live x) g := by
  refine ⟨fun x hx => .inr (h.fresh x hx), ?_, ?_⟩
  · rintro x m (rfl | hx) hm
    · rw [hn] at hm
      cases hm
      exact hmeets
    · exact h.meets x m hx hm
  · rintro x m (rfl | hx) hm c hc
    · rw [hn] at hm
      cases hm
      exact ⟨.inr (hchildren c hc).live, (hchildren c hc).lt⟩
    · have hready := h.ready x m hx hm c hc
      exact ⟨.inr hready.live, hready.lt⟩

end MeetsOn

/-! ## Steps that only add nodes -/

/-- Unless the steps fail, they only add nodes that meet the condition. -/
def Brings {α : Type} (P : Condition) (live : NodeId → Prop) (steps : Build α) (g : Graph)
    (post : α → Graph → Prop) : Prop :=
  Ends steps g (fun a g' => Keeping (fun _ => True) g g' ∧ MeetsOn P live g' ∧ post a g')
    fun _ => True

namespace Brings

variable {α β : Type} {P : Condition} {live : NodeId → Prop} {g : Graph}

/-- A bare result adds nothing. -/
theorem pure (h : MeetsOn P live g) {a : α} {post : α → Graph → Prop} (hpost : post a g) :
    Brings P live (pure a) g post := ⟨.refl _ g, h, hpost⟩

/-- Steps that follow others. -/
theorem bind {first : Build α} {next : α → Build β} {post : α → Graph → Prop}
    {post' : β → Graph → Prop} (hfirst : Brings P live first g post)
    (hnext : ∀ a g', Keeping (fun _ => True) g g' → MeetsOn P live g' → post a g' →
      Brings P live (next a) g' post') : Brings P live (first >>= next) g post' := by
  unfold Brings
  rw [ends_bind]
  refine Ends.mono hfirst fun a g' ⟨hkeeping, hs, hpost⟩ => ?_
  refine Ends.mono (hnext a g' hkeeping hs hpost) fun b g'' ⟨hkeeping', hs', hpost'⟩ => ?_
  exact ⟨hkeeping.trans hkeeping', hs', hpost'⟩

/-- A weaker condition for the result. -/
theorem mono {steps : Build α} {post post' : α → Graph → Prop} (h : Brings P live steps g post)
    (himp : ∀ a g', Keeping (fun _ => True) g g' → MeetsOn P live g' → post a g' → post' a g') :
    Brings P live steps g post' :=
  Ends.mono h fun a g' ⟨hkeeping, hs, hpost⟩ => ⟨hkeeping, hs, himp a g' hkeeping hs hpost⟩

/-- What follows the look at a node. -/
theorem node {id : NodeId} {n : Node} {next : Node → Build β} {post : β → Graph → Prop}
    (hn : g.node? id = some n) (h : Brings P live (next n) g post) :
    Brings P live (Build.node id >>= next) g post := by
  unfold Brings
  rw [ends_bind, ends_node hn]
  exact h

/-- What follows the look at the shape of a node. -/
theorem shape {id : NodeId} {next : Shape → Build β} {post : β → Graph → Prop}
    (hid : id < g.nodes.size) (h : Brings P live (next (g.shapeAt id)) g post) :
    Brings P live (Build.shape id >>= next) g post := by
  obtain ⟨n, hn⟩ := Graph.exists_node hid
  unfold Brings
  rw [ends_bind, ends_shape hn, ← Graph.shapeAt_eq hn]
  exact h

/-- One node for each entry of a list. What is seen of it at first is seen of it at the
end. -/
theorem mapM (good : Look → Prop) {f : α → Build NodeId} (xs : List α) (h : MeetsOn P live g)
    (hf : ∀ x ∈ xs, ∀ g', Keeping (fun _ => True) g g' → MeetsOn P live g' →
      Brings P live (f x) g' fun id g'' => Usable live g'' id ∧ good (g''.lookAt id)) :
    Brings P live (xs.mapM f) g fun ids g' =>
      ∀ id ∈ ids, Usable live g' id ∧ good (g'.lookAt id) := by
  induction xs generalizing g with
  | nil => exact .pure h fun _ hid => (nomatch hid)
  | cons x rest ih =>
    rw [List.mapM_cons]
    refine (hf x List.mem_cons_self g (.refl _ g) h).bind fun new g₁ hkeeping₁ h₁ hnew => ?_
    refine (ih h₁ fun y hy g' hkeeping => hf y (List.mem_cons_of_mem _ hy) g'
      (hkeeping₁.trans hkeeping)).bind fun ids g₂ hkeeping₂ h₂ hids => ?_
    refine .pure h₂ fun id hid => ?_
    rcases List.mem_cons.mp hid with rfl | hid
    · exact ⟨hnew.1.keeping hkeeping₂, hkeeping₂.lookAt trivial hnew.1.lt ▸ hnew.2⟩
    · exact hids id hid

end Brings

/-- The nodes that come of adding an operation: it is resolved if the shapes of all its
operands are known. -/
inductive Graph.Adds (g : Graph) (op : Operation) (shape : Shape) : Node → Prop
  | raw : Adds g op shape { op, shape }
  | resolved (h : g.Known op.children) :
    Adds g op shape (({ op, shape } : Node).resolved g.functions (op.children.map g.shapeAt))

/-- Operands may only be dropped. -/
theorem Graph.Adds.children {g : Graph} {op : Operation} {shape : Shape} {n : Node}
    (h : g.Adds op shape n) : ∀ c ∈ n.children, c ∈ op.children := by
  cases h with
  | raw => exact fun _ hc => hc
  | resolved => exact (({ op, shape } : Node).resolves_resolved _ _).children

/-- A node with an operand of unknown shape stays as it is when it is added. -/
theorem Build.runOn_plain_raw {g : Graph} (op : Operation) (shape : Shape)
    (h : (g.push { op, shape }).knownShapes? op.children = .ok none) :
    (Build.plain op shape).runOn g = (.ok g.nodes.size, g.push { op, shape }) := by
  have hopen : ¬({ op, shape } : Node).overload.isSome = true := Bool.false_ne_true
  have hresolve : (resolvePlain g.nodes.size).runOn (g.push { op, shape }) =
      (.ok (), g.push { op, shape }) := by
    unfold resolvePlain
    rw [runOn_bind, runOn_node (Graph.node?_push_size g _)]
    dsimp only
    rw [if_neg hopen, runOn_bind, runOn_ask h]
    rfl
  unfold Build.plain
  rw [runOn_bind, runOn_append]
  dsimp only
  rw [runOn_bind, hresolve]
  rfl

/-- An operation may be added if all nodes meet the condition that may come of it. -/
theorem MeetsOn.plain {P : Condition} {live : NodeId → Prop} {g : Graph} (h : MeetsOn P live g)
    (op : Operation) (shape : Shape) (hchildren : ∀ c ∈ op.children, Usable live g c)
    (hmeets : ∀ n, g.Adds op shape n → g.Meets P n) :
    Brings P live (Build.plain op shape) g fun id g' => Usable live g' id ∧
      ∃ n, g.Adds op shape n ∧ g'.node? id = some n := by
  have hadd : ∀ n, g.Adds op shape n → (Build.plain op shape).runOn g = (.ok g.nodes.size, g.push n) →
      Brings P live (Build.plain op shape) g fun id g' => Usable live g' id ∧
        ∃ n, g.Adds op shape n ∧ g'.node? id = some n := by
    intro n hn hrun
    have hnew := Graph.node?_push_size g n
    unfold Brings
    rw [ends_of_runOn hrun]
    exact ⟨.push _ g n, h.push (hmeets n hn) fun c hc => hchildren c (hn.children c hc),
      ⟨h.fresh _ (Nat.le_refl _), Graph.lt_size hnew⟩, n, hn, hnew⟩
  have hnodes : ∀ c ∈ op.children, ∃ n, (g.push { op, shape }).node? c = some n := by
    intro c hc
    obtain ⟨n, hn⟩ := Graph.exists_node (hchildren c hc).lt
    exact ⟨n, Graph.node?_push_of_some hn⟩
  rcases Graph.knownShapes?_cases hnodes with hknown | ⟨hnone, -⟩
  · have hold : g.Known op.children := by
      intro c hc
      obtain ⟨n, hn⟩ := Graph.exists_node (hchildren c hc).lt
      obtain ⟨m, hm, hshape⟩ := hknown c hc
      rw [Graph.node?_push_of_some hn] at hm
      cases hm
      exact ⟨n, hn, hshape⟩
    exact hadd _ (.resolved hold) (runOn_plain op shape hold)
  · exact hadd _ .raw (runOn_plain_raw op shape hnone)

/-! ## Sweeping upward -/

/-- What a sweep knows besides of the set and the graph. -/
abbrev Survey := (NodeId → Prop) → Graph → Prop

/-- What the replacement of a node in an upward sweep achieves: what takes its place belongs
to the set, which the node itself may have joined, and looks as it should. -/
structure Supplants (Q : Condition) (rel : Look → Look → Prop) (inv : Survey)
    (live : NodeId → Prop) (g : Graph) (id new : NodeId) (g' : Graph) : Prop where
  keeping : Keeping (· ≠ id) g g'
  meets : ∃ live', (∀ x, live x → live' x) ∧ (∀ x, live' x → x = id ∨ live x) ∧
    MeetsOn Q live' g' ∧ inv live' g' ∧ Usable live' g' new
  look : rel (g.lookAt id) (g'.lookAt new)

namespace Supplants

variable {Q : Condition} {rel : Look → Look → Prop} {live : NodeId → Prop} {g : Graph}
  {id : NodeId} {n : Node} {steps : Build NodeId}

/-- A node that meets the new condition may stay. -/
theorem stay (h : MeetsOn Q live g) (hn : g.node? id = some n) (hmeets : g.Meets Q n)
    (hchildren : ∀ c ∈ n.children, Usable live g c) (hrel : ∀ l, rel l l) :
    Supplants Q rel (fun _ _ => True) live g id id g :=
  ⟨.refl _ g, ⟨_, fun _ hx => .inr hx, fun _ hx => hx, h.join hn hmeets hchildren, trivial, .inl rfl,
    Graph.lt_size hn⟩, hrel _⟩

/-- Where looks do not matter, what is brought in may take the place of a node, or the node
stays if it meets the new condition. -/
theorem of_brings (h : Brings Q live steps g fun new g' =>
      new = id ∧ g.Meets Q n ∨ Usable live g' new)
    (hn : g.node? id = some n) (hchildren : ∀ c ∈ n.children, Usable live g c) :
    Ends steps g (Supplants Q (fun _ _ => True) (fun _ _ => True) live g id) fun _ => True := by
  refine Ends.mono h ?_
  rintro new g' ⟨hkeeping, hs, hnew⟩
  refine ⟨hkeeping.mono fun _ _ => trivial, ?_, trivial⟩
  rcases hnew with ⟨rfl, hmeets⟩ | husable
  · have hn' := hkeeping.node new n trivial hn
    have hmeets' := MeetsOn.meets_keeping hkeeping (fun c hc => ⟨trivial, (hchildren c hc).lt⟩) hmeets
    exact ⟨_, fun _ hx => .inr hx, fun _ hx => hx,
      hs.join hn' hmeets' fun c hc => (hchildren c hc).keeping hkeeping, trivial, .inl rfl,
      Graph.lt_size hn'⟩
  · exact ⟨live, fun _ hx => hx, fun _ hx => .inr hx, hs, trivial, husable⟩

end Supplants

/-- Replacing a node whose operands meet the new condition. -/
def Lifts (P Q : Condition) (rel : Look → Look → Prop) (replace : NodeId → Build NodeId)
    (inv : Survey := fun _ _ => True) : Prop :=
  ∀ (live : NodeId → Prop) (g : Graph) (id : NodeId) (n : Node), MeetsOn Q live g → inv live g →
    g.node? id = some n → ¬live id → (∀ c ∈ n.children, Usable live g c) → g.Meets P n →
    Ends (replace id) g (Supplants Q rel inv live g id) fun _ => True

/-- A condition does not see whether operands are exchanged for related ones. -/
def Condition.Bears (P : Condition) (rel : Look → Look → Prop) : Prop :=
  ∀ functions n looks looks', List.Forall₂ rel looks looks' → P functions n looks →
    P functions n looks'

/-- Where an upward sweep stands: what takes the place of the nodes swept so far meets the
new condition, and the others are as they were. -/
structure Lifted (Q : Condition) (rel : Look → Look → Prop) (inv : Survey) (g₀ : Graph)
    (done : List NodeId) (r : Replacements) (g : Graph) : Prop where
  keeping : Keeping (· ∉ done) g₀ g
  meets : ∃ live, MeetsOn Q live g ∧ inv live g ∧ (∀ x, live x → x ∈ done ∨ g₀.nodes.size ≤ x) ∧
    ∀ x ∈ done, Usable live g (r.apply x)
  look : ∀ x ∈ done, rel (g₀.lookAt x) (g.lookAt (r.apply x))

section

variable {P Q : Condition} {rel : Look → Look → Prop} {inv : Survey}
  {replace : NodeId → Build NodeId} {g₀ g : Graph} {done : List NodeId} {r : Replacements} {id : NodeId} {n : Node}

/-- One more node of the order is replaced. -/
theorem Lifted.step (h : Lifted Q rel inv g₀ done r g) (hlifts : Lifts P Q rel replace inv)
    (hinv : ∀ live g id n, inv live g → inv live (g.setNode id n)) (hbears : P.Bears rel) (hn : g₀.node? id = some n) (hnew : id ∉ done) (hmeets : g₀.Meets P n)
    (hchildren : ∀ c ∈ n.children, c ∈ done) :
    Ends (replaceUpward replace r id) g (fun r' g' =>
      Lifted Q rel inv g₀ (done ++ [id]) r' g') fun _ => True := by
  obtain ⟨live, hs, hsurvey, hlive, husable⟩ := h.meets
  have hn' := h.keeping.node id n hnew hn
  have hdead : ¬live id :=
    fun hid => (hlive id hid).elim hnew (Nat.not_le.mpr (Graph.lt_size hn))
  let n₁ : Node := { n with op := n.op.mapChildren r.apply }
  let g₁ := g.setNode id n₁
  have hn₁ : g₁.node? id = some n₁ := Graph.node?_setNode_self n₁ hn'
  have hset : Keeping (· ≠ id) g g₁ := .setNode g id n₁
  have hne : ∀ x ∈ done, r.apply x ≠ id := fun x hx heq => hdead (heq ▸ (husable x hx).live)
  have hready : ∀ c ∈ n₁.children, Usable live g₁ c := by
    intro c hc
    have hc : c ∈ (n.op.mapChildren r.apply).children := hc
    rw [Operation.children_mapChildren] at hc
    obtain ⟨x, hx, rfl⟩ := List.mem_map.mp hc
    exact (husable x (hchildren x hx)).keeping hset
  have hmeets₁ : g₁.Meets P n₁ := by
    have hlooks : List.Forall₂ rel (n.children.map g₀.lookAt) (n₁.children.map g₁.lookAt) := by
      have hsame : n₁.children = n.children.map r.apply := n.op.children_mapChildren r.apply
      rw [hsame, List.map_map, List.forall₂_map_left_iff, List.forall₂_map_right_iff,
        List.forall₂_same]
      intro x hx
      have hdone := hchildren x hx
      rw [Function.comp_apply, hset.lookAt (hne x hdone) (husable x hdone).lt]
      exact h.look x hdone
    have hframe : n₁.frame = n.frame := n.frame_mapChildren r.apply
    have hfunctions : g₁.functions = g₀.functions := h.keeping.functions
    unfold Graph.Meets
    rw [hframe, hfunctions]
    exact hbears _ _ _ _ hlooks hmeets
  unfold replaceUpward
  rw [ends_bind, ends_modifyNode hn', ends_bind]
  refine (hlifts live g₁ id n₁ (hs.setNode hdead n₁) (hinv live g id n₁ hsurvey) hn₁ hdead hready hmeets₁).mono ?_
  rintro new g' ⟨hkeeping, ⟨live', hgrows, hfresh, hs', hsurvey', hnew'⟩, hlook⟩
  rw [ends_pure]
  have hall := hset.trans hkeeping
  have happly : ∀ x ∈ done, Replacements.apply ((id, new) :: r) x = r.apply x := by
    intro x hx
    rw [Replacements.apply_cons, if_neg fun heq : x = id => hnew (heq ▸ hx)]
  have hself : Replacements.apply ((id, new) :: r) id = new := by
    rw [Replacements.apply_cons, if_pos rfl]
  refine ⟨?_, ⟨live', hs', hsurvey', fun x hx => ?_, fun x hx => ?_⟩, fun x hx => ?_⟩
  · refine (h.keeping.mono fun x hx hmem => hx (List.mem_append_left _ hmem)).trans
      (hall.mono fun x hx heq => hx ?_)
    rw [heq]
    exact List.mem_append_right _ (List.mem_singleton_self _)
  · rw [List.mem_append, List.mem_singleton]
    rcases hfresh x hx with rfl | hx
    · exact .inl (.inr rfl)
    · exact (hlive x hx).imp_left .inl
  · rcases List.mem_append.mp hx with hx | hx
    · rw [happly x hx]
      exact ⟨hgrows _ (husable x hx).live, ((husable x hx).keeping hall).lt⟩
    · rw [List.mem_singleton.mp hx, hself]
      exact hnew'
  · rcases List.mem_append.mp hx with hx | hx
    · rw [happly x hx, hall.lookAt (hne x hx) (husable x hx).lt]
      exact h.look x hx
    · rw [List.mem_singleton.mp hx, hself]
      have hsame : g₁.lookAt id = g₀.lookAt id :=
        Graph.lookAt_of_frame hn₁ hn (n.frame_mapChildren r.apply)
      rw [← hsame]
      exact hlook

/-- All nodes of the order are replaced. -/
theorem Lifted.run (hlifts : Lifts P Q rel replace inv)
    (hinv : ∀ live g id n, inv live g → inv live (g.setNode id n)) (hbears : P.Bears rel)
    (hstart : inv (g₀.nodes.size ≤ ·) g₀) {order : List NodeId}
    (hlisted : Listed (fun id => (g₀.node id).map Node.children) order)
    (hmeets : ∀ id ∈ order, ∃ n, g₀.node? id = some n ∧ g₀.Meets P n) :
    Ends (order.foldlM (replaceUpward replace) []) g₀ (fun r g => Lifted Q rel inv g₀ order r g)
      fun _ => True := by
  induction hlisted with
  | nil =>
    have hnone : ∀ x, g₀.nodes.size ≤ x → g₀.node? x = none := fun x => Array.getElem?_eq_none
    refine ⟨.refl _ g₀, ⟨(g₀.nodes.size ≤ ·), ⟨fun _ hx => hx, fun x n hx hn => ?_,
      fun x n hx hn => ?_⟩, hstart, fun _ hx => .inr hx, fun _ hx => (nomatch hx)⟩, fun _ hx => (nomatch hx)⟩
    all_goals exact absurd ((hnone x hx).symm.trans hn) (Option.some_ne_none n).symm
  | snoc earlier fresh known below ih =>
    rw [List.foldlM_append, ends_bind]
    refine (ih fun x hx => hmeets x (List.mem_append_left _ hx)).mono fun r g h => ?_
    obtain ⟨n, hn, rfl⟩ := Graph.node?_of_children known
    obtain ⟨m, hm, hmeets⟩ := hmeets _ (List.mem_append_right _ (List.mem_singleton_self _))
    rw [hn] at hm
    cases hm
    rw [List.foldlM_cons, ends_bind]
    exact h.step hlifts hinv hbears hn fresh hmeets below

end

/-- After an upward pass the graph obeys the new condition, and its outputs look as they
should. -/
theorem Pass.upward_obeys {P Q : Condition} {rel : Look → Look → Prop} {S : Streams} {g : Graph}
    {inv : Survey} (pass : Pass) (hdirection : pass.direction = .upward)
    (hlifts : Lifts P Q rel pass.replace inv)
    (hinv : ∀ live g id n, inv live g → inv live (g.setNode id n)) (hbears : P.Bears rel)
    (hstart : inv (g.nodes.size ≤ ·) g) (h : Orderly S g) (hg : g.Obeys P) :
    Ends pass.run g (fun _ g' => g'.Obeys Q ∧
      List.Forall₂ (fun old new => rel (g.lookAt old) (g'.lookAt new)) g.outputs g'.outputs)
      fun _ => True := by
  obtain ⟨rank, h⟩ := h
  refine pass.run_any ?_
  rw [hdirection]
  show Ends (sweepUpward pass.replace) g _ _
  unfold sweepUpward
  rw [ends_bind, ends_ask_any]
  intro order horder
  obtain ⟨hlisted, houtputs, hneeds⟩ := h.postOrder_listed horder
  rw [ends_bind]
  refine (Lifted.run hlifts hinv hbears hstart hlisted fun id hid => hg id (hneeds id hid)).mono ?_
  intro r g' h'
  rw [ends_bind, ends_get, ends_bind]
  refine (checkOutputs_any r.apply g'.outputs).mono ?_
  rintro _ g' ⟨rfl, rfl⟩
  rw [ends_modify, h'.keeping.outputs]
  obtain ⟨live, hs, -, -, husable⟩ := h'.meets
  have hs' : MeetsOn Q live { g' with outputs := g.outputs.map r.apply } :=
    ⟨hs.fresh, hs.meets, fun id n hid hn c hc =>
      ⟨(hs.ready id n hid hn c hc).live, (hs.ready id n hid hn c hc).lt⟩⟩
  refine ⟨hs'.obeys fun x hx => ?_, ?_⟩
  · obtain ⟨y, hy, rfl⟩ := List.mem_map.mp hx
    exact ⟨(husable y (houtputs y hy)).live, (husable y (houtputs y hy)).lt⟩
  · rw [List.forall₂_map_right_iff, List.forall₂_same]
    exact fun x hx => h'.look x (houtputs x hx)

end LaneGraph
