import LaneGraph.Proofs.Conditions
import LaneGraph.Proofs.Mixing

/-!
# Operands have the shapes that their users expect

A node is complete if its shape is known and its operands have the shapes that it
expects. While types are deduced, the nodes swept so far and all new ones are complete,
and their operands are among them. A node joins them when its operands have been made
to fit, one after the other; what that adds to the arena is complete from the start.
-/

namespace LaneGraph

open Build

/-- The shape of the node is known, and its operands have the shapes that it expects, where it
expects any. -/
structure Complete (functions : List Signature) (n : Node) (looks : List Look) : Prop where
  known : n.shape.isUnknown = false
  suits : ∀ (index : Nat) (look : Look), looks[index]? = some look →
    (n.expected functions index).isUnknown = true ∨ n.expected functions index = look.shape

namespace Graph

/-- The operand has the shape that the node expects, where it expects any. -/
def Matches (g : Graph) (n : Node) (index : Nat) (child : NodeId) : Prop :=
  (g.expectedShape n index).isUnknown = true ∨ g.expectedShape n index = g.shapeAt child

/-- What a node expects is seen in its frame. -/
theorem expectedShape_of_frame (g : Graph) {m n : Node} (h : m.frame = n.frame) (index : Nat) :
    g.expectedShape m index = g.expectedShape n index := by
  rw [Node.expectedShape_eq, Node.expectedShape_eq, ← m.expected_frame, h, n.expected_frame]

/-- A complete node has a known shape, and its operands match. -/
theorem meets_complete {g : Graph} {n : Node} : g.Meets Complete n ↔ n.shape.isUnknown = false ∧
    ∀ (index : Nat) (child : NodeId), n.children[index]? = some child → g.Matches n index child := by
  constructor
  · rintro ⟨hknown, hsuits⟩
    refine ⟨n.shape_frame ▸ hknown, fun index child hchild => ?_⟩
    have hmatches := hsuits index (g.lookAt child) (by rw [List.getElem?_map, hchild]; rfl)
    rwa [n.expected_frame] at hmatches
  · rintro ⟨hknown, hsuits⟩
    refine ⟨n.shape_frame.symm ▸ hknown, fun index look hlook => ?_⟩
    rw [List.getElem?_map] at hlook
    obtain ⟨child, hchild, rfl⟩ := Option.map_eq_some_iff.mp hlook
    rw [n.expected_frame]
    exact hsuits index child hchild

end Graph

/-- An operand that is kept goes on to have the shape that a node expects. -/
theorem Keeping.matching {kept : NodeId → Prop} {g g' : Graph} (h : Keeping kept g g') {n : Node}
    {index : Nat} {child : NodeId} (hkept : kept child) (hlt : child < g.nodes.size)
    (hn : g.Matches n index child) : g'.Matches n index child := by
  have hshape : g'.shapeAt child = g.shapeAt child := congrArg Look.shape (h.lookAt hkept hlt)
  unfold Graph.Matches
  rwa [hshape, Node.expectedShape_eq, h.functions]

/-! ## What is added is complete -/

section Making

variable {live : NodeId → Prop} {g : Graph}

/-- The shapes of usable nodes are known. -/
theorem MeetsOn.known_shapeAt {id : NodeId} (h : MeetsOn Complete live g) (hid : Usable live g id) :
    (g.shapeAt id).isUnknown = false := by
  obtain ⟨n, hn⟩ := Graph.exists_node hid.lt
  rw [Graph.shapeAt_eq hn]
  exact (Graph.meets_complete.mp (h.meets id n hid.live hn)).1

/-- Usable operands are known. -/
theorem MeetsOn.known (h : MeetsOn Complete live g) {ids : List NodeId}
    (hids : ∀ c ∈ ids, Usable live g c) : g.Known ids :=
  Graph.known_of_shapeAt fun c hc => h.known_shapeAt (hids c hc)

/-- A node that takes operands of any shape is complete if its shape is known. -/
theorem MeetsOn.completeOpen (h : MeetsOn Complete live g) (op : Operation) (shape : Shape)
    (hchildren : ∀ c ∈ op.children, Usable live g c) {n : Node}
    (hn : ({ op, shape } : Node).resolved g.functions (op.children.map g.shapeAt) = n)
    (hknown : n.shape.isUnknown = false)
    (hopen : ∀ index, (g.expectedShape n index).isUnknown = true)
    (hsame : n.children = op.children) :
    Brings Complete live (Build.plain op shape) g fun id g' =>
      Usable live g' id ∧ g'.shapeAt id = n.shape := by
  have hnew := Graph.node?_push_size g n
  rw [← hsame] at hchildren
  have hcomplete : g.Meets Complete n :=
    Graph.meets_complete.mpr ⟨hknown, fun index _ _ => .inl (hopen index)⟩
  have hrun := runOn_plain op shape (h.known fun c hc => hchildren c (hsame ▸ hc))
  rw [hn] at hrun
  unfold Brings
  rw [ends_of_runOn hrun]
  exact ⟨.push _ g n, h.push hcomplete hchildren,
    ⟨h.fresh _ (Nat.le_refl _), Graph.lt_size hnew⟩, Graph.shapeAt_eq hnew⟩

/-- A selection of components is complete. -/
theorem MeetsOn.completeSelection (h : MeetsOn Complete live g) (components : List Component) {source : NodeId}
    (hsource : Usable live g source) :
    Brings Complete live (Build.swizzle components source) g fun id g' => Usable live g' id := by
  refine (h.completeOpen (.swizzle components source) Shape.unknown (fun c hc => ?_) rfl ?_
    (fun _ => rfl) rfl).mono fun _ _ _ _ hid => hid.1
  · rwa [List.mem_singleton.mp hc]
  · have hknown := h.known_shapeAt hsource
    unfold Shape.isUnknown at hknown ⊢
    simpa [Node.resolved, Operation.children] using hknown

/-- A scalar literal is complete. -/
theorem MeetsOn.completeLiteral (h : MeetsOn Complete live g) (value : Scalar) :
    Brings Complete live (Build.scalar value) g fun id g' => Usable live g' id := by
  refine (h.completeOpen (.constant (.ofScalar value)) (Constant.ofScalar value).shape
    (fun _ hc => (nomatch hc)) rfl ?_ (fun _ => rfl) rfl).mono fun _ _ _ _ hid => hid.1
  cases value <;> rfl

/-- A conversion to a known kind is complete, and has that kind. -/
theorem MeetsOn.completeConversion (h : MeetsOn Complete live g) {operand : NodeId}
    (hoperand : Usable live g operand) {target : Kind} (htarget : target ≠ .unknown) :
    Brings Complete live (Build.convert operand target) g fun id g' =>
      Usable live g' id ∧ (g'.shapeAt id).kind = target := by
  refine (h.completeOpen (.unary .convert operand) (Shape.of target 1) (fun c hc => ?_) rfl ?_
    (fun _ => rfl) rfl).mono fun id g' _ _ hid => ⟨hid.1, ?_⟩
  · rwa [List.mem_singleton.mp hc]
  · unfold Shape.isUnknown
    simpa [Node.resolved] using htarget
  · rw [hid.2]
    simp [Node.resolved]

/-- A scalar that is spread over the components of a vector of its kind is complete. -/
theorem MeetsOn.completeSpread (h : MeetsOn Complete live g) {operand : NodeId}
    (hoperand : Usable live g operand) {target : Shape} (htarget : target.isUnknown = false)
    (hwide : 1 < target.width) (hshape : g.shapeAt operand = ⟨target.kind, 1⟩) :
    Brings Complete live (Build.construct target [operand]) g fun id g' =>
      Usable live g' id ∧ g'.shapeAt id = target := by
  have hready : ∀ c ∈ List.replicate target.width operand, Usable live g c := by
    intro c hc
    rwa [List.eq_of_mem_replicate hc]
  have hrun : (Build.construct target [operand]).runOn g = (.ok g.nodes.size, g.push
      { op := .construct (List.replicate target.width operand), shape := target, inputWidth := 1,
        overload := some 0 }) := by
    refine runOn_construct (h.known fun c hc => by rwa [List.mem_singleton.mp hc]) fun g' => ?_
    rw [List.map_singleton, hshape]
    simp [arrangement, Shape.isScalar, hwide]
  let n : Node :=
    { op := .construct (List.replicate target.width operand), shape := target, inputWidth := 1,
      overload := some 0 }
  have hcomplete : g.Meets Complete n := by
    refine Graph.meets_complete.mpr ⟨htarget, fun index child hchild => .inr ?_⟩
    rw [List.eq_of_mem_replicate (List.mem_of_getElem? hchild), hshape]
    exact Shape.of_eq (of_decide_eq_false htarget) (Nat.le_refl 1) (by omega)
  have hnew := Graph.node?_push_size g n
  unfold Brings
  rw [ends_of_runOn hrun]
  exact ⟨.push _ g _, h.push hcomplete hready, ⟨h.fresh _ (Nat.le_refl _), Graph.lt_size hnew⟩,
    Graph.shapeAt_eq hnew⟩

/-- The arguments of a constructor are split into usable nodes. -/
theorem MeetsOn.completeFlatten (arguments : List (NodeId × Shape)) (h : MeetsOn Complete live g)
    (hall : ∀ a ∈ arguments, Usable live g a.1) :
    Brings Complete live (Build.flatten arguments) g fun ids g' => ∀ id ∈ ids, Usable live g' id := by
  induction arguments generalizing g with
  | nil => exact .pure h fun _ hid => (nomatch hid)
  | cons a rest ih =>
    have ha := hall a List.mem_cons_self
    have hrest : ∀ parts g₁, Keeping (fun _ => True) g g₁ → MeetsOn Complete live g₁ →
        (∀ id ∈ parts, Usable live g₁ id) →
        Brings Complete live (do return parts ++ (← Build.flatten rest)) g₁
          fun ids g' => ∀ id ∈ ids, Usable live g' id := by
      intro parts g₁ hkeeping h₁ hparts
      refine (ih h₁ fun b hb => (hall b (List.mem_cons_of_mem _ hb)).keeping hkeeping).bind
        fun ids g₂ hkeeping₂ h₂ hids => .pure h₂ fun id hid => ?_
      rcases List.mem_append.mp hid with hid | hid
      · exact (hparts id hid).keeping hkeeping₂
      · exact hids id hid
    obtain ⟨argument, shape⟩ := a
    rw [Build.flatten]
    by_cases hscalar : shape.isScalar = true
    · simp only [if_pos hscalar, pure_bind]
      refine hrest [argument] g (.refl _ g) h fun id hid => ?_
      rwa [List.mem_singleton.mp hid]
    · simp only [if_neg hscalar]
      exact ((Brings.mapM (fun _ => True) _ h fun i _ g' hkeeping h' =>
        (h'.completeSelection _ (ha.keeping hkeeping)).mono fun _ _ _ _ hid => ⟨hid, trivial⟩).mono
          fun _ _ _ _ hids id hid => (hids id hid).1).bind hrest

/-- The arguments of a constructor are arranged as usable nodes. -/
theorem MeetsOn.completeArrangement (h : MeetsOn Complete live g) (target : Shape)
    (arguments : List (NodeId × Shape)) (hall : ∀ a ∈ arguments, Usable live g a.1) :
    Brings Complete live (Build.arrangement target arguments) g fun ids g' =>
      ∀ id ∈ ids, Usable live g' id := by
  unfold Build.arrangement
  dsimp only
  split
  · rename_i argument heq
    refine .pure h fun id hid => ?_
    rw [List.eq_of_mem_replicate hid]
    split at heq
    · split at heq
      · cases heq
        exact hall _ (List.mem_singleton_self _)
      · cases heq
    · cases heq
  · refine (h.completeFlatten arguments hall).bind fun flat g₁ _ h₁ hflat => ?_
    have htake : ∀ id ∈ flat.take target.width, Usable live g₁ id :=
      fun id hid => hflat id (List.mem_of_mem_take hid)
    split
    · split
      · refine (h₁.completeLiteral _).bind fun pad g₂ hkeeping₂ h₂ hpad => .pure h₂ fun id hid => ?_
        rcases List.mem_append.mp hid with hid | hid
        · exact (htake id hid).keeping hkeeping₂
        · rwa [List.eq_of_mem_replicate hid]
      · exact .pure h₁ htake
    · exact .pure h₁ htake

end Making

/-! ## A node joins the nodes swept before -/

namespace Typing

variable {live : NodeId → Prop} {g : Graph} {id : NodeId} {n : Node}

/-- A value that is made to fit a known shape has it. -/
theorem fit_adds (h : MeetsOn Complete live g) {child : NodeId} (hchild : Usable live g child)
    {expected : Shape} (hexpected : expected.isUnknown = false) :
    Brings Complete live (fit child (g.shapeAt child) expected) g fun new g' =>
      Usable live g' new ∧ g'.shapeAt new = expected := by
  -- The rest of the steps, when the kind is right.
  have hrest : ∀ converted g₁, Keeping (fun _ => True) g g₁ → MeetsOn Complete live g₁ →
      Usable live g₁ converted ∧ (g₁.shapeAt converted).kind = expected.kind →
      Brings Complete live (do
        let shape ← Build.shape converted
        if shape.width < expected.width ∧ shape.isScalar then
          Build.construct expected [converted]
        else if shape.width ≠ expected.width then
          throw (.implicitConversion (g.shapeAt child) expected)
        else return converted) g₁ fun new g' => Usable live g' new ∧ g'.shapeAt new = expected := by
    rintro converted g₁ - h₁ ⟨hready, hkind⟩
    obtain ⟨m, hm⟩ := Graph.exists_node hready.lt
    unfold Brings
    rw [ends_bind, ends_shape hm, ← Graph.shapeAt_eq hm]
    split
    · rename_i hnarrow
      have hone : (g₁.shapeAt converted).width = 1 := of_decide_eq_true hnarrow.2
      refine h₁.completeSpread hready hexpected (hone ▸ hnarrow.1) ?_
      rw [← hkind, ← hone]
    · split
      · trivial
      · rename_i hwidth
        refine ⟨.refl _ g₁, h₁, hready, ?_⟩
        rw [Shape.mk.injEq]
        exact ⟨hkind, not_not.mp hwidth⟩
  unfold fit
  by_cases hkind : expected.kind ≠ (g.shapeAt child).kind
  · rw [if_pos hkind]
    exact (h.completeConversion hchild (of_decide_eq_false hexpected)).bind hrest
  · rw [if_neg hkind]
    exact hrest child g (.refl _ g) h ⟨hchild, (not_not.mp hkind).symm⟩

/-- Where the fitting of operands stands: those before fit, and those after are as they
were. The node itself has not joined the set. -/
structure Halfway (live : NodeId → Prop) (id : NodeId) (n : Node) (before after : List NodeId)
    (g : Graph) : Prop where
  complete : MeetsOn Complete live g
  dead : ¬live id
  node : ∃ m, g.node? id = some m ∧ m.frame = n.frame ∧ m.children = before ++ after
  ready : ∀ c ∈ before ++ after, Usable live g c
  fits : ∀ (index : Nat) (c : NodeId), before[index]? = some c → g.Matches n index c

/-- One operand is made to fit. -/
theorem Halfway.step {before after : List NodeId} {child : NodeId}
    (h : Halfway live id n before (child :: after) g) :
    Ends (fitChild id before.length child) g (fun _ g' => Keeping (· ≠ id) g g' ∧
      ∃ new, Halfway live id n (before ++ [new]) after g') fun _ => True := by
  obtain ⟨m, hm, hframe, hchildren⟩ := h.node
  have hchild := h.ready child (by simp)
  obtain ⟨c, hc⟩ := Graph.exists_node hchild.lt
  have hsame := g.expectedShape_of_frame hframe before.length
  have hafter : ∀ x ∈ before ++ after, Usable live g x := fun x hx => h.ready x (by
    rcases List.mem_append.mp hx with hx | hx <;> simp [hx])
  -- What is known of the operand that comes in the place of the child.
  have hfinish : ∀ (new : NodeId) (g' : Graph), Keeping (· ≠ id) g g' → MeetsOn Complete live g' →
      Usable live g' new → g'.Matches n before.length new → (∃ m', g'.node? id = some m' ∧
        m'.frame = n.frame ∧ m'.children = before ++ [new] ++ after) →
      Halfway live id n (before ++ [new]) after g' := by
    intro new g' hkeeping hs hnew hmatches hnode
    refine ⟨hs, h.dead, hnode, fun x hx => ?_, fun index x hx => ?_⟩
    · rw [List.append_assoc, List.mem_append, List.mem_append, List.mem_singleton] at hx
      rcases hx with hx | rfl | hx
      · exact (hafter x (List.mem_append_left _ hx)).keeping hkeeping
      · exact hnew
      · exact (hafter x (List.mem_append_right _ hx)).keeping hkeeping
    · by_cases hlt : index < before.length
      · rw [List.getElem?_append_left hlt] at hx
        have hready := hafter x (List.mem_append_left _ (List.mem_of_getElem? hx))
        exact hkeeping.matching (fun heq => h.dead (heq ▸ hready.live)) hready.lt (h.fits index x hx)
      · rw [List.getElem?_append_right (Nat.le_of_not_lt hlt), List.getElem?_singleton] at hx
        split at hx
        · cases hx
          have hindex : index = before.length := by omega
          rwa [hindex]
        · cases hx
  unfold fitChild
  rw [ends_bind, ends_node hm, ends_bind, ends_get]
  dsimp only
  rw [ends_bind, ends_shape hc, ← Graph.shapeAt_eq hc, hsame]
  by_cases hopen : (g.expectedShape n before.length).isUnknown = true ∨
      g.expectedShape n before.length = g.shapeAt child
  · rw [if_pos hopen, ends_pure]
    refine ⟨.refl _ g, child, hfinish child g (.refl _ g) h.complete hchild
      hopen ⟨m, hm, hframe, ?_⟩⟩
    rw [hchildren, List.append_assoc, List.singleton_append]
  · rw [if_neg hopen, ends_bind]
    rw [not_or] at hopen
    refine Ends.mono (fit_adds h.complete hchild (Bool.eq_false_iff.mpr hopen.1)) ?_
    rintro new g₁ ⟨hkeeping, h₁, hnew, hshape⟩
    have hm₁ := hkeeping.node id m trivial hm
    obtain ⟨hset, hframe'⟩ := Node.setChild_append hchildren new
    have hset₁ := Keeping.setNode g₁ id (m.setChild before.length new)
    have hall := (hkeeping.mono fun _ _ => trivial).trans hset₁
    rw [ends_setChild hm₁]
    have hmatches : g₁.Matches n before.length new := by
      refine .inr ?_
      rw [hshape, Node.expectedShape_eq, hkeeping.functions, ← Node.expectedShape_eq]
    refine ⟨hall, new, hfinish new _ hall (h₁.setNode h.dead _) (hnew.keeping hset₁)
      (hset₁.matching (fun heq => h.dead (heq ▸ hnew.live)) hnew.lt hmatches)
      ⟨_, Graph.node?_setNode_self _ hm₁, hframe'.trans hframe, ?_⟩⟩
    rw [hset, List.append_assoc, List.singleton_append]

/-- All operands are made to fit, one after the other. -/
theorem Halfway.run (after : List NodeId) {before : List NodeId}
    (h : Halfway live id n before after g) :
    Ends ((after.zipIdx before.length).forM fun (child, index) => fitChild id index child) g
      (fun _ g' => Keeping (· ≠ id) g g' ∧ ∃ children, Halfway live id n children [] g')
      fun _ => True := by
  induction after generalizing g before with
  | nil => exact ⟨.refl _ g, before, h⟩
  | cons child after ih =>
    rw [List.zipIdx_cons, List.forM, ends_bind]
    refine h.step.mono ?_
    rintro _ g₁ ⟨hkeeping, new, h₁⟩
    have hlength : (before ++ [new]).length = before.length + 1 := List.length_append
    have hrest := ih h₁
    rw [hlength] at hrest
    refine hrest.mono ?_
    rintro _ g₂ ⟨hkeeping', hdone⟩
    exact ⟨hkeeping.trans hkeeping', hdone⟩

/-- Resolving a node leaves it with usable operands. -/
theorem resolve_readies (h : MeetsOn Complete live g) (hn : g.node? id = some n) (hdead : ¬live id)
    (hchildren : ∀ c ∈ n.children, Usable live g c) :
    Ends (resolve id) g (fun _ g' => Keeping (· ≠ id) g g' ∧ MeetsOn Complete live g' ∧
      ∃ n', g'.node? id = some n' ∧ ∀ c ∈ n'.children, Usable live g' c) fun _ => True := by
  have hstay : Keeping (· ≠ id) g g ∧ MeetsOn Complete live g ∧
      ∃ n', g.node? id = some n' ∧ ∀ c ∈ n'.children, Usable live g c :=
    ⟨.refl _ g, h, n, hn, hchildren⟩
  have hshapes := Graph.knownShapes?_eq (h.known hchildren)
  have hplain : Ends (resolvePlain id) g (fun _ g' => Keeping (· ≠ id) g g' ∧ MeetsOn Complete live g' ∧
      ∃ n', g'.node? id = some n' ∧ ∀ c ∈ n'.children, Usable live g' c) fun _ => True := by
    unfold resolvePlain
    rw [ends_bind, ends_node hn]
    split
    · exact hstay
    · rw [ends_bind, ends_ask hshapes]
      dsimp only
      rw [ends_bind, ends_get, ends_set]
      have hset := Keeping.setNode g id (n.resolved g.functions (n.children.map g.shapeAt))
      refine ⟨hset, h.setNode hdead _, _, Graph.node?_setNode_self _ hn, fun c hc => ?_⟩
      exact (hchildren c ((n.resolves_resolved _ _).children c hc)).keeping hset
  unfold resolve
  rw [ends_bind, ends_node hn]
  cases hop : n.op with
  | construct arguments =>
    have hsame : n.children = arguments := by
      rw [Node.children, hop]
      rfl
    rw [hsame] at hshapes hchildren
    dsimp only
    split
    · exact hstay
    · rw [ends_bind, ends_ask hshapes]
      dsimp only
      rw [ends_bind]
      refine Ends.mono (h.completeArrangement n.shape _ fun a ha => ?_) ?_
      · exact hchildren _ (List.of_mem_zip ha).1
      · rintro arranged g₁ ⟨hkeeping, h₁, hready⟩
        have hn₁ := hkeeping.node id n trivial hn
        rw [ends_modifyNode hn₁]
        have hset := Keeping.setNode g₁ id { n with
          op := .construct arranged
          inputWidth := 1
          overload := some 0 }
        exact ⟨(hkeeping.mono fun _ _ => trivial).trans hset, h₁.setNode hdead _, _,
          Graph.node?_setNode_self _ hn₁, fun c hc => (hready c hc).keeping hset⟩
  | _ => exact hplain

/-- A node whose operands are complete becomes complete itself, unless the graph is refused. -/
theorem replace_lifts : Lifts (fun _ _ _ => True) Complete (fun l l' => l'.id = l.id) replace := by
  intro live g id n h _ hn hdead hchildren _
  unfold replace
  rw [ends_bind]
  refine (resolve_readies h hn hdead hchildren).mono ?_
  rintro _ g₁ ⟨hkeeping₁, h₁, n₁, hn₁, hready₁⟩
  rw [ends_bind, ends_node hn₁]
  split
  · trivial
  rename_i hunknown
  have hstart : Halfway live id n₁ [] n₁.children g₁ :=
    ⟨h₁, hdead, ⟨n₁, hn₁, rfl, rfl⟩, hready₁, fun _ _ hc => (nomatch hc)⟩
  rw [ends_bind]
  refine (hstart.run n₁.children).mono ?_
  rintro _ g₂ ⟨hkeeping₂, children, h₂⟩
  obtain ⟨m, hm, hframe, hmchildren⟩ := h₂.node
  have hready := h₂.ready
  rw [List.append_nil] at hmchildren hready
  rw [ends_pure]
  have hshape : m.shape = n₁.shape := congrArg (fun k => k.shape) hframe
  have hmeets : g₂.Meets Complete m := by
    refine Graph.meets_complete.mpr ⟨?_, fun index c hc => ?_⟩
    · rw [hshape]
      exact Bool.eq_false_iff.mpr hunknown
    · have hmatches := h₂.fits index c (hmchildren ▸ hc)
      unfold Graph.Matches at hmatches ⊢
      rwa [g₂.expectedShape_of_frame hframe]
  exact ⟨hkeeping₁.trans hkeeping₂, ⟨_, fun _ hx => .inr hx, fun _ hx => hx,
    h₂.complete.join hm hmeets (hmchildren ▸ hready), trivial, .inl rfl, Graph.lt_size hm⟩, rfl⟩

/-- After the pass everything that the outputs depend on is complete, and the outputs are what
they were. -/
theorem pass_completes {S : Streams} (h : Orderly S g) :
    Ends pass.run g (fun _ g' => g'.outputs = g.outputs ∧ g'.Obeys Complete) fun _ => True := by
  have hnodes : g.Obeys fun _ _ _ => True := by
    obtain ⟨rank, h⟩ := h
    intro id hid
    obtain ⟨n, hn⟩ := Graph.exists_node (h.needs_lt hid)
    exact ⟨n, hn, trivial⟩
  refine (pass.upward_obeys rfl replace_lifts (fun _ _ _ _ _ => trivial) (fun _ _ _ _ _ _ => trivial)
    trivial h hnodes).mono ?_
  rintro _ g' ⟨hg', houtputs⟩
  have hsame : List.Forall₂ (fun old new => old = new) g.outputs g'.outputs :=
    houtputs.imp fun _ _ hid => hid.symm
  rw [List.forall₂_eq_eq_eq] at hsame
  exact ⟨hsame.symm, hg'⟩

end Typing

/-- Type deduction establishes typing. If the pass succeeds, the outputs are what they
were, the shapes of all nodes that they depend on are known, and every operand of such a
node has exactly the shape that the node expects of it, where it expects one. -/
theorem deduction_settles_operands (g g' : Graph) (h : g.Made)
    (hrun : Typing.pass.run.runOn g = (.ok (), g')) :
    g'.outputs = g.outputs ∧ ∀ id, g'.Needs id → ∃ n, g'.node? id = some n ∧
      n.shape.isUnknown = false ∧ g'.Suits n := by
  obtain ⟨houtputs, hg'⟩ := (Typing.pass_completes h.orderly).of_runOn hrun
  refine ⟨houtputs, fun id hid => ?_⟩
  obtain ⟨n, hn, hmeets⟩ := hg' id hid
  obtain ⟨hknown, hmatches⟩ := Graph.meets_complete.mp hmeets
  refine ⟨n, hn, hknown, fun index child hchild => ?_⟩
  obtain ⟨m, hm, -⟩ := hg' child (hid.operand hn (List.mem_of_getElem? hchild))
  exact ⟨m, hm, Graph.shapeAt_eq hm ▸ hmatches index child hchild⟩

namespace Offset

/-- A stream of integers is read. -/
def reading : Graph := ((Build.input ⟨"n", .of .int 1⟩).runOn {}).2

/-- A stream of vectors is read. -/
def both : Graph := ((Build.input ⟨"v", .of .float 3⟩).runOn reading).2

/-- They are added up. -/
def added : Graph := ((Build.binary .add 0 1).runOn both).2

/-- The sum is written. -/
def graph : Graph := ((Build.output ⟨"r", .of .float 3⟩ 2).runOn added).2

/-- The graph once types are deduced. -/
def deduced : Graph := (Typing.pass.run.runOn graph).2

/-- The graph is made by four factories. -/
theorem made : graph.Made := by
  have hreading : reading.Made := .factory .empty (.input "n" .int 1)
  have hboth : both.Made := .factory hreading (.input "v" .float 3)
  have hadded : added.Made := .factory hboth (.binary .add (l := 0) (r := 1) (by decide) (by decide))
  exact .factory hadded (.output "r" .float 3 (x := 2) (by decide))

/-- The pass succeeds. -/
theorem run : Typing.pass.run.runOn graph = (.ok (), deduced) := runOn_eq (by decide +kernel)

end Offset

/-- The integers are converted and spread by two new nodes, and all operands have the
shapes that are expected. -/
theorem deduction_settles_operands_offset :
    (Offset.graph.Made ∧ Typing.pass.run.runOn Offset.graph = (.ok (), Offset.deduced)) ∧
    Offset.graph.nodes.size = 4 ∧ Offset.deduced.nodes.size = 6 ∧
    Offset.deduced.outputs = Offset.graph.outputs ∧
    ∀ id, Offset.deduced.Needs id → ∃ n, Offset.deduced.node? id = some n ∧
      n.shape.isUnknown = false ∧ Offset.deduced.Suits n :=
  ⟨⟨Offset.made, Offset.run⟩, by decide +kernel, by decide +kernel,
    deduction_settles_operands Offset.graph Offset.deduced Offset.made Offset.run⟩

end LaneGraph
