import LaneGraph.Proofs.Deduction
import LaneGraph.Proofs.Resolution

/-!
# Graphs made by factories

A graph that is built by factories from nothing is a draft. A node that a factory
adds refers to nodes that are there, except for a constructor, which is added
before the parts that it selects from its arguments. So positions are no order
of computation, but there is one: a constructor ranks above its parts.

Calls may be exact or not. If they are, the byte in which a call records its choice
tells which candidate it has taken. A graph whose outputs depend on no call does not
care, so drafts are made for either case.
-/

namespace LaneGraph

open Build

variable {exact : Prop} {g g' g'' : Graph} {w w' w'' : World} {refused : GraphError → Prop}

/-- The rules of drafts whose values are not followed. -/
abbrev draft (exact : Prop) : Rules := draftRules exact False fun _ => 0

/-- Nodes are added, and all that are added matter. -/
structure Grows (g : Graph) (w : World) (g' : Graph) (w' : World) : Prop
    extends Extends g w g' w' where
  covers : ∀ id, g.nodes.size ≤ id → id < g'.nodes.size → w'.live id

namespace Grows

/-- Doing nothing adds nothing. -/
theorem refl (g : Graph) (w : World) : Grows g w g w :=
  ⟨Extends.refl g w, fun _ hle hlt => absurd hlt (Nat.not_lt.mpr hle)⟩

/-- What is added in two steps is added. -/
theorem trans (h : Grows g w g' w') (h' : Grows g' w' g'' w'') : Grows g w g'' w'' where
  toExtends := h.toExtends.trans h'.toExtends
  covers id hle hlt := by
    by_cases hid : id < g'.nodes.size
    · exact h'.live id (h.covers id hle hid)
    · exact h'.covers id (Nat.le_of_not_lt hid) hlt

/-- A node that is added and taken in. -/
theorem push {R : Rules} (hs : Sound R g w) (n : Node) (rank : Nat) (value : Value) :
    Grows g w (g.push n) (w.add g.nodes.size rank value) where
  toExtends := Extends.push hs n rank value
  covers id hle hlt := by
    have hsize : (g.push n).nodes.size = g.nodes.size + 1 := Array.size_push n
    exact .inl (show id = g.nodes.size by omega)

end Grows

/-- Where operands are in the arena, their shapes are known, or one of them is
not. -/
theorem Graph.knownShapes?_cases {ids : List NodeId} (h : ∀ c ∈ ids, ∃ n, g.node? c = some n) :
    g.Known ids ∨ g.knownShapes? ids = .ok none ∧ ∃ c ∈ ids, (g.shapeAt c).isUnknown = true := by
  induction ids with
  | nil => exact .inl fun c hc => (nomatch hc)
  | cons id rest ih =>
    obtain ⟨n, hn⟩ := h id List.mem_cons_self
    have hnode : g.node id = .ok n := by
      unfold node
      rw [hn]
    cases hknown : n.shape.isUnknown with
    | true =>
      refine .inr ⟨?_, id, List.mem_cons_self, by rw [shapeAt_eq hn]; exact hknown⟩
      rw [knownShapes?, hnode]
      dsimp only
      rw [hknown]
      rfl
    | false =>
      rcases ih fun c hc => h c (List.mem_cons_of_mem _ hc) with hrest | ⟨hnone, c, hc, hunknown⟩
      · refine .inl fun c hc => ?_
        rcases List.mem_cons.mp hc with rfl | hc
        · exact ⟨n, hn, hknown⟩
        · exact hrest c hc
      · refine .inr ⟨?_, c, List.mem_cons_of_mem _ hc, hunknown⟩
        rw [knownShapes?, hnode]
        dsimp only
        rw [hknown, hnone]
        rfl

/-- A node with an unknown operand is added as it is. -/
theorem Build.runOn_plain_unknown {op : Operation} {shape : Shape}
    (h : (g.push { op, shape }).knownShapes? op.children = .ok none) :
    (plain op shape).runOn g = (.ok g.nodes.size, g.push { op, shape }) := by
  have hnode := Graph.node?_push_size g ({ op, shape } : Node)
  have hopen : ¬({ op, shape } : Node).overload.isSome = true := Bool.false_ne_true
  unfold plain
  rw [runOn_bind, runOn_append]
  dsimp only
  rw [runOn_bind]
  unfold resolvePlain
  rw [runOn_bind, runOn_node hnode]
  dsimp only
  rw [if_neg hopen, runOn_bind]
  have hask : (ask (·.knownShapes? op.children)).runOn (g.push { op, shape }) =
      (.ok none, g.push { op, shape }) := runOn_ask h
  unfold Node.children
  rw [hask]
  rfl

/-- Resolving a node keeps its stream. -/
theorem Node.channel?_resolved (functions : List Signature) (op : Operation) (shape : Shape)
    (shapes : List Shape) :
    (({ op, shape } : Node).resolved functions shapes).channel? =
      ({ op, shape } : Node).channel? := by
  have hoperator : ∀ (n : Node) (types : List OperatorType) (reduces : Bool),
      (n.resolveOperator types shapes reduces).channel? = n.channel? := by
    intro n types reduces
    unfold resolveOperator
    dsimp only
    split
    · rfl
    · split <;> rfl
  cases op with
  | unary op x =>
    by_cases hconvert : op = .convert
    · subst hconvert
      rfl
    · rw [resolved_unary rfl hconvert, hoperator]
  | binary op x y => rw [resolved_binary rfl, hoperator]
  | ternary op x y z => rw [resolved_ternary rfl, hoperator]
  | call candidates arguments =>
    have hresolved : ({ op := .call candidates arguments, shape } : Node).resolved functions shapes =
        ({ op := .call candidates arguments, shape } : Node).resolveCall functions candidates
          arguments shapes := rfl
    rw [hresolved, resolveCall_eq]
    split
    · rfl
    · split <;> rfl
  | _ => rfl

/-- Resolving a node that writes a stream keeps its shape. -/
theorem Node.shape_resolved {functions : List Signature} {op : Operation} {shape : Shape}
    {shapes : List Shape}
    (h : (({ op, shape } : Node).resolved functions shapes).channel?.isSome = true) :
    (({ op, shape } : Node).resolved functions shapes).shape = shape := by
  rw [channel?_resolved] at h
  unfold channel? at h
  cases op with
  | output channel source => rfl
  | _ => cases h

/-- Operands of a draft that are known are sized. -/
theorem Sound.draft_sized (hs : Sound (draft exact) g w) {c : NodeId} (hc : w.live c)
    (hknown : (g.shapeAt c).isUnknown = false) : (g.shapeAt c).Sized := by
  obtain ⟨n, hn, hsound⟩ := hs c hc
  rw [Graph.shapeAt_eq hn] at hknown ⊢
  exact hsound.fits.1 hknown

/-- A node that fits may be added to a draft. -/
theorem Sound.grown (hs : Sound (draft exact) g w) {n : Node} (hlive : ∀ c ∈ n.children, w.live c)
    (hfits : (draft exact).fits g.functions n.frame (n.children.map g.shapeAt)) :
    ∃ w', Sound (draft exact) (g.push n) w' ∧ Grows g w (g.push n) w' := by
  let rank := (n.children.map fun c => w.rank c + 1).foldl max 0
  have hbelow : ∀ c ∈ n.children, w.rank c + 1 ≤ rank := by
    intro c hc
    exact le_foldl_max (List.mem_map_of_mem (f := fun c => w.rank c + 1) hc) 0
  exact ⟨w.add g.nodes.size rank Value.absent,
    hs.push n rank _ ⟨hfits, hlive, hbelow, fun h => h.elim⟩, Grows.push hs n rank _⟩

/-- A factory adds a node to a draft, and it cannot fail. -/
theorem Build.plain_grows {op : Operation} {shape : Shape} (hs : Sound (draft exact) g w)
    (hlive : ∀ c ∈ op.children, w.live c) (hmakes : op.Makes exact g.functions shape) :
    Ends (plain op shape) g (fun id g' => ∃ w' n, g' = g.push n ∧ id = g.nodes.size ∧
      Sound (draft exact) g' w' ∧ Grows g w g' w' ∧ n.channel? = ({ op, shape } : Node).channel? ∧
      (n.channel?.isSome = true → n.shape = shape) ∧ (g.Known op.children →
        n = ({ op, shape } : Node).resolved g.functions (op.children.map g.shapeAt))) refused := by
  let n₀ : Node := { op, shape }
  have hnodes : ∀ c ∈ op.children, ∃ n, g.node? c = some n := fun c hc => hs.node (hlive c hc)
  have hshapes : ∀ c ∈ op.children, (g.push n₀).shapeAt c = g.shapeAt c := by
    intro c hc
    obtain ⟨m, hm⟩ := hnodes c hc
    rw [Graph.shapeAt_eq hm, Graph.shapeAt_eq (Graph.node?_push_of_some hm)]
  have hpushed : ∀ c ∈ op.children, ∃ n, (g.push n₀).node? c = some n := by
    intro c hc
    obtain ⟨m, hm⟩ := hnodes c hc
    exact ⟨m, Graph.node?_push_of_some hm⟩
  rcases Graph.knownShapes?_cases hpushed with hknown | ⟨hnone, c, hc, hunknown⟩
  · have hknown' : g.Known op.children := by
      refine Graph.known_of_shapeAt fun c hc => ?_
      obtain ⟨m, hm, h⟩ := hknown c hc
      rw [← hshapes c hc, Graph.shapeAt_eq hm]
      exact h
    have hsized : ∀ s ∈ op.children.map g.shapeAt, s.Sized := by
      intro s hs'
      obtain ⟨c, hc, rfl⟩ := List.mem_map.mp hs'
      refine hs.draft_sized (hlive c hc) ?_
      obtain ⟨m, hm, h⟩ := hknown' c hc
      rw [Graph.shapeAt_eq hm]
      exact h
    obtain ⟨k, hchildren, hop, hsketched⟩ :=
      Node.resolved_sketched hmakes hsized (List.length_map _)
    rw [ends_of_runOn (runOn_plain op shape hknown')]
    generalize hn : ({ op, shape } : Node).resolved g.functions (op.children.map g.shapeAt) = n
      at hchildren hop hsketched
    obtain ⟨w', hs', hgrows⟩ := hs.grown (n := n)
      (fun c hc => hlive c (List.mem_of_mem_take (hchildren ▸ hc)))
      ⟨fun h => hsketched.sized hop h, fun _ => by
        rw [Node.sketched_frame, hchildren, List.map_take]
        exact hsketched⟩
    exact ⟨w', n, rfl, rfl, hs', hgrows, by rw [← hn]; exact Node.channel?_resolved _ _ _ _,
      fun h => by subst hn; exact Node.shape_resolved h, fun _ => rfl⟩
  · rw [ends_of_runOn (runOn_plain_unknown hnone)]
    obtain ⟨w', hs', hgrows⟩ := hs.grown (n := n₀) hlive ⟨fun h => hmakes.sized h, fun h => by
      rw [hshapes c hc] at hunknown
      rw [h _ (List.mem_map_of_mem hc)] at hunknown
      cases hunknown⟩
    refine ⟨w', n₀, rfl, rfl, hs', hgrows, rfl, fun _ => rfl, fun h => ?_⟩
    obtain ⟨m, hm, hsome⟩ := h c hc
    rw [hshapes c hc, Graph.shapeAt_eq hm, hsome] at hunknown
    cases hunknown

namespace Build

/-- A component of a known node of a draft is selected. -/
theorem swizzle_grows (hs : Sound (draft exact) g w) {x : NodeId} (hx : w.live x)
    (hsized : (g.shapeAt x).Sized) (c : Component) :
    Ends (swizzle [c] x) g (fun id g' => ∃ w', Sound (draft exact) g' w' ∧ Grows g w g' w' ∧
      w'.live id ∧ (g'.shapeAt id).width = 1) refused := by
  have hlive : ∀ y ∈ (Operation.swizzle [c] x).children, w.live y :=
    fun y hy => List.mem_singleton.mp hy ▸ hx
  refine (plain_grows hs hlive rfl).mono ?_
  rintro id g' ⟨w', n, rfl, rfl, hs', hgrows, -, -, hknown⟩
  have hn := hknown (Graph.known_of_shapeAt fun c hc => by
    rw [List.mem_singleton.mp hc]
    exact hsized.not_unknown)
  have hsize : (g.push n).nodes.size = g.nodes.size + 1 := Array.size_push n
  refine ⟨w', hs', hgrows, hgrows.covers _ (Nat.le_refl _) (by omega), ?_⟩
  rw [Graph.shapeAt_eq (Graph.node?_push_size g n), hn]
  show (Shape.of (g.shapeAt x).kind 1).width = 1
  rw [Shape.of_eq hsized.known (Nat.le_refl 1) (by decide)]

/-- Components of a known node of a draft are selected, one after the other. -/
theorem selections_grow (places : List Nat) {x : NodeId} :
    ∀ {g : Graph} {w : World}, Sound (draft exact) g w → w.live x → (g.shapeAt x).Sized →
      Ends (places.mapM fun i => swizzle [Component.ofIndex i] x) g (fun ids g' => ∃ w',
        Sound (draft exact) g' w' ∧ Grows g w g' w' ∧
        ∀ id ∈ ids, w'.live id ∧ (g'.shapeAt id).width = 1) refused := by
  induction places with
  | nil => exact fun {g w} hs _ _ => ⟨w, hs, Grows.refl g w, fun _ h => (nomatch h)⟩
  | cons place places ih =>
    intro g w hs hx hsized
    rw [List.mapM_cons, ends_bind]
    refine (swizzle_grows hs hx hsized _).mono ?_
    rintro id g₁ ⟨w₁, hs₁, hgrows₁, hlive, hwidth⟩
    rw [ends_bind]
    refine (ih hs₁ (hgrows₁.live x hx) (by rw [hgrows₁.shapeAt hs hx]; exact hsized)).mono ?_
    rintro ids g₂ ⟨w₂, hs₂, hgrows₂, hids⟩
    refine ⟨w₂, hs₂, hgrows₁.trans hgrows₂, fun y hy => ?_⟩
    rcases List.mem_cons.mp hy with rfl | hy
    · exact ⟨hgrows₂.live _ hlive, by rw [hgrows₂.shapeAt hs₁ hlive]; exact hwidth⟩
    · exact hids y hy

/-- Arguments are split into scalars. -/
theorem flatten_grows (arguments : List NodeId) :
    ∀ {g : Graph} {w : World}, Sound (draft exact) g w →
      (∀ x ∈ arguments, w.live x ∧ (g.shapeAt x).Sized) →
      Ends (flatten (arguments.zip (arguments.map g.shapeAt))) g (fun ids g' => ∃ w',
        Sound (draft exact) g' w' ∧ Grows g w g' w' ∧
        ∀ id ∈ ids, w'.live id ∧ (g'.shapeAt id).width = 1) refused := by
  induction arguments with
  | nil => exact fun {g w} hs _ => ⟨w, hs, Grows.refl g w, fun _ h => (nomatch h)⟩
  | cons x rest ih =>
    intro g w hs hall
    obtain ⟨hx, hsized⟩ := hall x List.mem_cons_self
    rw [List.map_cons, List.zip_cons_cons, flatten]
    have hafter : ∀ parts g₁, (∃ w₁, Sound (draft exact) g₁ w₁ ∧ Grows g w g₁ w₁ ∧
        ∀ id ∈ parts, w₁.live id ∧ (g₁.shapeAt id).width = 1) →
        Ends (do return parts ++ (← flatten (rest.zip (rest.map g.shapeAt)))) g₁ (fun ids g' =>
          ∃ w', Sound (draft exact) g' w' ∧ Grows g w g' w' ∧
            ∀ id ∈ ids, w'.live id ∧ (g'.shapeAt id).width = 1) refused := by
      rintro parts g₁ ⟨w₁, hs₁, hgrows₁, hparts⟩
      have hold : ∀ y ∈ rest, g₁.shapeAt y = g.shapeAt y := fun y hy =>
        hgrows₁.shapeAt hs (hall y (List.mem_cons_of_mem _ hy)).1
      have hrest := ih hs₁ fun y hy => by
        obtain ⟨hlive, hshape⟩ := hall y (List.mem_cons_of_mem _ hy)
        rw [hold y hy]
        exact ⟨hgrows₁.live y hlive, hshape⟩
      rw [List.map_congr_left hold] at hrest
      rw [ends_bind]
      refine hrest.mono ?_
      rintro ids g₂ ⟨w₂, hs₂, hgrows₂, hids⟩
      refine ⟨w₂, hs₂, hgrows₁.trans hgrows₂, fun y hy => ?_⟩
      rcases List.mem_append.mp hy with hy | hy
      · obtain ⟨hlive, hwidth⟩ := hparts y hy
        exact ⟨hgrows₂.live _ hlive, by rw [hgrows₂.shapeAt hs₁ hlive]; exact hwidth⟩
      · exact hids y hy
    by_cases hscalar : (g.shapeAt x).isScalar = true
    · simp only [if_pos hscalar, pure_bind]
      refine hafter [x] g ⟨w, hs, Grows.refl g w, fun y hy => ?_⟩
      rw [List.mem_singleton.mp hy]
      exact ⟨hx, of_decide_eq_true hscalar⟩
    · simp only [if_neg hscalar]
      rw [ends_bind]
      exact (selections_grow _ hs hx hsized).mono hafter

/-- Arguments are arranged as one scalar for each component. -/
theorem arrangement_grows {target : Shape} {arguments : List NodeId} (hs : Sound (draft exact) g w)
    (hall : ∀ x ∈ arguments, w.live x ∧ (g.shapeAt x).Sized) :
    Ends (arrangement target (arguments.zip (arguments.map g.shapeAt))) g (fun ids g' => ∃ w',
      Sound (draft exact) g' w' ∧ Grows g w g' w' ∧
      (∀ id ∈ ids, w'.live id ∧ (g'.shapeAt id).width = 1) ∧
      (target.Sized → ids.length = target.width)) refused := by
  unfold arrangement
  dsimp only
  split
  · rename_i argument heq
    split at heq
    · rename_i argument' shape hzip
      split at heq
      · rename_i hcondition
        cases heq
        obtain ⟨x, rfl⟩ : ∃ x, arguments = [x] := by
          refine List.length_eq_one_iff.mp ?_
          have hlength := congrArg List.length hzip
          rw [List.length_zip, List.length_map, Nat.min_self] at hlength
          exact hlength
        rw [List.map_singleton, List.zip_cons_cons] at hzip
        cases hzip
        rw [Bool.and_eq_true] at hcondition
        refine ⟨w, hs, Grows.refl g w, fun id hid => ?_, fun _ => List.length_replicate⟩
        rw [List.eq_of_mem_replicate hid]
        exact ⟨(hall _ (List.mem_singleton_self _)).1, of_decide_eq_true hcondition.1⟩
      · cases heq
    · cases heq
  · rw [ends_bind]
    refine (flatten_grows arguments hs hall).mono ?_
    rintro flat g₁ ⟨w₁, hs₁, hgrows₁, hflat⟩
    have htake : ∀ id ∈ flat.take target.width, w₁.live id ∧ (g₁.shapeAt id).width = 1 :=
      fun id hid => hflat id (List.mem_of_mem_take hid)
    split
    · rename_i hfew
      cases hzero : Scalar.zero? target.kind with
      | none =>
        refine ⟨w₁, hs₁, hgrows₁, htake, fun hsized => ?_⟩
        have hknown := hsized.known
        cases hkind : target.kind <;> rw [hkind] at hzero hknown <;>
          first | exact absurd rfl hknown | cases hzero
      | some z =>
        have hshape : (Constant.ofScalar z).shape = ⟨z.kind, 1⟩ := by cases z <;> rfl
        have hleaf : ∀ y ∈ (Operation.constant (Constant.ofScalar z)).children, w₁.live y :=
          fun y hy => (nomatch hy)
        dsimp only
        rw [ends_bind]
        refine (plain_grows hs₁ hleaf rfl).mono ?_
        rintro pad g₂ ⟨w₂, n, rfl, rfl, hs₂, hgrows₂, -, -, hknown⟩
        have hn := hknown fun _ h => (nomatch h)
        have hsize : (g₁.push n).nodes.size = g₁.nodes.size + 1 := Array.size_push n
        refine ⟨w₂, hs₂, hgrows₁.trans hgrows₂, fun id hid => ?_, fun _ => ?_⟩
        · rcases List.mem_append.mp hid with hid | hid
          · obtain ⟨hlive, hwidth⟩ := htake id hid
            exact ⟨hgrows₂.live _ hlive, by rw [hgrows₂.shapeAt hs₁ hlive]; exact hwidth⟩
          · rw [List.eq_of_mem_replicate hid]
            refine ⟨hgrows₂.covers _ (Nat.le_refl _) (by omega), ?_⟩
            rw [Graph.shapeAt_eq (Graph.node?_push_size g₁ n), hn]
            show (Constant.ofScalar z).shape.width = 1
            rw [hshape]
        · rw [List.length_append, List.length_replicate]
          omega
    · rename_i hmany
      refine ⟨w₁, hs₁, hgrows₁, htake, fun _ => ?_⟩
      have hle : (flat.take target.width).length ≤ target.width := by
        rw [List.length_take]
        exact Nat.min_le_left _ _
      omega

end Build

/-- Nothing gets lost when a node that does not matter is replaced. -/
theorem Sound.later_setNode {R : Rules} (hs : Sound R g w) {id : NodeId} (hdead : ¬w.live id)
    (n : Node) : Later g w (g.setNode id n) w where
  functions := rfl
  outputs := rfl
  size := Nat.le_of_eq (Graph.size_setNode g id n).symm
  live _ hx := hx
  rank _ _ := rfl
  value _ _ := rfl
  frame x m hx hm := by
    have hne : ∀ y, w.live y → y ≠ id := fun y hy heq => hdead (heq ▸ hy)
    refine ⟨m, by rw [Graph.node?_setNode_of_ne n (hne x hx)]; exact hm, rfl, ?_⟩
    refine List.map_congr_left fun c hc => ?_
    unfold Graph.shapeAt
    rw [Graph.node?_setNode_of_ne n (hne c ((hs.nodeSound hx hm).live c hc))]

/-- A node that fits and does not matter yet is taken in. -/
theorem Sound.taken (hs : Sound (draft exact) g w) {id : NodeId} {n : Node}
    (hn : g.node? id = some n)
    (hdead : ¬w.live id) (hlive : ∀ c ∈ n.children, w.live c)
    (hfits : (draft exact).fits g.functions n.frame (n.children.map g.shapeAt)) :
    ∃ w', Sound (draft exact) g w' ∧ Later g w g w' ∧ w'.live id ∧
      ∀ x, w'.live x → x = id ∨ w.live x := by
  have hvalue : (draft exact).tracked → Value.absent = (draft exact).meaning g.functions n.frame
      (n.children.map g.shapeAt) (n.children.map w.value) := fun h => h.elim
  obtain ⟨rank, hreplaced⟩ := Replaced.stay hs hn hdead hlive hfits hvalue
  exact ⟨_, hreplaced.sound, hreplaced.later, hreplaced.live, fun x hx => hx⟩

/-- A constructor is added to a draft, with the parts it selects. -/
theorem Build.construct_grows {shape : Shape} {arguments : List NodeId}
    (hs : Sound (draft exact) g w)
    (hlive : ∀ x ∈ arguments, w.live x) (hshape : shape.isUnknown = false → shape.Sized) :
    Ends (construct shape arguments) g
      (fun _ g' => ∃ w', Sound (draft exact) g' w' ∧ Grows g w g' w') refused := by
  let n₀ : Node := { op := .construct arguments, shape }
  let id := g.nodes.size
  have hn₀ : (g.push n₀).node? id = some n₀ := Graph.node?_push_size g n₀
  have hlater₀ := hs.later_push n₀
  have hs₀ : Sound (draft exact) (g.push n₀) w :=
    hs.of_kept hlater₀ fun _ _ _ hm => Graph.node?_push_of_some hm
  have hdead : ¬w.live id := fun h => Nat.lt_irrefl _ (hs.lt_size h)
  unfold construct
  rw [ends_bind, ends_append, ends_bind]
  unfold resolve
  rw [ends_bind, ends_node hn₀]
  dsimp only [n₀]
  rw [if_neg (by decide), ends_bind]
  have hnodes : ∀ c ∈ arguments, ∃ n, (g.push n₀).node? c = some n :=
    fun c hc => hs₀.node (hlive c hc)
  have hpushed : (g.push n₀).nodes.size = g.nodes.size + 1 := Array.size_push n₀
  rcases Graph.knownShapes?_cases hnodes with hknown | ⟨hnone, c, hc, hunknown⟩
  · have hall : ∀ x ∈ arguments, w.live x ∧ ((g.push n₀).shapeAt x).Sized := by
      intro x hx
      obtain ⟨m, hm, h⟩ := hknown x hx
      refine ⟨hlive x hx, hs₀.draft_sized (hlive x hx) ?_⟩
      rw [Graph.shapeAt_eq hm]
      exact h
    rw [ends_ask (Graph.knownShapes?_eq hknown)]
    dsimp only
    rw [ends_bind]
    refine (arrangement_grows hs₀ hall).mono ?_
    rintro ids g₁ ⟨w₁, hs₁, hgrows, hids, hlength⟩
    have hn₁ := hgrows.nodes id n₀ hn₀
    have hdead₁ : ¬w₁.live id := by
      intro h
      rcases hgrows.fresh id h with hold | hsize
      · exact hdead hold
      · have hid : id = g.nodes.size := rfl
        omega
    rw [ends_modifyNode hn₁, ends_pure]
    let n₁ : Node := { op := .construct ids, shape, inputWidth := 1, overload := some 0 }
    have hlater₁ := hs₁.later_setNode hdead₁ n₁
    have hs₂ : Sound (draft exact) (g₁.setNode id n₁) w₁ := hs₁.of_kept hlater₁ fun x m hx hm => by
      have hne : x ≠ id := fun heq => hdead₁ (heq ▸ hx)
      rw [Graph.node?_setNode_of_ne n₁ hne]
      exact hm
    have hn₂ : (g₁.setNode id n₁).node? id = some n₁ := Graph.node?_setNode_self n₁ hn₁
    have hfits : (draft exact).fits (g₁.setNode id n₁).functions n₁.frame
        (n₁.children.map (g₁.setNode id n₁).shapeAt) := by
      refine ⟨hshape, fun _ => Node.sketched_frame.mpr (.inl ⟨rfl, ?_⟩)⟩
      by_cases hunknown : shape.isUnknown = true
      · exact .inl hunknown
      · have hknownShape := Bool.eq_false_iff.mpr hunknown
        refine .inr ⟨(List.length_map _).trans (hlength (hshape hknownShape)), fun s hs' => ?_⟩
        obtain ⟨x, hx, rfl⟩ := List.mem_map.mp hs'
        obtain ⟨hxlive, hwidth⟩ := hids x hx
        rw [hlater₁.shapeAt hs₁ hxlive]
        exact hwidth
    obtain ⟨w₂, hs₃, hlater₂, hself, hlive₂⟩ := hs₂.taken hn₂ hdead₁
      (fun x hx => (hids x hx).1) hfits
    refine ⟨w₂, hs₃, ⟨((hlater₀.trans hgrows.toLater).trans hlater₁).trans hlater₂, ?_, ?_⟩, ?_⟩
    · intro x m hm
      have hne : x ≠ id := Nat.ne_of_lt (Graph.lt_size hm)
      rw [Graph.node?_setNode_of_ne n₁ hne]
      exact hgrows.nodes x m (Graph.node?_push_of_some hm)
    · intro x hx
      rcases hlive₂ x hx with rfl | hx
      · exact .inr (Nat.le_refl _)
      · rcases hgrows.fresh x hx with hold | hsize
        · exact .inl hold
        · exact .inr (by omega)
    · intro x hle hlt
      rw [Graph.size_setNode] at hlt
      by_cases hx : x = id
      · rw [hx]
        exact hself
      · have hid : id = g.nodes.size := rfl
        exact hlater₂.live x (hgrows.covers x (by omega) hlt)
  · rw [ends_ask hnone]
    obtain ⟨w', hs', hgrows⟩ := hs.grown (n := n₀) hlive ⟨hshape, fun h => by
      rw [hlater₀.shapeAt hs (hlive c hc), h _ (List.mem_map_of_mem hc)] at hunknown
      cases hunknown⟩
    exact ⟨w', hs', hgrows⟩

/-- The steps of factories, with operands that are in the arena. Numbers, integers
and booleans are constants, and components may be spelled by letters. A call has at
most 256 candidates, as many as the byte can tell apart in which a node records its
choice. None of them requires more operands than it has inputs, which is what
`Signature.ofInputs` and `Signature.withRequired` see to. -/
inductive Factory (g : Graph) : Build NodeId → Prop
  | unary (op : UnaryOp) {x : NodeId} (hx : x < g.nodes.size) : Factory g (Build.unary op x)
  | convert {x : NodeId} (hx : x < g.nodes.size) (target : Kind) :
    Factory g (Build.convert x target)
  | binary (op : BinaryOp) {l r : NodeId} (hl : l < g.nodes.size) (hr : r < g.nodes.size) :
    Factory g (Build.binary op l r)
  | ternary (op : TernaryOp) {a b c : NodeId} (ha : a < g.nodes.size) (hb : b < g.nodes.size)
      (hc : c < g.nodes.size) : Factory g (Build.ternary op a b c)
  | constant (value : Constant) : Factory g (Build.constant value)
  | swizzle (components : List Component) {x : NodeId} (hx : x < g.nodes.size) :
    Factory g (Build.swizzle components x)
  | input (name : String) (encoding : Encoding) (count : Nat) :
    Factory g (Build.input ⟨name, Format.of encoding count⟩)
  | output (name : String) (encoding : Encoding) (count : Nat) {x : NodeId}
      (hx : x < g.nodes.size) : Factory g (Build.output ⟨name, Format.of encoding count⟩ x)
  | call {candidates : List Signature} {arguments : List NodeId}
      (hcandidates : candidates.length ≤ 256)
      (hrequired : ∀ s ∈ candidates, s.required ≤ s.inputs.length)
      (harguments : ∀ x ∈ arguments, x < g.nodes.size) : Factory g (Build.call candidates arguments)
  | construct (kind : Kind) (width : Nat) {arguments : List NodeId}
      (harguments : ∀ x ∈ arguments, x < g.nodes.size) :
    Factory g (Build.construct (Shape.of kind width) arguments)

/-- The graph is built by factories from nothing, none of which fails, and its calls keep to
the limits that `Factory` has for them: at most 256 candidates, of which none requires more
operands than it has inputs. `Graph.Made` leaves these limits out, and it counts what a
failing factory leaves behind. -/
inductive Graph.Built : Graph → Prop
  | empty : Built Graph.empty
  | made {g g' : Graph} {steps : Build NodeId} {id : NodeId} (h : Built g)
      (hfactory : Factory g steps) (hrun : steps.runOn g = (.ok id, g')) : Built g'

/-- All nodes of the graph follow the rules of drafts, and its outputs write
streams, of known shapes. -/
structure Graph.Draft (exact : Prop) (g : Graph) (w : World) : Prop where
  sound : Sound (draft exact) g w
  live : ∀ id < g.nodes.size, w.live id
  outputs : ∀ id ∈ g.outputs, ∃ channel, g.channelAt id = some channel
  sized : ∀ id ∈ g.outputs, (g.shapeAt id).Sized

namespace Graph.Draft

/-- The empty graph is a draft. -/
theorem empty (exact : Prop) :
    Graph.empty.Draft exact ⟨fun _ => False, fun _ => 0, fun _ => Value.absent⟩ where
  sound _ hid := hid.elim
  live _ hid := absurd hid (Nat.not_lt_zero _)
  outputs _ hid := nomatch hid
  sized _ hid := nomatch hid

/-- A draft to which nodes are added is a draft. -/
theorem grow (h : g.Draft exact w) (hs : Sound (draft exact) g' w') (hgrows : Grows g w g' w') :
    g'.Draft exact w' where
  sound := hs
  live id hid := by
    by_cases hold : id < g.nodes.size
    · exact hgrows.live id (h.live id hold)
    · exact hgrows.covers id (Nat.le_of_not_lt hold) hid
  outputs id hid := by
    rw [hgrows.outputs] at hid
    obtain ⟨channel, hchannel⟩ := h.outputs id hid
    refine ⟨channel, ?_⟩
    unfold channelAt at hchannel ⊢
    cases hn : g.node? id with
    | none =>
      rw [hn] at hchannel
      cases hchannel
    | some n =>
      rw [hn] at hchannel
      rw [hgrows.nodes id n hn]
      exact hchannel
  sized id hid := by
    rw [hgrows.outputs] at hid
    obtain ⟨channel, hchannel⟩ := h.outputs id hid
    obtain ⟨n, -, hn, -⟩ := channelAt_eq_some hchannel
    rw [hgrows.shapeAt h.sound (h.live id (lt_size hn))]
    exact h.sized id hid

/-- A node that is no constructor is added to a draft. -/
theorem plain (h : g.Draft exact w) {op : Operation} {shape : Shape}
    (hchildren : ∀ c ∈ op.children, c < g.nodes.size) (hmakes : op.Makes exact g.functions shape) :
    Ends (Build.plain op shape) g (fun _ g' => ∃ w', g'.Draft exact w') refused := by
  refine (plain_grows h.sound (fun c hc => h.live c (hchildren c hc)) hmakes).mono ?_
  rintro _ g' ⟨w', _, -, -, hs', hgrows, -⟩
  exact ⟨w', h.grow hs' hgrows⟩

/-- The function table may be continued. -/
theorem withFunctions (h : g.Draft exact w) (more : List Signature) :
    ({ g with functions := g.functions ++ more } : Graph).Draft exact w where
  sound id hid := by
    obtain ⟨n, hn, hsound⟩ := h.sound id hid
    exact ⟨n, hn, ⟨hsound.fits.1, fun hknown => (hsound.fits.2 hknown).withFunctions more⟩,
      hsound.live, hsound.below, fun h => h.elim⟩
  live := h.live
  outputs := h.outputs
  sized := h.sized

/-- Signatures are found in the function table, or enter it. -/
theorem functions (candidates : List Signature) :
    ∀ {g : Graph}, g.Draft exact w → Ends (candidates.mapM Build.function) g (fun ids g' =>
      ids.length = candidates.length ∧ (∃ more, g' = { g with functions := g.functions ++ more }) ∧
      ∀ f ∈ ids, ∃ s ∈ candidates, g'.functions[f]? = some s) refused := by
  induction candidates with
  | nil =>
    intro g _
    exact ⟨rfl, ⟨[], by rw [List.append_nil]⟩, fun _ hf => (nomatch hf)⟩
  | cons s rest ih =>
    intro g h
    have hafter : ∀ (f : FunctionId) (more : List Signature),
        (g.functions ++ more)[f]? = some s →
        Ends (do return f :: (← rest.mapM Build.function)) { g with functions := g.functions ++ more }
          (fun ids g' => ids.length = (s :: rest).length ∧
            (∃ more, g' = { g with functions := g.functions ++ more }) ∧
            ∀ f ∈ ids, ∃ s' ∈ s :: rest, g'.functions[f]? = some s') refused := by
      intro f more hf
      rw [ends_bind]
      refine (ih (h.withFunctions more)).mono ?_
      rintro ids g' ⟨hlength, ⟨more', rfl⟩, hids⟩
      refine ⟨by rw [List.length_cons, List.length_cons, hlength],
        ⟨more ++ more', by rw [List.append_assoc]⟩, fun x hx => ?_⟩
      rcases List.mem_cons.mp hx with rfl | hx
      · refine ⟨s, List.mem_cons_self, ?_⟩
        dsimp only
        rw [List.getElem?_append_left (List.getElem?_eq_some_iff.mp hf).1]
        exact hf
      · obtain ⟨s', hs', hget⟩ := hids x hx
        exact ⟨s', List.mem_cons_of_mem _ hs', hget⟩
    rw [List.mapM_cons, ends_bind]
    unfold Build.function
    rw [ends_bind, ends_get]
    cases hidx : g.functions.idxOf? s with
    | some f =>
      rw [ends_pure]
      have hf : g.functions[f]? = some s := by
        obtain ⟨hlt, hget, -⟩ := List.findIdx?_eq_some_iff_getElem.mp hidx
        rw [List.getElem?_eq_getElem hlt, beq_iff_eq.mp hget]
      have hnone := hafter f [] (by rw [List.append_nil]; exact hf)
      rw [List.append_nil] at hnone
      exact hnone
    | none =>
      dsimp only
      rw [ends_bind, ends_set, ends_pure]
      exact hafter g.functions.length [s] List.getElem?_concat_length

/-- A call is added to a draft, and it cannot fail. -/
theorem call (h : g.Draft exact w) {candidates : List Signature} {arguments : List NodeId}
    (hexact : exact → candidates.length ≤ 256 ∧ ∀ s ∈ candidates, s.required ≤ s.inputs.length)
    (harguments : ∀ x ∈ arguments, x < g.nodes.size) :
    Ends (Build.call candidates arguments) g (fun _ g' => ∃ w', g'.Draft exact w')
      fun _ => False := by
  unfold Build.call
  rw [ends_bind]
  refine (Draft.functions candidates h).mono ?_
  rintro ids g' ⟨hlength, ⟨more, rfl⟩, hids⟩
  refine (h.withFunctions more).plain harguments ⟨rfl, fun hcase => ?_, fun f hf => ?_⟩
  · rw [hlength]
    exact (hexact hcase).1
  · obtain ⟨s, hs, hget⟩ := hids f hf
    exact ⟨s, hget, fun hcase => (hexact hcase).2 s hs⟩

/-- What a factory makes of a draft is a draft, and it cannot fail. -/
theorem factory (h : g.Draft exact w) {steps : Build NodeId} (hfactory : Factory g steps) :
    Ends steps g (fun _ g' => ∃ w', g'.Draft exact w') fun _ => False := by
  have hformat : ∀ (encoding : Encoding) (count : Nat),
      1 ≤ (Format.of encoding count).count ∧ (Format.of encoding count).count ≤ 4 := by
    intro encoding count
    unfold Format.of
    dsimp only
    omega
  cases hfactory with
  | unary op hx =>
    refine h.plain (fun c hc => List.mem_singleton.mp hc ▸ hx) ?_
    cases op <;> first | rfl | exact ⟨.unknown, rfl⟩
  | convert hx target =>
    exact h.plain (fun c hc => List.mem_singleton.mp hc ▸ hx) ⟨target, rfl⟩
  | binary op hl hr =>
    refine h.plain (fun c hc => ?_) rfl
    simp only [Operation.children, List.mem_cons, List.not_mem_nil, or_false] at hc
    rcases hc with rfl | rfl <;> assumption
  | ternary op ha hb hc =>
    refine h.plain (fun c hc => ?_) rfl
    simp only [Operation.children, List.mem_cons, List.not_mem_nil, or_false] at hc
    rcases hc with rfl | rfl | rfl <;> assumption
  | constant value => exact h.plain (fun _ hc => absurd hc List.not_mem_nil) rfl
  | swizzle components hx => exact h.plain (fun c hc => List.mem_singleton.mp hc ▸ hx) rfl
  | input name encoding count =>
    obtain ⟨hpos, hle⟩ := hformat encoding count
    unfold Build.input
    rw [ends_bind, ends_modify]
    have hinputs : ∀ inputs, ({ g with inputs := inputs } : Graph).Draft exact w := fun inputs =>
      ⟨h.sound.withInputs inputs, h.live, h.outputs, h.sized⟩
    split
    · exact h.plain (fun _ hc => absurd hc List.not_mem_nil) ⟨hpos, hle, rfl⟩
    · exact (hinputs _).plain (fun _ hc => absurd hc List.not_mem_nil) ⟨hpos, hle, rfl⟩
  | @output name encoding count x hx =>
    obtain ⟨hpos, hle⟩ := hformat encoding count
    let channel : Channel := ⟨name, Format.of encoding count⟩
    have hchildren : ∀ c ∈ (Operation.output channel x).children, w.live c :=
      fun c hc => h.live c (List.mem_singleton.mp hc ▸ hx)
    unfold Build.output unlistedOutput
    rw [ends_bind]
    refine (plain_grows h.sound hchildren ⟨hpos, hle, rfl⟩).mono ?_
    rintro id g' ⟨w', n, rfl, rfl, hs', hgrows, hchannel, hshape, -⟩
    have hgrown := h.grow hs' hgrows
    rw [ends_bind, ends_modify, ends_pure]
    refine ⟨w', hs'.withOutputs _, hgrown.live, fun id hid => ?_, fun id hid => ?_⟩
    · rcases List.mem_append.mp hid with hid | hid
      · exact hgrown.outputs id hid
      · rw [List.mem_singleton.mp hid]
        refine ⟨channel, ?_⟩
        show ((g.push n).node? g.nodes.size).bind Node.channel? = some channel
        rw [node?_push_size]
        exact hchannel
    · rcases List.mem_append.mp hid with hid | hid
      · exact hgrown.sized id hid
      · rw [List.mem_singleton.mp hid]
        show ((g.push n).shapeAt g.nodes.size).Sized
        rw [shapeAt_eq (node?_push_size g n), hshape (by rw [hchannel]; rfl)]
        exact (Format.shape_eq hpos hle).2
  | call hcandidates hrequired harguments =>
    exact h.call (fun _ => ⟨hcandidates, hrequired⟩) harguments
  | construct kind width harguments =>
    refine (construct_grows h.sound (fun x hx => h.live x (harguments x hx)) fun hknown => ?_).mono ?_
    · unfold Shape.isUnknown at hknown
      rw [Shape.kind_of] at hknown
      exact Shape.sized_of (of_decide_eq_false hknown) width
    · rintro _ g' ⟨w', hs', hgrows⟩
      exact ⟨w', h.grow hs' hgrows⟩

end Graph.Draft

/-- A graph that is made by factories is a draft, in which calls are exact. -/
theorem Graph.Built.draft (h : g.Built) : ∃ w, g.Draft True w := by
  induction h with
  | empty => exact ⟨_, .empty True⟩
  | made _ hfactory hrun ih =>
    obtain ⟨w, hw⟩ := ih
    exact (hw.factory hfactory).of_runOn hrun

end LaneGraph
