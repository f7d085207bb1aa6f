import LaneGraph.Proofs.Arena
import LaneGraph.Proofs.Denotation
import LaneGraph.Proofs.Lowering

/-!
# Typed nodes pass the final check

The check asks of a node what its type says already: that it is resolved, that
a call has its arguments and that every operand has the expected shape. Only
constructors have to be gone besides, and they are once nodes are lowered. The check
itself changes nothing. Of a graph that passes, typed or not, it says that operators have
operands of the kinds of one of their types.
-/

namespace LaneGraph

open Build

/-- Operands of an operator have the shapes that its type asks for. -/
theorem Node.Operates.expected {n : Node} {types : List OperatorType} {arity : Nat}
    {reduces : Bool} {shapes : List Shape} (h : n.Operates types reduces shapes)
    (htable : TypeTable arity types) {i : Nat} {shape : Shape} (hi : shapes[i]? = some shape) :
    ∃ k kind, n.overload = some k ∧ Graph.operandKind? types k i = some kind ∧
      Shape.of kind n.inputWidth = shape := by
  obtain ⟨k, t, hk, ht, hpos, hle, rfl, -⟩ := h
  unfold shapesOf at hi
  rw [List.getElem?_map] at hi
  obtain ⟨kind, hkind, rfl⟩ := Option.map_eq_some_iff.mp hi
  refine ⟨k, kind, hk, ?_, ?_⟩
  · unfold Graph.operandKind?
    rw [ht]
    exact hkind
  · have hknown := (htable.known t (List.mem_of_getElem? ht)).2 kind (List.mem_of_getElem? hkind)
    exact Shape.of_eq hknown hpos hle

/-- A call has chosen a function that is content with its operands. -/
theorem Node.Calls.chosen {g : Graph} {n : Node} {candidates : List FunctionId}
    {arguments : List NodeId} {shapes : List Shape} (h : n.Calls g.functions candidates shapes)
    (hop : n.op = .call candidates arguments) :
    ∃ s, g.chosen? n = some s ∧ s.required ≤ shapes.length ∧ n.overload.isSome = true ∧
      ∀ (i : Nat) (shape : Shape), shapes[i]? = some shape → ∀ kind, s.inputs[i]? = some kind →
        kind ≠ .unknown → Shape.of kind n.inputWidth = shape := by
  obtain ⟨k, id, s, hk, hid, hs, hrequired, -, hpos, hle, -, -, hshapes⟩ := h
  refine ⟨s, ?_, hrequired, by rw [hk]; rfl, ?_⟩
  · unfold Graph.chosen?
    rw [hop, hk]
    dsimp only
    rw [hid]
    exact hs
  · intro i shape hi kind hkind hunknown
    rw [(hshapes i shape hi).2.2 kind hkind hunknown]
    exact Shape.of_eq hunknown hpos hle

/-- Operands of a typed node have the expected shapes, where one is expected. -/
theorem Node.Typed.expected {g : Graph} {n : Node} {shapes : List Shape}
    (h : n.Typed g.functions shapes) {i : Nat} {shape : Shape} (hi : shapes[i]? = some shape) :
    (g.expectedShape n i).isUnknown = true ∨ g.expectedShape n i = shape := by
  unfold Node.Typed at h
  unfold Graph.expectedShape
  split at h
  · rename_i heq
    obtain ⟨rfl, -⟩ := h
    cases hi
  · rename_i heq
    obtain ⟨rfl, -⟩ := h
    cases hi
  · rename_i heq
    obtain ⟨rfl, -⟩ := h
    rw [heq]
    obtain rfl := List.mem_singleton.mp (List.mem_of_getElem? hi)
    exact .inr rfl
  · rename_i heq
    rw [heq]
    cases n.overload <;> exact .inl rfl
  · rename_i op x hconvert heq
    obtain ⟨k, kind, hk, hkind, hshape⟩ := h.expected op.typeTable hi
    rw [heq, hk]
    cases op
    case convert => exact (hconvert rfl).elim
    all_goals
      dsimp only
      rw [hkind]
      exact .inr hshape
  · rename_i op x y heq
    obtain ⟨k, kind, hk, hkind, hshape⟩ := h.expected op.typeTable hi
    rw [heq, hk]
    dsimp only
    rw [hkind]
    exact .inr hshape
  · rename_i op x y z heq
    obtain ⟨k, kind, hk, hkind, hshape⟩ := h.expected op.typeTable hi
    rw [heq, hk]
    dsimp only
    rw [hkind]
    exact .inr hshape
  · rename_i heq
    rw [heq]
    cases n.overload <;> exact .inl rfl
  · rename_i candidates arguments heq
    obtain ⟨s, hchosen, -, hoverload, hshapes⟩ := h.chosen heq
    obtain ⟨k, hk⟩ := Option.isSome_iff_exists.mp hoverload
    rw [heq, hk]
    dsimp only
    rw [hchosen, Option.bind_some]
    cases hkind : s.inputs[i]? with
    | none => exact .inl rfl
    | some kind =>
      by_cases hunknown : kind = .unknown
      · rw [hunknown]
        exact .inl rfl
      · exact .inr (hshapes i shape hi kind hkind hunknown)
  · rename_i heq
    obtain ⟨hsized, hoverload, rfl⟩ := h
    rw [heq]
    cases hk : n.overload with
    | none =>
      rw [hk] at hoverload
      cases hoverload
    | some k =>
      refine .inr ?_
      rw [List.eq_of_mem_replicate (List.mem_of_getElem? hi)]
      exact Shape.of_eq hsized.known (Nat.le_refl 1) (by decide)

/-! ## Sweeps that change nothing -/

/-- A pass leaves every node and the graph as they are, and only what is good passes. -/
def Idle (good : Graph → NodeId → Prop) (replace : NodeId → Build NodeId) : Prop :=
  ∀ (g : Graph) (id : NodeId),
    Ends (replace id) g (fun new g' => new = id ∧ g' = g ∧ good g id) fun _ => True

namespace Idle

variable {good : Graph → NodeId → Prop} {replace : NodeId → Build NodeId} {g : Graph} {bound : Nat}
  {d d' d'' : Descent}

/-- Nodes settled where they were, and what settled or was entered is good. -/
structure Still (good : Graph → NodeId → Prop) (g : Graph) (d : Descent) : Prop where
  settled : ∀ id done, d.settled.lookup id = some done → done = id ∧ good g id
  entered : ∀ id ∈ d.entered, good g id

/-- What was entered since is closed. -/
structure Deepens (good : Graph → NodeId → Prop) (g : Graph) (d d' : Descent) : Prop where
  still : Still good g d'
  entered : ∀ x ∈ d.entered, x ∈ d'.entered
  closed : ∀ x ∈ d'.entered, x ∈ d.entered ∨ Closed g d' x

/-- Going down twice. -/
theorem Deepens.trans (h : Deepens good g d d') (h' : Deepens good g d' d'') :
    Deepens good g d d'' where
  still := h'.still
  entered x hx := h'.entered x (h.entered x hx)
  closed x hx := by
    rcases h'.closed x hx with hold | hclosed
    · refine (h.closed x hold).imp_right fun hclosed n hn c hc => ?_
      exact h'.entered c (hclosed n hn c hc)
    · exact .inr hclosed

/-- A node settles where it is. -/
theorem settle (h : Idle good replace) (steps : Nat) (id : NodeId) :
    Ends (settle replace steps id) g (fun done g' => done = id ∧ g' = g ∧ good g id)
      fun _ => True := by
  cases steps with
  | zero => exact trivial
  | succ steps =>
    rw [Build.settle, ends_bind]
    refine (h g id).mono ?_
    rintro new g' ⟨rfl, rfl, hgood⟩
    rw [if_pos rfl]
    exact ⟨rfl, rfl, hgood⟩

/-- A node settles where it is, and this is noted. -/
theorem settleOnce (h : Idle good replace) (hd : Still good g d) (id : NodeId) :
    Ends (settleOnce replace bound d id) g (fun result g' => result.1 = id ∧ g' = g ∧ good g id ∧
      Still good g result.2 ∧ result.2.entered = d.entered) fun _ => True := by
  unfold Build.settleOnce
  split
  · rename_i done hdone
    obtain ⟨hsame, hgood⟩ := hd.settled id done hdone
    exact ⟨hsame, rfl, hgood, hd, rfl⟩
  · rw [ends_bind]
    refine (h.settle bound id).mono ?_
    rintro done g' ⟨rfl, rfl, hgood⟩
    refine ⟨rfl, rfl, hgood, ⟨fun x y hxy => ?_, hd.entered⟩, rfl⟩
    simp only [List.lookup_cons] at hxy
    split at hxy
    · rename_i heq
      cases hxy
      rw [beq_iff_eq.mp heq]
      exact ⟨rfl, hgood⟩
    · exact hd.settled x y hxy

/-- Operands settle where they are. -/
theorem settleChildren (h : Idle good replace) (parent : NodeId) (children : List (NodeId × Nat)) :
    ∀ {d : Descent}, Still good g d → Ends (settleChildren replace bound parent d children) g
      (fun result g' => result.1 = children.map Prod.fst ∧ g' = g ∧ (∀ c ∈ result.1, good g c) ∧
        Still good g result.2 ∧ result.2.entered = d.entered) fun _ => True := by
  induction children with
  | nil => exact fun hd => ⟨rfl, rfl, fun _ hc => (nomatch hc), hd, rfl⟩
  | cons child rest ih =>
    intro d hd
    obtain ⟨child, index⟩ := child
    rw [Build.settleChildren, ends_bind]
    refine (h.settleOnce hd child).mono ?_
    rintro ⟨done, d'⟩ g' ⟨rfl, rfl, hgood, hd', hentered⟩
    dsimp only at hgood hd' hentered ⊢
    rw [if_neg (not_not_intro rfl), ends_bind]
    refine (ih hd').mono ?_
    rintro ⟨others, d''⟩ g' ⟨hothers, rfl, hall, hd'', hentered'⟩
    exact ⟨congrArg (done :: ·) hothers, rfl, List.forall_mem_cons.mpr ⟨hgood, hall⟩, hd'',
      hentered'.trans hentered⟩

/-- Going down from several nodes, one after the other. -/
theorem foldlM {visit : Descent → NodeId → Build Descent} (roots : List NodeId)
    (hvisit : ∀ {d : Descent} {x : NodeId}, Still good g d → good g x →
      Ends (visit d x) g (fun d' g' => g' = g ∧ Deepens good g d d' ∧ x ∈ d'.entered) fun _ => True) :
    ∀ {d : Descent}, Still good g d → (∀ x ∈ roots, good g x) →
      Ends (roots.foldlM visit d) g (fun d' g' => g' = g ∧ Deepens good g d d' ∧
        ∀ x ∈ roots, x ∈ d'.entered) fun _ => True := by
  induction roots with
  | nil => exact fun hd _ => ⟨rfl, ⟨hd, fun _ hx => hx, fun _ hx => .inl hx⟩, fun _ hx => (nomatch hx)⟩
  | cons x rest ih =>
    intro d hd hroots
    rw [List.forall_mem_cons] at hroots
    rw [List.foldlM_cons, ends_bind]
    refine (hvisit hd hroots.1).mono ?_
    rintro d' g' ⟨rfl, hdeepens, hx⟩
    refine (ih hdeepens.still hroots.2).mono ?_
    rintro d'' g' ⟨rfl, hdeepens', hrest⟩
    exact ⟨rfl, hdeepens.trans hdeepens',
      List.forall_mem_cons.mpr ⟨hdeepens'.entered x hx, hrest⟩⟩

/-- Going down changes nothing. -/
theorem descend (h : Idle good replace) (depth : Nat) : ∀ {d : Descent}, Still good g d →
    ∀ {parent}, good g parent → Ends (descend replace bound depth d parent) g
      (fun d' g' => g' = g ∧ Deepens good g d d' ∧ parent ∈ d'.entered) fun _ => True := by
  induction depth with
  | zero => exact fun _ _ _ => trivial
  | succ depth ih =>
    intro d hd parent hparent
    rw [Build.descend]
    split
    · rename_i hin
      exact ⟨rfl, ⟨hd, fun _ hx => hx, fun _ hx => .inl hx⟩, hin⟩
    · have hentered : Still good g { d with entered := parent :: d.entered } :=
        ⟨hd.settled, List.forall_mem_cons.mpr ⟨hparent, hd.entered⟩⟩
      unfold node
      rw [ends_bind, ends_ask_any]
      intro n hn
      rw [ends_bind]
      refine (h.settleChildren parent n.children.zipIdx hentered).mono ?_
      rintro ⟨children, d'⟩ g' ⟨hchildren, rfl, hgood, hd', hsame⟩
      dsimp only at hchildren hgood hd' hsame ⊢
      refine (foldlM children.reverse (fun hd hx => ih hd hx) hd' fun x hx => hgood x (List.mem_reverse.mp hx)).mono ?_
      rintro d'' g'' ⟨rfl, hdeepens, hall⟩
      rw [List.zipIdx_map_fst] at hchildren
      have hin : ∀ x ∈ parent :: d.entered, x ∈ d''.entered :=
        fun x hx => hdeepens.entered x (hsame ▸ hx)
      refine ⟨rfl, ⟨hdeepens.still, fun x hx => hin x (List.mem_cons_of_mem _ hx), fun x hx => ?_⟩,
        hin parent List.mem_cons_self⟩
      rcases hdeepens.closed x hx with hold | hclosed
      · rw [hsame] at hold
        rcases List.mem_cons.mp hold with rfl | hold
        · refine .inr fun m hm c hc => hall c (List.mem_reverse.mpr ?_)
          unfold Graph.node at hn
          rw [hm] at hn
          cases hn
          exact hchildren ▸ hc
        · exact .inl hold
      · exact .inr hclosed

/-- Outputs settle where they are. -/
theorem sweepOutputs (h : Idle good replace) (outputs : List NodeId) : ∀ {d : Descent},
    Still good g d → Ends (sweepOutputs replace bound d outputs) g (fun new g' => new = outputs ∧
      g' = g ∧ ∃ d', Deepens good g d d' ∧ ∀ x ∈ outputs, x ∈ d'.entered) fun _ => True := by
  induction outputs with
  | nil =>
    exact fun hd => ⟨rfl, rfl, _, ⟨hd, fun _ hx => hx, fun _ hx => .inl hx⟩, fun _ hx => (nomatch hx)⟩
  | cons output rest ih =>
    intro d hd
    unfold Build.sweepOutputs sweepOutput
    rw [ends_bind, ends_bind]
    refine (h.settleOnce hd output).mono ?_
    rintro ⟨done, d'⟩ g' ⟨rfl, rfl, hgood, hd', hsame⟩
    dsimp only at hgood hd' hsame ⊢
    rw [ends_bind]
    refine (checkOutput_any done done).mono ?_
    rintro _ g' rfl
    rw [ends_bind]
    refine (h.descend bound hd' hgood).mono ?_
    rintro d'' g' ⟨rfl, hdeepens, hdone⟩
    rw [ends_pure, ends_bind]
    refine (ih hdeepens.still).mono ?_
    rintro new g' ⟨rfl, rfl, d₃, hdeepens', hrest⟩
    have hall := hdeepens.trans hdeepens'
    refine ⟨rfl, rfl, d₃, ⟨hall.still, fun x hx => hall.entered x (hsame ▸ hx), fun x hx => ?_⟩,
      List.forall_mem_cons.mpr ⟨hdeepens'.entered _ hdone, hrest⟩⟩
    rw [← hsame]
    exact hall.closed x hx

/-- The sweep of a pass that changes no node changes nothing, and all that the outputs depend
on is good. -/
theorem run {pass : Pass} (h : Idle good pass.replace) (hdirection : pass.direction = .downward) :
    Ends pass.run g (fun _ g' => g' = g ∧ ∀ id, g.Needs id → good g id) fun _ => True := by
  refine pass.run_any ?_
  rw [hdirection]
  show Ends (sweepDownward pass.replace) g _ _
  unfold sweepDownward
  rw [ends_bind, ends_get, ends_bind]
  have hstill : Still good g {} := ⟨fun _ _ hnone => (nomatch hnone), fun _ hx => (nomatch hx)⟩
  refine (h.sweepOutputs g.outputs hstill).mono ?_
  rintro outputs g' ⟨rfl, rfl, d', hdeepens, hall⟩
  rw [ends_modify]
  refine ⟨rfl, fun id hid => hdeepens.still.entered id ?_⟩
  obtain ⟨output, houtput, hreach⟩ := hid
  induction hreach with
  | refl => exact hall output houtput
  | tail _ huses ih =>
    obtain ⟨n, hn, hc⟩ := huses
    exact (hdeepens.closed _ ih).resolve_left (fun hnone => nomatch hnone) n hn _ hc

end Idle

namespace Consistency

variable {g : Graph} {n : Node}

/-- A typed node other than a constructor passes the check of the node alone. -/
theorem checkNode_eq (h : n.Typed g.functions (n.children.map g.shapeAt))
    (hconstruct : ∀ arguments, n.op ≠ .construct arguments) : checkNode g n = .ok () := by
  have hsized := h.sized
  have hknown : n.shape.isUnknown = false := decide_eq_false hsized.known
  unfold checkNode
  rw [hknown]
  unfold Node.Typed at h
  split at h
  · rename_i heq
    obtain ⟨-, hvalid, -⟩ := h
    rw [heq]
    exact if_pos hvalid
  · rename_i heq
    rw [heq]
    rfl
  · rename_i heq
    rw [heq]
    rfl
  · rename_i heq
    obtain ⟨s, -, -, -, -, hoverload⟩ := h
    obtain ⟨k, hk⟩ := Option.isSome_iff_exists.mp hoverload
    rw [heq, hk]
    rfl
  · rename_i heq
    obtain ⟨k, t, hk, -⟩ := h
    rw [heq, hk]
    rfl
  · rename_i heq
    obtain ⟨k, t, hk, -⟩ := h
    rw [heq, hk]
    rfl
  · rename_i heq
    obtain ⟨k, t, hk, -⟩ := h
    rw [heq, hk]
    rfl
  · rename_i heq
    rw [heq]
    rfl
  · rename_i candidates arguments heq
    obtain ⟨s, hchosen, hrequired, -, -⟩ := h.chosen heq
    have hlength : (n.children.map g.shapeAt).length = arguments.length := by
      rw [List.length_map]
      unfold Node.children
      rw [heq]
      rfl
    rw [hlength] at hrequired
    rw [heq]
    dsimp only
    rw [hchosen]
    exact if_neg (Nat.not_lt.mpr hrequired)
  · rename_i heq
    exact absurd heq (hconstruct _)

/-- An operand of a typed node passes the check. -/
theorem checkChild_eq (h : n.Typed g.functions (n.children.map g.shapeAt))
    (hnode : ∀ c ∈ n.children, ∃ m, g.node? c = some m) {index : Nat} {child : NodeId}
    (hchild : n.children[index]? = some child) : checkChild g n index child = .ok () := by
  obtain ⟨m, hm⟩ := hnode child (List.mem_of_getElem? hchild)
  have hshape : (n.children.map g.shapeAt)[index]? = some m.shape := by
    rw [List.getElem?_map, hchild, ← Graph.shapeAt_eq hm]
    rfl
  have hok : (!(g.expectedShape n index).isUnknown &&
      decide (g.expectedShape n index ≠ m.shape)) = false := by
    rcases h.expected hshape with hunknown | hsame
    · rw [hunknown]
      rfl
    · rw [hsame]
      simp
  unfold checkChild Graph.node
  rw [hm]
  dsimp only [bind, Except.bind]
  rw [hok]
  rfl

/-- A typed node other than a constructor passes the check. -/
theorem check_eq (h : n.Typed g.functions (n.children.map g.shapeAt))
    (hconstruct : ∀ arguments, n.op ≠ .construct arguments)
    (hnode : ∀ c ∈ n.children, ∃ m, g.node? c = some m) {id : NodeId} (hn : g.node? id = some n) :
    check g id = .ok () := by
  have hall : ∀ ps : List (NodeId × Nat), (∀ p ∈ ps, n.children[p.2]? = some p.1) →
      (ps.forM fun p => checkChild g n p.2 p.1) = .ok () := by
    intro ps
    induction ps with
    | nil => exact fun _ => rfl
    | cons p ps ih =>
      intro hps
      obtain ⟨child, index⟩ := p
      have hfirst : checkChild g n index child = .ok () :=
        checkChild_eq h hnode (hps _ List.mem_cons_self)
      rw [List.forM]
      dsimp only
      rw [hfirst]
      exact ih fun q hq => hps q (List.mem_cons_of_mem _ hq)
  unfold check Graph.node
  rw [hn]
  dsimp only [bind, Except.bind]
  rw [checkNode_eq h hconstruct]
  refine hall _ ?_
  rintro ⟨child, index⟩ hmem
  exact List.mem_zipIdx_iff_getElem?.mp hmem

/-- The final check changes nothing and lets every lowered graph pass. -/
theorem pass_ends {t : TypedRules} (hneed : t.need = fun _ => 1) {made : List Delivery}
    (hform : ∀ n shapes, t.form n shapes = true → n.encodable shapes = true)
    (h : Stage t.rules g made) (hne : made ≠ []) (hexact : t.exact) :
    Ends pass.run g fun _ g' => Stage t.rules g' made := by
  have hpos : ∀ op, 1 ≤ t.need op := by
    intro op
    rw [hneed]
  refine (Pass.downward_ends (R := t.rules) (fun _ => 0) (fun _ _ => True) t.need rfl ?_
    (fun _ => Nat.zero_le 1) hpos (fun _ => Nat.le_refl _) ?_ h hne).mono ?_
  · intro g w id n hs hid hn
    have hsound := hs.nodeSound hid hn
    have hencodable := hform _ _ hsound.fits.2.1
    rw [Node.encodable_frame] at hencodable
    have hok : check g id = .ok () := by
      refine check_eq (hsound.typed hexact) ?_ (fun c hc => hs.node (hsound.live c hc)) hn
      intro arguments hop
      unfold Node.encodable at hencodable
      rw [hop] at hencodable
      cases hencodable
    have hreplace : pass.replace id = (do ask (check · id); return id) := rfl
    rw [hreplace, ends_bind, ends_ask hok]
    have hstay : Steps t.rules (fun _ => 0) (fun _ _ => True) g w id n id g :=
      Steps.stay hs trivial
    exact hstay
  · intro op
    rw [hneed]
    show 1 ≤ 16
    decide
  · rintro _ g' ⟨-, w', hs, hwrites, -⟩
    exact ⟨w', hs, hwrites⟩

/-- The final check changes no node, and every node passes it. -/
theorem pass_idle : Idle (fun g id => check g id = .ok ()) pass.replace := by
  intro g id
  have hreplace : pass.replace id = (do ask (check · id); return id) := rfl
  rw [hreplace, ends_bind, ends_ask_any]
  exact fun _ hcheck => ⟨rfl, rfl, hcheck⟩

end Consistency

/-! ## What passes -/

/-- Operators have as many operands as their types say. -/
theorem Operation.typeTable {op : Operation} (h : op.types ≠ []) :
    TypeTable op.children.length op.types := by
  cases op with
  | unary op x => exact op.typeTable
  | binary op x y => exact op.typeTable
  | ternary op x y z => exact op.typeTable
  | _ => exact absurd rfl h

/-- The shape that an operator expects of an operand follows from the type that is recorded. -/
theorem Graph.expectedShape_of_types {g : Graph} {n : Node} (h : n.op.types ≠ []) {k i : Nat}
    (hk : n.overload = some k) {kind : Kind} (hkind : operandKind? n.op.types k i = some kind) :
    g.expectedShape n i = Shape.of kind n.inputWidth := by
  unfold expectedShape
  cases hop : n.op with
  | unary op x =>
    rw [hop] at h hkind
    have hkind : operandKind? op.types k i = some kind := hkind
    rw [hk]
    cases op
    case convert => exact absurd rfl h
    all_goals
      dsimp only
      rw [hkind]
  | binary op x y | ternary op x y z =>
    rw [hop] at hkind
    have hkind : operandKind? op.types k i = some kind := hkind
    rw [hk]
    dsimp only
    rw [hkind]
  | _ =>
    rw [hop] at h
    exact absurd rfl h

namespace Consistency

variable {g : Graph} {id : NodeId} {n m : Node}

/-- What passes the final check passes it alone, and so do its operands. -/
theorem check_eq_ok (hn : g.node? id = some n) (h : check g id = .ok ()) :
    checkNode g n = .ok () ∧
      ∀ index child, n.children[index]? = some child → checkChild g n index child = .ok () := by
  unfold check Graph.node at h
  rw [hn] at h
  dsimp only [bind, Except.bind] at h
  split at h
  · cases h
  · rename_i hnode
    refine ⟨hnode, fun index child hchild => ?_⟩
    have hall : ∀ pairs : List (NodeId × Nat),
        (pairs.forM fun p => checkChild g n p.2 p.1) = .ok () →
          ∀ p ∈ pairs, checkChild g n p.2 p.1 = .ok () := by
      intro pairs
      induction pairs with
      | nil => exact fun _ _ hp => nomatch hp
      | cons p rest ih =>
        intro hpairs
        rw [List.forM] at hpairs
        dsimp only [bind, Except.bind] at hpairs
        split at hpairs
        · cases hpairs
        · rename_i hfirst
          exact List.forall_mem_cons.mpr ⟨hfirst, ih hpairs⟩
    exact hall _ h (child, index) (List.mem_zipIdx_iff_getElem?.mpr hchild)

/-- The operand has the expected shape, where one is expected. -/
theorem shape_of_checkChild {index : Nat} {child : NodeId} (h : checkChild g n index child = .ok ())
    (hexpected : (g.expectedShape n index).isUnknown = false) :
    g.shapeAt child = g.expectedShape n index := by
  unfold checkChild Graph.node at h
  cases hm : g.node? child with
  | none =>
    rw [hm] at h
    cases h
  | some m =>
    rw [hm] at h
    dsimp only [bind, Except.bind] at h
    rw [hexpected, Bool.not_false, Bool.true_and] at h
    rw [Graph.shapeAt_eq hm]
    by_contra hne
    rw [if_pos (decide_eq_true (Ne.symm hne))] at h
    cases h

/-- What passes the final check has a known kind, operators have a type, and literals have
components. -/
theorem known_of_checkNode (h : checkNode g n = .ok ()) : n.shape.kind ≠ .unknown ∧
    (n.op.types ≠ [] → ∃ k, n.overload = some k) ∧ ∀ c, n.op = .constant c → c.isValid = true := by
  unfold checkNode at h
  split at h
  · cases h
  · rename_i hknown
    refine ⟨fun hkind => hknown (decide_eq_true hkind), fun htypes => ?_, fun c hop => ?_⟩
    · refine Option.ne_none_iff_exists'.mp fun hnone => ?_
      rw [hnone] at h
      cases hop : n.op <;> rw [hop] at h htypes
      case unary | binary | ternary => cases h
      all_goals exact absurd rfl htypes
    · rw [hop] at h
      dsimp only at h
      split at h
      · assumption
      · cases h

/-- Operands of an operator that passes the final check have the kinds of one of its types. -/
theorem types_of_check (hn : g.node? id = some n) (h : check g id = .ok ()) (hrecorded : n.Recorded)
    (htypes : n.op.types ≠ []) :
    ∃ t ∈ n.op.types, t.operands = n.children.map fun c => (g.shapeAt c).kind := by
  obtain ⟨hnode, hchildren⟩ := check_eq_ok hn h
  obtain ⟨k, hk⟩ := (known_of_checkNode hnode).2.1 htypes
  have hlt := hrecorded htypes k hk
  have htable := Operation.typeTable htypes
  have hmem := List.getElem_mem hlt
  refine ⟨n.op.types[k], hmem, List.ext_getElem? fun i => ?_⟩
  have hlength : n.op.types[k].operands.length = n.children.length := htable.arity _ hmem
  rw [List.getElem?_map]
  cases hchild : n.children[i]? with
  | none =>
    rw [List.getElem?_eq_none_iff] at hchild
    rw [Option.map_none, List.getElem?_eq_none (by omega)]
  | some c =>
    have hi : i < n.op.types[k].operands.length :=
      hlength ▸ (List.getElem?_eq_some_iff.mp hchild).1
    have hkind : Graph.operandKind? n.op.types k i = some (n.op.types[k].operands[i]) := by
      unfold Graph.operandKind?
      rw [List.getElem?_eq_getElem hlt, Option.bind_some, List.getElem?_eq_getElem hi]
    have hknown : n.op.types[k].operands[i] ≠ .unknown :=
      (htable.known _ hmem).2 _ (List.getElem_mem hi)
    have hexpected := Graph.expectedShape_of_types (g := g) htypes hk hkind
    unfold Shape.of at hexpected
    rw [if_neg hknown] at hexpected
    have hshape := shape_of_checkChild (hchildren i c hchild)
      (by rw [hexpected]; exact decide_eq_false hknown)
    rw [Option.map_some, hshape, hexpected, List.getElem?_eq_getElem hi]

end Consistency

end LaneGraph
