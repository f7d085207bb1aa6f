import LaneGraph.Proofs.Sketches

/-!
# Factories resolve the nodes that they add

A factory looks for the cheapest type or candidate among those that a node is offered.
The node that it adds is sketched: it has taken one of them, or there was none.
-/

namespace LaneGraph

open Build

/-- The search for the cheapest candidate keeps the one it has, or finds one of
the rest. -/
theorem cheapestFrom_some (actual : List Kind) (candidates : List (List Kind)) :
    ∀ (best : Nat × Nat) (position : Nat), ∃ k cost,
      cheapestFrom actual (some best) position candidates = some (k, cost) ∧
        (k = best.1 ∨ position ≤ k ∧ k < position + candidates.length) := by
  induction candidates with
  | nil => exact fun best position => ⟨best.1, best.2, rfl, .inl rfl⟩
  | cons candidate rest ih =>
    intro best position
    have hstep : cheapestFrom actual (some best) position (candidate :: rest) =
        cheapestFrom actual (some (if totalCost candidate actual < best.2 then
          (position, totalCost candidate actual) else best)) (position + 1) rest := by
      simp only [cheapestFrom, decide_eq_true_eq, ← apply_ite some]
    obtain ⟨k, cost, heq, hk⟩ := ih (if totalCost candidate actual < best.2 then
      (position, totalCost candidate actual) else best) (position + 1)
    refine ⟨k, cost, hstep.trans heq, ?_⟩
    rw [List.length_cons]
    split at hk
    · dsimp only at hk
      omega
    · omega

/-- There is a cheapest candidate if there is any. -/
theorem cheapest?_cases (candidates : List (List Kind)) (actual : List Kind) :
    candidates = [] ∧ cheapest? candidates actual = none ∨
      ∃ k, k < candidates.length ∧ cheapest? candidates actual = some k := by
  cases candidates with
  | nil => exact .inl ⟨rfl, rfl⟩
  | cons candidate rest =>
    obtain ⟨k, cost, heq, hk⟩ := cheapestFrom_some actual rest (0, totalCost candidate actual) 1
    refine .inr ⟨k, ?_, congrArg (Option.map Prod.fst) heq⟩
    rw [List.length_cons]
    dsimp only at hk
    omega

/-- What a factory asks for when it adds a node of a shape. Calls are exact if the record of
a choice tells what was chosen: if there are no more candidates than fit in a byte, and none
of them requires more operands than it has inputs. -/
def Operation.Makes (exact : Prop) (functions : List Signature) (shape : Shape) : Operation → Prop
  | .constant c => shape = c.shape
  | .input channel | .output channel _ =>
    1 ≤ channel.format.count ∧ channel.format.count ≤ 4 ∧ shape = channel.format.shape
  | .call candidates _ =>
    shape = Shape.unknown ∧ (exact → candidates.length ≤ 256) ∧
      ∀ f ∈ candidates, ∃ s, functions[f]? = some s ∧ (exact → s.required ≤ s.inputs.length)
  | .unary .convert _ => ∃ target, shape = Shape.of target 1
  | .construct _ => False
  | _ => shape = Shape.unknown

/-- The shape a factory adds a node with is sized, if it is known. -/
theorem Operation.Makes.sized {exact : Prop} {functions : List Signature} {shape : Shape}
    {op : Operation} (h : op.Makes exact functions shape) (hknown : shape.isUnknown = false) :
    shape.Sized := by
  have hof : ∀ kind width, shape = Shape.of kind width → shape.Sized := by
    rintro kind width rfl
    unfold Shape.isUnknown at hknown
    rw [Shape.kind_of] at hknown
    exact Shape.sized_of (of_decide_eq_false hknown) width
  have hunknown : shape ≠ Shape.unknown := by
    rintro rfl
    cases hknown
  cases op with
  | constant c =>
    have hshape : shape = c.shape := h
    unfold Constant.shape at hshape
    split at hshape
    · exact hof _ _ hshape
    · exact absurd hshape hunknown
  | input channel => exact hof _ _ h.2.2
  | output channel source => exact hof _ _ h.2.2
  | call candidates arguments => exact absurd h.1 hunknown
  | construct arguments => exact h.elim
  | unary op x =>
    by_cases hconvert : op = .convert
    · subst hconvert
      obtain ⟨target, htarget⟩ := h
      exact hof _ _ htarget
    · refine absurd ?_ hunknown
      cases op <;> first | exact h | exact absurd rfl hconvert
  | _ => exact absurd h hunknown

namespace Node

variable {exact : Prop} {functions : List Signature} {shapes : List Shape}

/-- An operator takes one of its types. -/
theorem resolveOperator_chose (n : Node) {types : List OperatorType} {arity : Nat}
    (htable : TypeTable arity types) (hne : types ≠ []) (hlength : shapes.length = arity)
    (reduces : Bool) :
    (n.resolveOperator types shapes reduces).op = n.op ∧
      (n.resolveOperator types shapes reduces).Chose types reduces shapes := by
  rcases cheapest?_cases (types.map (·.operands)) (shapes.map (·.kind)) with
    ⟨hnil, -⟩ | ⟨k, hk, hcheapest⟩
  · exact absurd (List.map_eq_nil_iff.mp hnil) hne
  rw [List.length_map] at hk
  have ht := List.getElem?_eq_getElem hk
  have hshort := htable.short
  have hresolved : n.resolveOperator types shapes reduces =
      { n with
        shape := Shape.of types[k].result (if reduces then 1 else widest shapes)
        inputWidth := widest shapes
        overload := some k } := by
    unfold resolveOperator
    rw [hcheapest]
    dsimp only
    rw [ht, Nat.mod_eq_of_lt (by omega)]
  rw [hresolved]
  exact ⟨rfl, k, types[k], rfl, ht, by rw [hlength, htable.arity _ (List.getElem_mem hk)], rfl, rfl⟩

/-- A candidate that is content has its position. -/
theorem mem_eligible {candidates : List FunctionId} {count position : Nat} {s : Signature}
    (h : (position, s) ∈ eligible functions candidates count) :
    ∃ f, candidates[position]? = some f ∧ functions[f]? = some s ∧ s.required ≤ count := by
  unfold eligible at h
  obtain ⟨⟨f, i⟩, hmem, hsome⟩ := List.mem_filterMap.mp h
  dsimp only at hsome
  cases hs : functions[f]? with
  | none =>
    rw [hs] at hsome
    cases hsome
  | some s' =>
    rw [hs] at hsome
    dsimp only at hsome
    split at hsome
    · rename_i hrequired
      cases hsome
      exact ⟨f, List.mem_zipIdx_iff_getElem?.mp hmem, hs, hrequired⟩
    · cases hsome

/-- A candidate that is content is among those that are. -/
theorem eligible_ne_nil {candidates : List FunctionId} {count : Nat} {f : FunctionId}
    {s : Signature} (hf : f ∈ candidates) (hs : functions[f]? = some s) (h : s.required ≤ count) :
    eligible functions candidates count ≠ [] := by
  obtain ⟨i, hi⟩ := List.getElem?_of_mem hf
  unfold eligible
  intro hnil
  have hnone := List.filterMap_eq_nil_iff.mp hnil (f, i) (List.mem_zipIdx_iff_getElem?.mpr hi)
  dsimp only at hnone
  rw [hs] at hnone
  dsimp only at hnone
  rw [if_pos h] at hnone
  cases hnone

/-- A call takes one of its candidates. -/
theorem resolveCall_chose {n : Node} {candidates : List FunctionId} {arguments : List NodeId}
    (hop : n.op = .call candidates arguments) (hmakes : n.op.Makes exact functions n.shape)
    (hopen : n.overload = none) (hsized : ∀ s ∈ shapes, s.Sized)
    (hlength : shapes.length = arguments.length) :
    ∃ k, (n.resolveCall functions candidates arguments shapes).op =
        .call candidates (arguments.take k) ∧
      (n.resolveCall functions candidates arguments shapes).Sketched exact functions
        (shapes.take k) := by
  have hdrafted : ∀ {m : Node} {xs : List NodeId} {count : Nat}, m.op = .call candidates xs →
      m.ChoseCandidate functions candidates (shapes.take count) →
      m.Sketched exact functions (shapes.take count) :=
    fun hm h => .inl ((drafted_call hm).mpr h)
  rw [hop] at hmakes
  obtain ⟨hshape, hmany, hcandidates⟩ := hmakes
  rw [resolveCall_eq]
  rcases cheapest?_cases ((eligible functions candidates shapes.length).map (·.2.inputs))
    (shapes.map (·.kind)) with ⟨hnil, hnone⟩ | ⟨k, hk, hcheapest⟩
  · rw [hnone]
    refine ⟨arguments.length, ?_,
      hdrafted hop (.inl ⟨hopen, by rw [hshape]; rfl, fun f hf => ?_⟩)⟩
    · rw [List.take_length]
      exact hop
    · obtain ⟨s, hs, -⟩ := hcandidates f hf
      refine ⟨s, hs, ?_⟩
      rw [← hlength, List.take_length]
      by_contra hle
      exact eligible_ne_nil hf hs (Nat.le_of_not_lt hle) (List.map_eq_nil_iff.mp hnil)
  · rw [List.length_map] at hk
    rw [hcheapest]
    dsimp only
    obtain ⟨⟨position, s⟩, hget⟩ :
        ∃ chosen, (eligible functions candidates shapes.length)[k]? = some chosen :=
      ⟨_, List.getElem?_eq_getElem hk⟩
    obtain ⟨f, hf, hs, hrequired⟩ := mem_eligible (List.mem_of_getElem? hget)
    rw [hget]
    dsimp only
    refine ⟨s.inputs.length, rfl, ?_⟩
    by_cases hexact : exact
    · have hposition : position % 256 = position := by
        have hlt := (List.getElem?_eq_some_iff.mp hf).1
        have hfew := hmany hexact
        exact Nat.mod_eq_of_lt (by omega)
      obtain ⟨s', hs', hinputs⟩ := hcandidates f (List.mem_of_getElem? hf)
      rw [hs] at hs'
      cases hs'
      have hinputs := hinputs hexact
      obtain ⟨hpos, hle⟩ := widest_bounds hsized
      refine hdrafted rfl (.inr ⟨position, f, s, by rw [hposition], hf, hs, ?_, ?_, hpos, hle,
        rfl, fun shape hmem => width_le_widest (List.mem_of_mem_take hmem)⟩)
      · rw [List.length_take]
        omega
      · rw [List.length_take]
        omega
    · obtain ⟨hpos, hle⟩ := widest_bounds hsized
      exact .inr ⟨hexact, rfl, rfl, ⟨s.output, rfl⟩, hpos, hle,
        fun shape hmem => width_le_widest (List.mem_of_mem_take hmem)⟩

/-- A node that a factory adds to known operands is sketched. Arguments that a call
has no use for are dropped. -/
theorem resolved_sketched {op : Operation} {shape : Shape} (hmakes : op.Makes exact functions shape)
    (hsized : ∀ s ∈ shapes, s.Sized) (hlength : shapes.length = op.children.length) :
    ∃ k, (({ op, shape } : Node).resolved functions shapes).children = op.children.take k ∧
      (∀ arguments, (({ op, shape } : Node).resolved functions shapes).op ≠ .construct arguments) ∧
      (({ op, shape } : Node).resolved functions shapes).Sketched exact functions
        (shapes.take k) := by
  cases op with
  | constant c =>
    cases List.eq_nil_of_length_eq_zero hlength
    exact ⟨0, rfl, fun _ h => (nomatch h), .inl ⟨rfl, rfl, rfl, hmakes⟩⟩
  | input channel =>
    cases List.eq_nil_of_length_eq_zero hlength
    exact ⟨0, rfl, fun _ h => (nomatch h), .inl ⟨rfl, rfl, rfl, hmakes⟩⟩
  | output channel source =>
    obtain ⟨s, rfl⟩ := List.length_eq_one_iff.mp hlength
    exact ⟨1, rfl, fun _ h => (nomatch h), .inl ⟨rfl, rfl, rfl, hmakes⟩⟩
  | swizzle components source =>
    obtain ⟨s, rfl⟩ := List.length_eq_one_iff.mp hlength
    exact ⟨1, rfl, fun _ h => (nomatch h), .inl ⟨rfl, rfl, s, rfl, rfl⟩⟩
  | unary op x =>
    obtain ⟨s, rfl⟩ := List.length_eq_one_iff.mp hlength
    by_cases hconvert : op = .convert
    · subst hconvert
      refine ⟨1, rfl, fun _ h => (nomatch h), .inl ⟨rfl, s, rfl, ?_⟩⟩
      show Shape.of shape.kind (widest [s]) = Shape.of (Shape.of shape.kind (widest [s])).kind s.width
      rw [Shape.kind_of]
      rfl
    · have htypes : op.types ≠ [] := by
        cases op <;> first | exact absurd rfl hconvert | decide
      obtain ⟨hop, hchose⟩ := resolveOperator_chose ({ op := .unary op x, shape } : Node)
        op.typeTable htypes hlength op.reduces
      rw [resolved_unary rfl hconvert]
      exact ⟨1, by unfold Node.children; rw [hop]; rfl,
        fun _ h => (nomatch hop.symm.trans h), .inl ((drafted_unary hop hconvert).mpr hchose)⟩
  | binary op x y =>
    have htypes : op.types ≠ [] := by cases op <;> decide
    obtain ⟨hop, hchose⟩ := resolveOperator_chose ({ op := .binary op x y, shape } : Node)
      op.typeTable htypes hlength op.reduces
    rw [resolved_binary rfl]
    have htake : shapes.take 2 = shapes := List.take_of_length_le (Nat.le_of_eq hlength)
    refine ⟨2, by unfold Node.children; rw [hop]; rfl, fun _ h => (nomatch hop.symm.trans h), ?_⟩
    rw [htake]
    exact .inl ((drafted_binary hop).mpr hchose)
  | ternary op x y z =>
    have htypes : op.types ≠ [] := by cases op <;> decide
    obtain ⟨hop, hchose⟩ := resolveOperator_chose ({ op := .ternary op x y z, shape } : Node)
      op.typeTable htypes hlength false
    rw [resolved_ternary rfl]
    have htake : shapes.take 3 = shapes := List.take_of_length_le (Nat.le_of_eq hlength)
    refine ⟨3, by unfold Node.children; rw [hop]; rfl, fun _ h => (nomatch hop.symm.trans h), ?_⟩
    rw [htake]
    exact .inl ((drafted_ternary hop).mpr hchose)
  | call candidates arguments =>
    obtain ⟨k, hop, hchose⟩ := resolveCall_chose (n := { op := .call candidates arguments, shape })
      rfl hmakes rfl hsized hlength
    exact ⟨k, by unfold Node.children; exact congrArg Operation.children hop,
      fun _ h => (nomatch hop.symm.trans h), hchose⟩
  | construct arguments => exact hmakes.elim

/-- The shape of a drafted node is sized, if it is known. -/
theorem Drafted.sized {n : Node} (h : n.Drafted functions shapes)
    (hop : ∀ arguments, n.op ≠ .construct arguments) (hknown : n.shape.isUnknown = false) :
    n.shape.Sized := by
  have hkind : n.shape.kind ≠ .unknown := of_decide_eq_false hknown
  have hof : ∀ kind width, n.shape = Shape.of kind width → n.shape.Sized := by
    intro kind width hshape
    rw [hshape, Shape.kind_of] at hkind
    rw [hshape]
    exact Shape.sized_of hkind width
  unfold Drafted at h
  split at h
  · have hshape := h.2.2.2
    unfold Constant.shape at hshape
    split at hshape
    · exact hof _ _ hshape
    · rw [hshape] at hkind
      exact absurd rfl hkind
  · exact hof _ _ h.2.2.2.2.2
  · exact hof _ _ h.2.2.2.2.2
  · obtain ⟨-, s, -, hshape⟩ := h
    exact hof _ _ hshape
  · obtain ⟨k, t, -, -, -, -, hshape⟩ := h
    exact hof _ _ hshape
  · obtain ⟨k, t, -, -, -, -, hshape⟩ := h
    exact hof _ _ hshape
  · obtain ⟨k, t, -, -, -, -, hshape⟩ := h
    exact hof _ _ hshape
  · obtain ⟨-, -, s, -, hshape⟩ := h
    exact hof _ _ hshape
  · rcases h with ⟨-, hunknown, -⟩ | ⟨k, f, s, -, -, -, -, -, -, -, hshape, -⟩
    · rw [hknown] at hunknown
      cases hunknown
    · exact hof _ _ hshape
  · rename_i arguments hcase
    exact absurd hcase (hop arguments)

/-- The shape of a sketched node is sized, if it is known. -/
theorem Sketched.sized {n : Node} (h : n.Sketched exact functions shapes)
    (hop : ∀ arguments, n.op ≠ .construct arguments) (hknown : n.shape.isUnknown = false) :
    n.shape.Sized := by
  rcases h with h | ⟨-, hrecords⟩
  · exact h.sized hop hknown
  · obtain ⟨kind, hshape⟩ := hrecords.shape
    unfold Shape.isUnknown at hknown
    rw [hshape, Shape.kind_of] at hknown
    rw [hshape]
    exact Shape.sized_of (of_decide_eq_false hknown) _

/-- A sketched node stays one where the function table is continued. -/
theorem Sketched.withFunctions {n : Node} (h : n.Sketched exact functions shapes)
    (more : List Signature) : n.Sketched exact (functions ++ more) shapes := by
  refine h.imp_left fun hdrafted => ?_
  have hfound : ∀ {f : FunctionId} {s : Signature}, functions[f]? = some s →
      (functions ++ more)[f]? = some s := by
    intro f s hs
    rw [List.getElem?_append_left (List.getElem?_eq_some_iff.mp hs).1]
    exact hs
  unfold Drafted at hdrafted ⊢
  split at hdrafted <;> try exact hdrafted
  rcases hdrafted with ⟨hopen, hunknown, hnone⟩ | ⟨k, f, s, hoverload, hf, hs, hrest⟩
  · refine .inl ⟨hopen, hunknown, fun f hf => ?_⟩
    obtain ⟨s, hs, hfew⟩ := hnone f hf
    exact ⟨s, hfound hs, hfew⟩
  · exact .inr ⟨k, f, s, hoverload, hf, hfound hs, hrest⟩

end Node

end LaneGraph
