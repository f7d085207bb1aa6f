import LaneGraph.Proofs.Consistency
import LaneGraph.Proofs.Denotation
import LaneGraph.Proofs.Written

/-!
# Writing out vector operators keeps every value

After vector operators are written out no node mixes components any more, and every
output has its value, under every interpretation of the scalar operators. Nothing
but a cross product of other than three components is refused. That each of these
is found follows from what is kept already: one may read graphs so that a node is
marked if it depends on such a cross product. Marks are kept as well, but there is
nothing left that would make one.
-/

namespace LaneGraph

open Build

namespace Value

/-- The value of a mark. -/
def mark (b : Bool) : Value := fun k => if b = true ∧ k = 0 then some (.bool true) else none

/-- The value is there, which is what marks it. -/
def marked (v : Value) : Bool := (v 0).isSome

/-- The value of a mark is marked if the mark is set. -/
@[simp] theorem marked_mark (b : Bool) : (mark b).marked = b := by cases b <;> rfl

end Value

namespace Vectors

/-- The reading of nodes that marks what depends on a cross product of other than
three components. -/
def marks : Semantics where
  denote n values k :=
    if k < n.shape.width then Value.mark (n.crossRefused || values.any Value.marked) k else none
  frame n values := by
    rw [n.crossRefused_frame]
    rfl
  beyond n values k hk := if_neg (Nat.not_lt.mpr hk)
  mono n values values' h := by
    have hmarked : values.any Value.marked = true → values'.any Value.marked = true := by
      induction h with
      | nil => exact fun h => h
      | cons hv _ ih =>
        rw [List.any_cons, List.any_cons, Bool.or_eq_true, Bool.or_eq_true]
        rintro (hhead | hrest)
        · obtain ⟨s, hs⟩ := Option.isSome_iff_exists.mp hhead
          exact .inl (Option.isSome_iff_exists.mpr ⟨s, hv 0 s hs⟩)
        · exact .inr (ih hrest)
    intro k
    dsimp only
    split
    case isFalse => exact .none _
    unfold Value.mark
    split
    case isFalse => exact .none _
    rename_i hset
    rw [if_pos]
    · exact .refl _
    · rw [Bool.or_eq_true] at hset ⊢
      exact ⟨hset.1.imp_right hmarked, hset.2⟩

/-- A node with components is marked if it is refused or depends on what is. -/
theorem marks_denote {n : Node} (hpos : 1 ≤ n.shape.width) (values : List Value) :
    marks.denote n values = Value.mark (n.crossRefused || values.any Value.marked) := by
  funext k
  show (if k < n.shape.width then _ else none) = _
  split
  · rfl
  · rename_i hk
    unfold Value.mark
    rw [if_neg]
    rintro ⟨-, rfl⟩
    exact hk hpos

end Vectors

/-! ## Lines keep marks -/

namespace Line

variable {t : TypedRules} {shapes : List Shape} {es : List Entry} {lines : List Line}
  {ns : List Node}

/-- Without cross products, the result of lines that read all operands is marked if
one of these is. -/
theorem result_marked (ht : t.semantics = Vectors.marks) (h : frames shapes lines = some ns)
    (hne : lines ≠ []) (hlength : es.length = shapes.length)
    (hreads : reads es.length lines = true) :
    (result t es lines ns).value = Value.mark (es.any (·.value.marked)) := by
  have hcalm := frames_calm h (Bool.and_eq_true_iff.mp hreads).1
  have hmarked : (result t es lines ns).value.marked = es.any fun e => e.value.marked :=
    result_flagged (p := Value.marked) h (fun n hn values => by
      rw [ht, Vectors.marks_denote (hcalm n hn).1, Value.marked_mark, (hcalm n hn).2,
        Bool.false_or]) hne hlength hreads
  obtain ⟨-, last, inner, -, hlast, -, hvalue⟩ := exists_result h hne t es
  rw [ht, Vectors.marks_denote (hcalm last (List.mem_of_getLast? hlast)).1] at hvalue
  rw [hvalue, Value.marked_mark] at hmarked
  rw [hvalue, hmarked]

end Line

namespace Vectors

/-- Lines keep marks: an operator that is written out is not refused, and what takes
its place depends on the same operands. -/
theorem written_marks : Written marks := by
  intro t functions n shapes values lines ns ht htyped hlength hlines hns k hk
  have h := fitting_of_lines? htyped hlines
  have hcalm := crossRefused_of_lines? hlines
  have hvalues := Entry.operands_values hlength.symm
  have hcount : (Entry.operands shapes values).length = shapes.length := by
    rw [← hlength, ← congrArg List.length hvalues, List.length_map]
  have hmarks : values.any Value.marked =
      (Entry.operands shapes values).any (·.value.marked) := by
    conv_lhs => rw [← hvalues, List.any_map]
    rfl
  rw [Line.result_marked ht hns h.someLine hcount (hcount ▸ h.reads),
    marks_denote (Nat.lt_of_le_of_lt (Nat.zero_le k) hk), hcalm, Bool.false_or, hmarks]

variable {g g' : Graph}

/-- The graph depends on a cross product of other than three components. -/
def Refused (g : Graph) : Prop := ∃ id n, g.Needs id ∧ g.node? id = some n ∧ n.crossRefused = true

/-- Where a graph depends on a cross product of other than three components, an output
is marked. -/
theorem Refused.marked (h : Refused g) (hacyclic : g.Acyclic) (hg : g.Deduced) :
    ∃ output ∈ g.outputs, (g.evaluate marks output).marked = true := by
  obtain ⟨id, n, ⟨output, houtput, hpath⟩, hn, hrefused⟩ := h
  refine ⟨output, houtput, ?_⟩
  have hneeds := Graph.needs_of_mem houtput
  clear houtput
  induction hpath using Relation.ReflTransGen.head_induction_on with
  | refl =>
    obtain ⟨n', hn', htyped⟩ := hg.typed id hneeds
    rw [hn] at hn'
    cases hn'
    rw [hacyclic.evaluate_eq hn, marks_denote htyped.sized.pos, Value.marked_mark, hrefused]
    rfl
  | @head a c huse _ ih =>
    obtain ⟨m, hm, hc⟩ := huse
    obtain ⟨m', hm', htyped⟩ := hg.typed a hneeds
    rw [hm] at hm'
    cases hm'
    rw [hacyclic.evaluate_eq hm, marks_denote htyped.sized.pos, Value.marked_mark, Bool.or_eq_true,
      List.any_map]
    exact .inr (List.any_eq_true.mpr ⟨c, hc, ih (hneeds.operand hm hc)⟩)

/-- Where nothing mixes components, no delivery is marked. -/
theorem unmarked {made : List Delivery}
    (h : Stage ((rules True False marks).staged fun n _ => !n.mixes) g made) :
    ∀ delivery ∈ made, delivery.value.marked = false := by
  obtain ⟨w, hs, hwrites⟩ := h
  have hunmarked : ∀ id, w.live id → (w.value id).marked = false := by
    intro id hid
    induction hr : w.rank id using Nat.strong_induction_on generalizing id with
    | _ r ih =>
      obtain ⟨n, hn, hsound⟩ := hs id hid
      have hvalue : w.value id = marks.denote n (n.children.map w.value) := hsound.denotes trivial
      have hmixes : n.mixes = false := by
        rw [← n.mixes_frame, ← Bool.not_eq_true']
        exact hsound.fits.2.1
      rw [hvalue, marks_denote hsound.sized.pos, Value.marked_mark,
        Node.crossRefused_of_mixes hmixes, Bool.false_or, List.any_map, List.any_eq_false]
      intro c hc
      rw [Bool.not_eq_true]
      exact ih _ (hr ▸ hsound.rank_lt (Nat.le_refl 1) hc) c (hsound.live c hc) rfl
  intro delivery hdelivery
  obtain ⟨k, hk, rfl⟩ := List.getElem_of_mem hdelivery
  have hk' : k < g.outputs.length := by
    rw [hwrites.length_eq]
    exact hk
  obtain ⟨hlive, -, hvalue⟩ := hwrites.get hk' hk
  have hvalue : made[k].value = w.value g.outputs[k] := hvalue trivial
  rw [hvalue]
  exact hunmarked _ hlive

/-- A graph is refused for a cross product of other than three components. -/
def CrossOnly (e : GraphError) : Prop := ∃ width, width ≠ 3 ∧ e = .crossRequiresThree width

/-- Vector operators of a deduced graph are written out, and the outputs have their
values. The graph is refused only if it may have such cross products. -/
theorem deduced_ends {S : Semantics} {crosses : Bool} (hg : g.Deduced) (hacyclic : g.Acyclic)
    (hne : g.outputs ≠ []) (hwritten : Written S) (hcross : crosses = true ∨ ¬Refused g) :
    Ends pass.run g (fun _ g' =>
      Stage ((rules True False S crosses).staged fun n _ => !n.mixes) g' (g.delivered S))
      fun e => crosses = true ∧ CrossOnly e := by
  refine pass_ends (fun _ => hwritten) (fun hcrosses width hwidth => ⟨hcrosses, width, hwidth, rfl⟩)
    (hg.stage (t := { rules True False S crosses with need := fun _ => 1 }) hacyclic id
      (fun _ => Nat.le_refl 1) fun id n hid hn => ?_) (hg.delivered_ne_nil hne S)
  show (crosses || !n.frame.crossRefused) = true
  rcases hcross with rfl | hcalm
  · rfl
  · rw [n.crossRefused_frame, Bool.or_eq_true, Bool.not_eq_true', ← Bool.not_eq_true]
    exact .inr fun hrefused => hcalm ⟨id, n, hid, hn, hrefused⟩

/-- A graph that depends on a cross product of other than three components is
refused: otherwise an output would be marked, and nothing would mark it. -/
theorem Refused.ends (h : Refused g) (hg : g.Deduced) (hacyclic : g.Acyclic) :
    Ends pass.run g (fun _ _ => False) CrossOnly := by
  obtain ⟨output, houtput, hmarked⟩ := h.marked hacyclic hg
  have hne : g.outputs ≠ [] := List.ne_nil_of_mem houtput
  refine (deduced_ends hg hacyclic hne written_marks (.inl rfl)).imp ?_ fun _ he => he.2
  intro _ g' hstage
  obtain ⟨k, hk, rfl⟩ := List.getElem_of_mem houtput
  have hk' : k < (g.delivered marks).length := by
    rw [← (hg.delivered marks).length_eq]
    exact hk
  have hvalue : (g.delivered marks)[k].value = g.evaluate marks g.outputs[k] :=
    ((hg.delivered marks).get hk hk').2
  rw [← hvalue, unmarked hstage _ (List.getElem_mem hk')] at hmarked
  cases hmarked

end Vectors

/-- The operands of a node are there, and they have the shapes that it expects where it
expects any. -/
def Graph.Suits (g : Graph) (n : Node) : Prop :=
  ∀ i c, n.children[i]? = some c → ∃ m, g.node? c = some m ∧
    ((g.expectedShape n i).isUnknown = true ∨ g.expectedShape n i = m.shape)

/-- What a stage depends on suits its operands. -/
theorem Stage.suits {t : TypedRules} {g : Graph} {made : List Delivery} (h : Stage t.rules g made)
    {id : NodeId} {n : Node} (hid : g.Needs id) (hn : g.node? id = some n)
    (hexact : t.exact) : g.Suits n := by
  intro i c hc
  obtain ⟨n', hn', htyped, -⟩ := h.typed hid hexact
  rw [hn] at hn'
  cases hn'
  obtain ⟨m, hm, -⟩ := h.typed (hid.operand hn (List.mem_of_getElem? hc)) hexact
  refine ⟨m, hm, htyped.expected ?_⟩
  rw [List.getElem?_map, hc, Option.map_some, Graph.shapeAt_eq hm]

/-- Writing out vector operators keeps what a graph means. Of the graphs without cycles
whose types are deduced and that have outputs, those are refused that depend on a cross
product of other than three components, for that cause. In all others no node that the
outputs depend on mixes components any more, all operands have the shapes that are
expected of them, and every output writes its stream as before, with the same value
whatever the scalar operators are. -/
theorem vector_operators_written_out (g : Graph) (hacyclic : g.Acyclic) (hg : g.Deduced)
    (hne : g.outputs ≠ []) :
    (Vectors.Refused g → ∃ width g', width ≠ 3 ∧
      Vectors.pass.run.runOn g = (.error (.crossRequiresThree width), g')) ∧
    (¬Vectors.Refused g → ∃ g', Vectors.pass.run.runOn g = (.ok (), g') ∧
      (∀ id, g'.Needs id → ∃ n, g'.node? id = some n ∧ n.mixes = false ∧ g'.Suits n) ∧
      List.Forall₂ (fun id id' => ∃ channel, g.channelAt id = some channel ∧
          g'.channelAt id' = some channel ∧ ∀ A : Interpretation,
            g'.evaluate A.semantics id' = g.evaluate A.semantics id) g.outputs g'.outputs) := by
  refine ⟨fun hrefused => ?_, fun hrefused => ?_⟩
  · have hends := hrefused.ends hg hacyclic
    unfold Ends at hends
    cases hrun : Vectors.pass.run.runOn g with
    | mk result g' =>
      rw [hrun] at hends
      cases result with
      | ok _ => exact hends.elim
      | error e =>
        obtain ⟨width, hwidth, rfl⟩ := hends
        exact ⟨width, g', hwidth, rfl⟩
  have hends : ∀ A : Interpretation, Ends Vectors.pass.run g (fun _ g' =>
      Stage ((Vectors.rules True False A.semantics false).staged fun n _ => !n.mixes) g'
        (g.delivered A.semantics)) fun _ => False := fun A =>
    (Vectors.deduced_ends hg hacyclic hne (Vectors.written_interpretation A) (.inr hrefused)).imp
      (fun _ _ h => h) fun _ he => Bool.false_ne_true he.1
  obtain ⟨_, g', hrun, hstage⟩ := (hends (.literal fun _ => 0)).succeeds
  refine ⟨g', hrun, fun id hid => ?_, ?_⟩
  · obtain ⟨n, hn, -, hmixes⟩ := hstage.typed hid trivial
    have hmixes : (!n.frame.mixes) = true := hmixes
    rw [n.mixes_frame, Bool.not_eq_true'] at hmixes
    exact ⟨n, hn, hmixes, hstage.suits hid hn trivial⟩
  · have hkeeps := fun A => ((hends A).of_runOn hrun).keeps hg fun _ => Nat.le_refl 1
    refine List.forall₂_iff_get.mpr ⟨(hkeeps (.literal fun _ => 0)).length_eq, fun k hk hk' => ?_⟩
    obtain ⟨channel, hchannel, hchannel'⟩ := ((hkeeps (.literal fun _ => 0)).get hk hk').1
    exact ⟨channel, hchannel, hchannel', fun A => (((hkeeps A).get hk hk').2 trivial).symm⟩

namespace TripleProduct

/-- The inner product of a vector with the cross product of two others. -/
def graph : Graph where
  nodes := #[
    { op := .input ⟨"a", .of .int 3⟩, shape := ⟨.int, 3⟩, inputWidth := 1 },
    { op := .input ⟨"b", .of .int 3⟩, shape := ⟨.int, 3⟩, inputWidth := 1 },
    { op := .input ⟨"c", .of .int 3⟩, shape := ⟨.int, 3⟩, inputWidth := 1 },
    { op := .binary .cross 1 2, shape := ⟨.int, 3⟩, overload := some 1, inputWidth := 3 },
    { op := .binary .dot 0 3, shape := ⟨.int, 1⟩, overload := some 1, inputWidth := 3 },
    { op := .output ⟨"r", .of .int 1⟩ 4, shape := ⟨.int, 1⟩, inputWidth := 1 }]
  outputs := [5]
  inputs := [⟨"a", .of .int 3⟩, ⟨"b", .of .int 3⟩, ⟨"c", .of .int 3⟩]

/-- Operands stand before their users. -/
theorem acyclic : graph.Acyclic := Graph.acyclic_of_before (by decide)

/-- All types are deduced. -/
theorem deduced : graph.Deduced := Graph.deduced_of_all (by decide) (by decide)

/-- Three vectors of integers, which are added, subtracted and multiplied. -/
def numbers : Interpretation :=
  .strict
    (fun channel k =>
      let row := if channel.name = "a" then [2, 0, 1]
        else if channel.name = "b" then [1, 3, 0] else [0, 1, 4]
      row[k]?.map .int) (fun _ _ x => x)
    (fun op x y =>
      match op, x, y with
      | .add, .int a, .int b => .int (a + b)
      | .subtract, .int a, .int b => .int (a - b)
      | .multiply, .int a, .int b => .int (a * b)
      | _, _, _ => .int 0)
    (fun _ x _ _ => x) fun _ _ => .int 0

/-- Its cross product has three components. -/
theorem not_refused : ¬Vectors.Refused graph := by
  rintro ⟨id, n, -, hn, hrefused⟩
  have hcalm : ∀ n ∈ graph.nodes, n.crossRefused = false := by decide
  rw [hcalm n (Array.mem_of_getElem? hn)] at hrefused
  cases hrefused

end TripleProduct

/-- The operators of a triple product are written out, and the determinant of three
vectors is still twenty-five. -/
theorem vector_operators_written_out_triple :
    (TripleProduct.graph.Acyclic ∧ TripleProduct.graph.Deduced ∧
      TripleProduct.graph.outputs ≠ []) ∧
    ∃ g' output, Vectors.pass.run.runOn TripleProduct.graph = (.ok (), g') ∧
      g'.outputs = [output] ∧
      g'.evaluate TripleProduct.numbers.semantics output 0 = some (.int 25) := by
  have hne : TripleProduct.graph.outputs ≠ [] := by decide
  obtain ⟨g', hrun, -, hkeeps⟩ := (vector_operators_written_out TripleProduct.graph
    TripleProduct.acyclic TripleProduct.deduced hne).2 TripleProduct.not_refused
  obtain ⟨output, rest, ⟨channel, -, -, hvalue⟩, hrest, houtputs⟩ :=
    List.forall₂_cons_left_iff.mp hkeeps
  cases hrest
  refine ⟨⟨TripleProduct.acyclic, TripleProduct.deduced, hne⟩, g', output, hrun, houtputs, ?_⟩
  rw [hvalue TripleProduct.numbers]
  decide

end LaneGraph
