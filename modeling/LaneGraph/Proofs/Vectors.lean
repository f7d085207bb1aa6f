import LaneGraph.Proofs.Passes
import Mathlib.Tactic.IntervalCases

/-!
# Vector operators are written out

Each operator that mixes components is written out by lines that make typed nodes
of a lower rank with the same value, so that after the pass every node works
component by component.
-/

namespace LaneGraph

open Build

/-- The node mixes components of its operands. -/
def Node.mixes (n : Node) : Bool :=
  match n.op with
  | .unary .length _ | .unary .normalize _ => true
  | .unary .all _ | .unary .any _ => 1 < n.inputWidth
  | .binary .dot _ _ | .binary .cross _ _ | .binary .reflect _ _ => true
  | _ => false

/-- Whether a node mixes components is seen in its frame. -/
theorem Node.mixes_frame (n : Node) : n.frame.mixes = n.mixes := by
  unfold mixes frame
  cases n.op with
  | unary op x => cases op <;> rfl
  | binary op x y => cases op <;> rfl
  | _ => rfl

/-- The node is a cross product of other than three components. -/
def Node.crossRefused (n : Node) : Bool :=
  match n.op with
  | .binary .cross _ _ => n.inputWidth ≠ 3
  | _ => false

/-- A node that does not mix components is no cross product. -/
theorem Node.crossRefused_of_mixes {n : Node} (h : n.mixes = false) : n.crossRefused = false := by
  unfold mixes at h
  unfold crossRefused
  cases hop : n.op with
  | binary op x y =>
    rw [hop] at h
    cases op <;> first | rfl | cases h
  | _ => rfl

/-- Whether a node is refused is seen in its frame. -/
@[simp] theorem Node.crossRefused_frame (n : Node) : n.frame.crossRefused = n.crossRefused := by
  unfold crossRefused frame
  cases n.op with
  | binary op x y => cases op <;> rfl
  | _ => rfl

namespace Line

/-- The line makes a cross product. -/
def isCross : Line → Bool
  | .binary .cross _ _ => true
  | _ => false

/-- The operands that places depend on, after lines. -/
def origins : List (List Nat) → List Line → List (List Nat)
  | os, [] => os
  | os, l :: rest => origins (os ++ [l.references.flatMap fun i => os.getD i []]) rest

/-- The result of the lines depends on every operand, and no line makes a cross
product. -/
def reads (count : Nat) (lines : List Line) : Bool :=
  lines.all (fun l => !l.isCross) && (List.range count).all fun i =>
    ((origins ((List.range count).map fun i => [i]) lines).getLastD []).contains i

variable {shapes : List Shape} {lines : List Line} {ns : List Node}

/-- A line that makes no cross product makes a node with components that is not
refused. -/
theorem node?_calm {l : Line} {n : Node} (hcross : l.isCross = false)
    (h : l.node? shapes = some n) : 1 ≤ n.shape.width ∧ n.crossRefused = false := by
  have happlied : ∀ {op : Operation} {types : List OperatorType} {reduces : Bool}
      {operands : List Shape}, applied? op types reduces operands = some n →
      1 ≤ n.shape.width ∧ n.op = op := by
    intro op types reduces operands h
    obtain ⟨k, type, -, hpos, -, -, rfl⟩ := applied?_eq_some h
    refine ⟨?_, rfl⟩
    dsimp only
    split
    · exact Nat.le_refl 1
    · exact hpos
  unfold node? at h
  unfold Node.crossRefused
  dsimp only at h
  split at h
  case isFalse => cases h
  cases l with
  | literal v =>
    cases h
    exact ⟨Nat.le_refl 1, rfl⟩
  | unary op x =>
    obtain ⟨hpos, hop⟩ := happlied h
    rw [hop]
    exact ⟨hpos, rfl⟩
  | binary op x y =>
    obtain ⟨hpos, hop⟩ := happlied h
    rw [hop]
    refine ⟨hpos, ?_⟩
    cases op <;> first | rfl | cases hcross
  | ternary op x y z =>
    obtain ⟨hpos, hop⟩ := happlied h
    rw [hop]
    exact ⟨hpos, rfl⟩
  | convert x target =>
    have hoperand : pick shapes Shape.unknown (references (.convert x target)) =
      [shapes.getD x Shape.unknown] := rfl
    rw [hoperand] at h
    dsimp only at h
    split at h
    · rename_i hsized
      cases h
      exact ⟨hsized.2.2.1, rfl⟩
    · cases h
  | swizzle components x =>
    have hoperand : pick shapes Shape.unknown (references (.swizzle components x)) =
      [shapes.getD x Shape.unknown] := rfl
    rw [hoperand] at h
    dsimp only at h
    split at h
    · rename_i hsized
      cases h
      exact ⟨(Shape.sized_of hsized.1 _).pos, rfl⟩
    · cases h
  | spread shape x =>
    dsimp only at h
    split at h
    · rename_i hsized
      cases h
      exact ⟨hsized.2.1, rfl⟩
    · cases h

/-- Nodes of lines without cross products have components and are not refused. -/
theorem frames_calm (h : frames shapes lines = some ns)
    (hcross : lines.all (fun l => !l.isCross) = true) :
    ∀ n ∈ ns, 1 ≤ n.shape.width ∧ n.crossRefused = false := by
  induction lines generalizing shapes ns with
  | nil =>
    cases h
    exact fun _ hn => (nomatch hn)
  | cons l rest ih =>
    obtain ⟨n, ns, hn, hrest, rfl⟩ := frames_cons h
    rw [List.all_cons, Bool.and_eq_true, Bool.not_eq_true'] at hcross
    exact List.forall_mem_cons.mpr ⟨node?_calm hcross.1 hn, ih hrest hcross.2⟩

section

variable {t : TypedRules} {es : List Entry} {p : Value → Bool}

/-- Flags that results have from their operands: what lines make is flagged by the operands
that it depends on. -/
theorem flagged_entries (h : frames shapes lines = some ns)
    (hp : ∀ n ∈ ns, ∀ values, p (t.semantics.denote n values) = values.any p)
    (hlength : es.length = shapes.length) {os : List (List Nat)} {b : Nat → Bool}
    (hes : es.map (fun e => p e.value) = os.map (·.any b)) :
    (entries t es lines ns).map (fun e => p e.value) = (origins os lines).map (·.any b) := by
  induction lines generalizing shapes es os ns with
  | nil =>
    cases h
    exact hes
  | cons l rest ih =>
    obtain ⟨n, ns, hn, hrest, rfl⟩ := frames_cons h
    refine ih hrest (fun m hm => hp m (List.mem_cons_of_mem _ hm))
      (by rw [List.length_append, List.length_append, hlength]; rfl) ?_
    rw [List.map_append, List.map_append, hes, List.map_singleton, List.map_singleton]
    congr 2
    -- A place is flagged as the place that it stands for.
    have hplace : ∀ i ∈ l.references, p ((es.map (·.value)).getD i Value.absent) =
        (os.getD i []).any b := by
      intro i hi
      have hlt : i < es.length := by
        rw [hlength]
        exact references_lt hn i hi
      have hlt' : i < os.length := by
        have hcount := congrArg List.length hes
        rw [List.length_map, List.length_map] at hcount
        exact hcount ▸ hlt
      have hget : (es.map (fun e => p e.value))[i]? = (os.map (·.any b))[i]? := congrArg (·[i]?) hes
      rw [List.getElem?_map, List.getElem?_map, List.getElem?_eq_getElem hlt,
        List.getElem?_eq_getElem hlt', Option.map_some, Option.map_some, Option.some.injEq] at hget
      rw [List.getD_eq_getElem?_getD, List.getD_eq_getElem?_getD, List.getElem?_map,
        List.getElem?_eq_getElem hlt, List.getElem?_eq_getElem hlt']
      exact hget
    show p (t.semantics.denote n (pick (es.map (·.value)) Value.absent l.references)) = _
    rw [hp n List.mem_cons_self, List.any_flatMap]
    unfold pick
    rw [List.any_map, Bool.eq_iff_iff, List.any_eq_true, List.any_eq_true]
    exact exists_congr fun i => and_congr_right fun hi => Bool.eq_iff_iff.mp (hplace i hi)

/-- The result of lines that read all operands is flagged if one of these is. -/
theorem result_flagged (h : frames shapes lines = some ns)
    (hp : ∀ n ∈ ns, ∀ values, p (t.semantics.denote n values) = values.any p)
    (hne : lines ≠ []) (hlength : es.length = shapes.length)
    (hreads : reads es.length lines = true) :
    p (result t es lines ns).value = es.any fun e => p e.value := by
  unfold reads at hreads
  rw [Bool.and_eq_true, List.all_eq_true (l := List.range es.length)] at hreads
  obtain ⟨-, hall⟩ := hreads
  let b : Nat → Bool := fun i => es[i]?.any fun e => p e.value
  have hes : es.map (fun e => p e.value) =
      ((List.range es.length).map fun i => [i]).map (·.any b) := by
    refine List.ext_getElem? fun i => ?_
    by_cases hi : i < es.length <;> simp [b, hi]
  have hflagged := flagged_entries h hp hlength hes
  obtain ⟨init, last, inner, hentries, -⟩ := exists_result h hne t es
  have hlast : p (result t es lines ns).value =
      ((origins ((List.range es.length).map fun i => [i]) lines).getLastD []).any b := by
    rw [hentries, List.map_append, List.map_singleton] at hflagged
    have hend := congrArg (·.getLastD false) hflagged
    rw [List.getLastD_concat, List.getLastD_eq_getLast?, List.getLast?_map] at hend
    rw [hend, List.getLastD_eq_getLast?]
    cases List.getLast? _ <;> rfl
  rw [hlast, Bool.eq_iff_iff, List.any_eq_true, List.any_eq_true]
  constructor
  · rintro ⟨i, -, hi⟩
    obtain ⟨hsome, hflag⟩ := (Option.any_eq_true_iff_get _ _).mp hi
    exact ⟨_, List.mem_of_getElem? (Option.some_get hsome).symm, hflag⟩
  · rintro ⟨e, he, hflag⟩
    obtain ⟨i, hi, rfl⟩ := List.getElem_of_mem he
    refine ⟨i, List.contains_iff_mem.mp (hall i (List.mem_range.mpr hi)), ?_⟩
    dsimp only [b]
    rw [List.getElem?_eq_getElem hi]
    exact hflag

end

/-- What has no cross products keeps its form if these are ruled out. -/
theorem fit_of_calm {form : Node → List Shape → Bool} {need : Operation → Nat} {shape : Shape}
    {bound : Nat} (hform : ∀ n shapes, n.crossRefused = false → form n shapes = true)
    (hcross : lines.all (fun l => !l.isCross) = true)
    (h : fit (fun _ _ => true) need shapes lines shape bound = true) :
    fit form need shapes lines shape bound = true :=
  fit_imp (fun _ hns n hn shapes _ => hform n shapes (frames_calm hns hcross n hn).2) h

end Line

namespace Vectors

/-- How many lines an inner product takes. -/
def dotCount (width : Nat) : Nat := if width ≤ 1 then 1 else 4 * width - 1

/-- The lines of an inner product of two places; the first node gets place
`start`. -/
def dotLines (a b start width : Nat) : List Line :=
  if width ≤ 1 then [.binary .multiply a b]
  else
    [.swizzle [.x] a, .swizzle [.x] b, .binary .multiply start (start + 1)] ++
      (List.range (width - 1)).flatMap fun i =>
        [.swizzle [Component.ofIndex (i + 1)] a, .swizzle [Component.ofIndex (i + 1)] b,
         .binary .multiply (start + 4 * i + 3) (start + 4 * i + 4),
         .binary .add (start + 4 * i + 2) (start + 4 * i + 5)]

/-- The lines of a length. -/
def lengthLines (width : Nat) : List Line :=
  dotLines 0 0 1 width ++ [.unary .sqrt (dotCount width)]

/-- The lines of a unit vector. -/
def normalizeLines (shape : Shape) (width : Nat) : List Line :=
  lengthLines width ++
    [.spread shape (dotCount width + 1), .binary .divide 0 (dotCount width + 2)]

/-- The lines that join all components by an operator. -/
def joinLines (op : BinaryOp) (width : Nat) : List Line :=
  .swizzle [.x] 0 :: (List.range (width - 1)).flatMap fun i =>
    [.swizzle [Component.ofIndex (i + 1)] 0, .binary op (1 + 2 * i) (2 + 2 * i)]

/-- The lines of a cross product. -/
def crossLines : List Line :=
  [.swizzle [.y, .z, .x] 0, .swizzle [.z, .x, .y] 1, .swizzle [.z, .x, .y] 0,
   .swizzle [.y, .z, .x] 1, .binary .multiply 2 3, .binary .multiply 4 5, .binary .subtract 6 7]

/-- The lines of a reflection. -/
def reflectLines (shape : Shape) (width : Nat) : List Line :=
  let p := dotCount width + 1
  dotLines 0 1 2 width ++
    [.literal (Value.two shape.kind), .binary .multiply p (p + 1), .spread shape (p + 2),
     .binary .multiply 1 (p + 3), .binary .subtract 0 (p + 4)]

/-- The steps of an inner product are its lines. -/
theorem dot_eq (a b : NodeId) {width : Nat} (hle : width ≤ 4) :
    dot a b width = Line.make [a, b] (dotLines 0 1 2 width) := by
  interval_cases width <;>
    simp [dot, componentProduct, component, dotLines, Line.make, Line.run, Line.build,
      List.range_succ, Component.ofIndex]

/-- The steps of a length are its lines. -/
theorem length_eq (a : NodeId) {width : Nat} (hle : width ≤ 4) :
    (do unary .sqrt (← dot a a width)) = Line.make [a] (lengthLines width) := by
  interval_cases width <;>
    simp [dot, componentProduct, component, lengthLines, dotLines, dotCount, Line.make, Line.run,
      Line.build, List.range_succ, Component.ofIndex]

/-- The steps of a length look up the width first. -/
theorem ends_length {g : Graph} {a : NodeId} {width : Nat} {post : NodeId → Graph → Prop}
    {refused : GraphError → Prop} (h : ∃ m, g.node? a = some m ∧ m.shape.width = width) :
    Ends (length a) g post refused ↔
      Ends (do unary .sqrt (← dot a a width)) g post refused := by
  obtain ⟨m, hm, rfl⟩ := h
  unfold length
  rw [ends_bind, ends_shape hm]

/-- The steps of a unit vector are its lines. -/
theorem normalize_eq (a : NodeId) (shape : Shape) {width : Nat} (hle : width ≤ 4) :
    (do
      let l ← unary .sqrt (← dot a a width)
      let divisor ← construct shape [l]
      binary .divide a divisor) = Line.make [a] (normalizeLines shape width) := by
  interval_cases width <;>
    simp [dot, componentProduct, component, normalizeLines, lengthLines, dotLines, dotCount,
      Line.make, Line.run, Line.build, List.range_succ, Component.ofIndex]

/-- The steps that join components are their lines. -/
theorem join_eq (op : BinaryOp) (a : NodeId) {width : Nat} (hle : width ≤ 4) :
    join op a width = Line.make [a] (joinLines op width) := by
  interval_cases width <;>
    simp [join, component, joinLines, Line.make, Line.run, Line.build, List.range_succ,
      Component.ofIndex]

/-- The steps of a cross product are its lines. -/
theorem cross_eq (a b : NodeId) : cross a b = Line.make [a, b] crossLines := by
  simp [cross, crossLines, Line.make, Line.run, Line.build]

/-- The steps of a reflection are its lines. -/
theorem reflect_eq (shape : Shape) (a b : NodeId) {width : Nat} (hle : width ≤ 4) :
    reflect shape a b width = Line.make [a, b] (reflectLines shape width) := by
  have hsteps : reflect shape a b width = (do
      let inner ← dot a b width
      let two ← scalar (Value.two shape.kind)
      let scaled ← binary .multiply inner two
      let spread ← construct shape [scaled]
      let offset ← binary .multiply b spread
      binary .subtract a offset) := by
    unfold reflect
    cases shape.kind <;> rfl
  rw [hsteps]
  interval_cases width <;>
    simp [dot, componentProduct, component, reflectLines, dotLines, dotCount, Line.make, Line.run,
      Line.build, List.range_succ, Component.ofIndex]

/-- Room for what an operator is written out to. -/
def need : Operation → Nat
  | .unary .length _ => 7
  | .unary .normalize _ => 9
  | .unary .all _ | .unary .any _ => 5
  | .binary .dot _ _ => 6
  | .binary .cross _ _ => 4
  | .binary .reflect _ _ => 10
  | _ => 1

/-- The form of nodes before vector operators are written out. Cross products that are
refused may be ruled out. -/
def form (crosses : Bool) (n : Node) (_ : List Shape) : Bool := crosses || !n.crossRefused

/-- The rules under which vector operators are written out. -/
def rules (tracked simple : Prop) (S : Semantics) (crosses : Bool := true) (exact : Prop := True) :
    TypedRules :=
  { tracked, simple, semantics := S, form := form crosses, need, exact }

/-- What an operator that mixes components is written out to. -/
def lines? (n : Node) : Option (List Line) :=
  match n.op with
  | .unary .length _ => some (lengthLines n.inputWidth)
  | .unary .normalize _ => some (normalizeLines n.shape n.inputWidth)
  | .unary .all _ =>
    if n.inputWidth ≤ 1 then none else some (joinLines .logicalAnd n.inputWidth)
  | .unary .any _ =>
    if n.inputWidth ≤ 1 then none else some (joinLines .logicalOr n.inputWidth)
  | .binary .dot _ _ => some (dotLines 0 1 2 n.inputWidth)
  | .binary .cross _ _ => if n.inputWidth = 3 then some crossLines else none
  | .binary .reflect _ _ => some (reflectLines n.shape n.inputWidth)
  | _ => none

/-- The lines of all operators fit. -/
theorem fits : ∀ width ∈ [1, 2, 3, 4],
    (∀ kind ∈ [Kind.float, .int],
      Line.fit (fun _ _ => true) need [⟨kind, width⟩, ⟨kind, width⟩] (dotLines 0 1 2 width)
        ⟨kind, 1⟩ 6 = true ∧
      Line.fit (fun _ _ => true) need [⟨kind, width⟩, ⟨kind, width⟩]
        (reflectLines ⟨kind, width⟩ width) ⟨kind, width⟩ 10 = true) ∧
    Line.fit (fun _ _ => true) need [⟨.float, width⟩] (lengthLines width) ⟨.float, 1⟩ 7 = true ∧
    Line.fit (fun _ _ => true) need [⟨.float, width⟩] (normalizeLines ⟨.float, width⟩ width)
      ⟨.float, width⟩ 9 = true ∧
    ∀ op ∈ [BinaryOp.logicalAnd, .logicalOr],
      Line.fit (fun _ _ => true) need [⟨.bool, width⟩] (joinLines op width) ⟨.bool, 1⟩ 5 = true := by
  decide

/-- The lines of a cross product fit. -/
theorem fits_cross : ∀ kind ∈ [Kind.float, .int],
    Line.fit (fun _ _ => true) need [⟨kind, 3⟩, ⟨kind, 3⟩] crossLines ⟨kind, 3⟩ 4 = true := by
  decide

/-- The lines of integer and boolean operators make plain nodes. -/
theorem plain_lines : ∀ width ∈ [1, 2, 3, 4],
    Line.plain [⟨.int, width⟩, ⟨.int, width⟩] (dotLines 0 1 2 width) = true ∧
    Line.plain [⟨.int, width⟩, ⟨.int, width⟩] (reflectLines ⟨.int, width⟩ width) = true ∧
    Line.plain [⟨.int, 3⟩, ⟨.int, 3⟩] crossLines = true ∧
    ∀ op ∈ [BinaryOp.logicalAnd, .logicalOr],
      Line.plain [⟨.bool, width⟩] (joinLines op width) = true := by
  decide

/-- All lines of operators read all operands, and none is a cross product. -/
theorem reads_lines : ∀ width ∈ [1, 2, 3, 4],
    (∀ kind ∈ [Kind.float, .int], Line.reads 2 (dotLines 0 1 2 width) = true ∧
      Line.reads 2 (reflectLines ⟨kind, width⟩ width) = true) ∧
    Line.reads 1 (lengthLines width) = true ∧
    Line.reads 1 (normalizeLines ⟨.float, width⟩ width) = true ∧
    Line.reads 2 crossLines = true ∧
    ∀ op ∈ [BinaryOp.logicalAnd, .logicalOr], Line.reads 1 (joinLines op width) = true := by
  decide

/-- An inner product takes lines. -/
theorem dotLines_ne_nil (i j start width : Nat) : dotLines i j start width ≠ [] := by
  unfold dotLines
  split <;> simp

/-- What is known of the lines of an operator before they are run. -/
structure Fitting (n : Node) (shapes : List Shape) (lines : List Line) : Prop where
  width : n.inputWidth ∈ [1, 2, 3, 4]
  someLine : lines ≠ []
  someOperand : shapes ≠ []
  fit : Line.fit (fun _ _ => true) need shapes lines n.shape (need n.frame.op) = true
  reads : Line.reads shapes.length lines = true
  plain : n.plain = true → Line.plain shapes lines = true
  channel : n.channel? = none

/-- No line of an operator makes a cross product. -/
theorem Fitting.crossless {n : Node} {shapes : List Shape} {lines : List Line}
    (h : Fitting n shapes lines) : lines.all (fun l => !l.isCross) = true :=
  (Bool.and_eq_true_iff.mp h.reads).1

section

variable {functions : List Signature} {shapes : List Shape} {n : Node} {a b : NodeId}

/-- The lines of an inner product. -/
theorem fitting_dot (htyped : n.Typed functions shapes) (hop : n.op = .binary .dot a b) :
    Fitting n shapes (dotLines 0 1 2 n.inputWidth) := by
  obtain ⟨op, shape, overload, width, print⟩ := n
  dsimp only at hop
  subst hop
  obtain ⟨t, ht, hwidth, hshapes, hshape⟩ := Node.Operates.exists_type htyped
  dsimp only at hwidth hshapes hshape
  have hfit := (fits width hwidth).1
  have hreads := (reads_lines width hwidth).1
  subst hshapes hshape
  rcases List.mem_pair.mp ht with rfl | rfl
  · exact ⟨hwidth, dotLines_ne_nil 0 1 2 width, List.cons_ne_nil _ _, (hfit .float (by decide)).1,
      (hreads .float (by decide)).1, fun h => (nomatch h), rfl⟩
  · exact ⟨hwidth, dotLines_ne_nil 0 1 2 width, List.cons_ne_nil _ _, (hfit .int (by decide)).1,
      (hreads .int (by decide)).1, fun _ => (plain_lines width hwidth).1, rfl⟩

/-- The lines of a reflection. -/
theorem fitting_reflect (htyped : n.Typed functions shapes) (hop : n.op = .binary .reflect a b) :
    Fitting n shapes (reflectLines n.shape n.inputWidth) := by
  obtain ⟨op, shape, overload, width, print⟩ := n
  dsimp only at hop
  subst hop
  obtain ⟨t, ht, hwidth, hshapes, hshape⟩ := Node.Operates.exists_type htyped
  dsimp only at hwidth hshapes hshape
  have hfit := (fits width hwidth).1
  have hreads := (reads_lines width hwidth).1
  have hne : ∀ shape, reflectLines shape width ≠ [] := fun shape =>
    List.append_ne_nil_of_left_ne_nil (dotLines_ne_nil 0 1 2 width) _
  subst hshapes hshape
  rcases List.mem_pair.mp ht with rfl | rfl
  · exact ⟨hwidth, hne _, List.cons_ne_nil _ _, (hfit .float (by decide)).2,
      (hreads .float (by decide)).2, fun h => (nomatch h), rfl⟩
  · exact ⟨hwidth, hne _, List.cons_ne_nil _ _, (hfit .int (by decide)).2,
      (hreads .int (by decide)).2, fun _ => (plain_lines width hwidth).2.1, rfl⟩

/-- The lines of a cross product of three components. -/
theorem fitting_cross (htyped : n.Typed functions shapes) (hop : n.op = .binary .cross a b)
    (hthree : n.inputWidth = 3) : Fitting n shapes crossLines := by
  obtain ⟨op, shape, overload, width, print⟩ := n
  dsimp only at hop hthree
  subst hop hthree
  obtain ⟨t, ht, hwidth, hshapes, hshape⟩ := Node.Operates.exists_type htyped
  dsimp only at hwidth hshapes hshape
  subst hshapes hshape
  rcases List.mem_pair.mp ht with rfl | rfl
  · exact ⟨hwidth, List.cons_ne_nil _ _, List.cons_ne_nil _ _, fits_cross .float (by decide),
      (reads_lines 3 hwidth).2.2.2.1, fun h => (nomatch h), rfl⟩
  · exact ⟨hwidth, List.cons_ne_nil _ _, List.cons_ne_nil _ _, fits_cross .int (by decide),
      (reads_lines 3 hwidth).2.2.2.1, fun _ => (plain_lines 3 hwidth).2.2.1, rfl⟩

/-- The lines of a length. -/
theorem fitting_length (htyped : n.Typed functions shapes) (hop : n.op = .unary .length a) :
    Fitting n shapes (lengthLines n.inputWidth) ∧ shapes = [⟨.float, n.inputWidth⟩] := by
  obtain ⟨op, shape, overload, width, print⟩ := n
  dsimp only at hop
  subst hop
  obtain ⟨t, ht, hwidth, hshapes, hshape⟩ := Node.Operates.exists_type htyped
  dsimp only at hwidth hshapes hshape
  cases List.mem_singleton.mp ht
  subst hshapes hshape
  exact ⟨⟨hwidth, List.append_ne_nil_of_left_ne_nil (dotLines_ne_nil 0 0 1 width) _,
    List.cons_ne_nil _ _, (fits width hwidth).2.1, (reads_lines width hwidth).2.1,
    fun h => (nomatch h), rfl⟩, rfl⟩

/-- The lines of a unit vector. -/
theorem fitting_normalize (htyped : n.Typed functions shapes) (hop : n.op = .unary .normalize a) :
    Fitting n shapes (normalizeLines n.shape n.inputWidth) ∧
      shapes = [⟨.float, n.inputWidth⟩] := by
  obtain ⟨op, shape, overload, width, print⟩ := n
  dsimp only at hop
  subst hop
  obtain ⟨t, ht, hwidth, hshapes, hshape⟩ := Node.Operates.exists_type htyped
  dsimp only at hwidth hshapes hshape
  cases List.mem_singleton.mp ht
  subst hshapes hshape
  exact ⟨⟨hwidth, List.append_ne_nil_of_right_ne_nil _ (List.cons_ne_nil _ _),
    List.cons_ne_nil _ _, (fits width hwidth).2.2.1, (reads_lines width hwidth).2.2.1,
    fun h => (nomatch h), rfl⟩, rfl⟩

/-- The lines of a conjunction or disjunction of components. -/
theorem fitting_join (htyped : n.Typed functions shapes) {op : UnaryOp} {joint : BinaryOp}
    (hjoint : op = .all ∧ joint = .logicalAnd ∨ op = .any ∧ joint = .logicalOr)
    (hop : n.op = .unary op a) : Fitting n shapes (joinLines joint n.inputWidth) := by
  obtain ⟨o, shape, overload, width, print⟩ := n
  dsimp only at hop
  subst hop
  rcases hjoint with ⟨rfl, rfl⟩ | ⟨rfl, rfl⟩
  all_goals
    obtain ⟨t, ht, hwidth, hshapes, hshape⟩ := Node.Operates.exists_type htyped
    dsimp only at hwidth hshapes hshape
    cases List.mem_singleton.mp ht
    subst hshapes hshape
    exact ⟨hwidth, List.cons_ne_nil _ _, List.cons_ne_nil _ _,
      (fits width hwidth).2.2.2 _ (by decide), (reads_lines width hwidth).2.2.2.2 _ (by decide),
      fun _ => (plain_lines width hwidth).2.2.2 _ (by decide), rfl⟩

/-- The lines that an operator is written out to fit. -/
theorem fitting_of_lines? {lines : List Line} (htyped : n.Typed functions shapes)
    (hlines : lines? n = some lines) : Fitting n shapes lines := by
  unfold lines? at hlines
  cases hop : n.op with
  | unary op a =>
    rw [hop] at hlines
    cases op
    case length => exact Option.some.inj hlines ▸ (fitting_length htyped hop).1
    case normalize => exact Option.some.inj hlines ▸ (fitting_normalize htyped hop).1
    case all =>
      dsimp only at hlines
      split at hlines
      · cases hlines
      · exact Option.some.inj hlines ▸ fitting_join htyped (.inl ⟨rfl, rfl⟩) hop
    case any =>
      dsimp only at hlines
      split at hlines
      · cases hlines
      · exact Option.some.inj hlines ▸ fitting_join htyped (.inr ⟨rfl, rfl⟩) hop
    all_goals cases hlines
  | binary op a b =>
    rw [hop] at hlines
    cases op
    case dot => exact Option.some.inj hlines ▸ fitting_dot htyped hop
    case cross =>
      dsimp only at hlines
      split at hlines
      · rename_i hthree
        exact Option.some.inj hlines ▸ fitting_cross htyped hop hthree
      · cases hlines
    case reflect => exact Option.some.inj hlines ▸ fitting_reflect htyped hop
    all_goals cases hlines
  | _ =>
    rw [hop] at hlines
    cases hlines

end

/-- An operator that is written out is not refused. -/
theorem crossRefused_of_lines? {n : Node} {lines : List Line} (hlines : lines? n = some lines) :
    n.crossRefused = false := by
  unfold lines? at hlines
  unfold Node.crossRefused
  cases hop : n.op with
  | binary op x y =>
    rw [hop] at hlines
    cases op
    case cross =>
      dsimp only at hlines ⊢
      split at hlines
      · rename_i hthree
        exact decide_eq_false (not_not.mpr hthree)
      · cases hlines
    all_goals rfl
  | _ => rfl

variable {tracked simple : Prop} {S : Semantics} {crosses : Bool} {exact : Prop} {refused : GraphError → Prop}

/-- The lines of every operator compute what the operator does. -/
def Written (S : Semantics) : Prop :=
  ∀ (t : TypedRules) (functions : List Signature) (n : Node) (shapes : List Shape)
    (values : List Value) (lines : List Line) (ns : List Node), t.semantics = S →
    n.Typed functions shapes → values.length = shapes.length → lines? n = some lines →
    Line.frames shapes lines = some ns → ∀ k < n.shape.width,
      (Line.result t (Entry.operands shapes values) lines ns).value k = S.denote n values k

/-- An operator is written out by its lines. -/
theorem expands {functions : List Signature} {shapes : List Shape} {n : Node}
    {values : List Value} {lines : List Line} (hwritten : tracked → Written S)
    (hplain : simple → n.plain = true) (htyped : n.Typed functions shapes)
    (hlength : values.length = shapes.length) (hlines : lines? n = some lines) :
    Expands (rules tracked simple S crosses exact) n shapes values lines := by
  have h := fitting_of_lines? htyped hlines
  have hform : ∀ (n : Node) (shapes : List Shape), n.crossRefused = false →
      form crosses n shapes = true := fun n _ hn => by rw [form, hn, Bool.not_false, Bool.or_true]
  have hfit := Line.fit_of_calm hform h.crossless h.fit
  exact ⟨h.someLine, h.someOperand, hfit, fun hsimple => h.plain (hplain hsimple),
    fun ht ns hns k hk => hwritten ht _ functions n shapes values lines ns rfl htyped hlength hlines
      hns k hk, h.channel⟩

/-- A node that is not written out does not mix components, unless it is refused. -/
theorem mixes_of_lines? {n : Node} (hlines : lines? n = none)
    (hcross : ∀ a b, n.op = .binary .cross a b → n.inputWidth = 3) : n.mixes = false := by
  unfold lines? at hlines
  unfold Node.mixes
  cases hop : n.op with
  | unary op a =>
    rw [hop] at hlines
    cases op
    case all | any =>
      dsimp only at hlines ⊢
      split at hlines
      · rename_i hnarrow
        exact decide_eq_false (Nat.not_lt.mpr hnarrow)
      · cases hlines
    all_goals first | rfl | cases hlines
  | binary op a b =>
    rw [hop] at hlines
    cases op
    case cross =>
      dsimp only at hlines
      rw [if_pos (hcross a b hop)] at hlines
      cases hlines
    all_goals first | rfl | cases hlines
  | _ => rfl

/-- A node is replaced by its lines, and a node without lines stays. Cross products of
other than three components are refused. -/
theorem replace_ends {g : Graph} {w : World} {id : NodeId} {n : Node} {R : Rules}
    (hs : Sound R g w) (hid : w.live id) (hn : g.node? id = some n)
    (htyped : n.Typed g.functions (n.children.map g.shapeAt)) {post : NodeId → Graph → Prop}
    (hlines : ∀ lines, lines? n = some lines → Ends (Line.make n.children lines) g post refused)
    (hstay : n.mixes = false → post id g)
    (hcross : n.crossRefused = true → refused (.crossRequiresThree n.inputWidth)) :
    Ends (replace id) g post refused := by
  have hle : n.inputWidth ∈ [1, 2, 3, 4] → n.inputWidth ≤ 4 := by
    intro h
    simp only [List.mem_cons, List.not_mem_nil, or_false] at h
    omega
  have hwide : ∀ a kind, a ∈ n.op.children → [g.shapeAt a] = [⟨kind, n.inputWidth⟩] →
      ∃ m, g.node? a = some m ∧ m.shape.width = n.inputWidth := by
    intro a kind hmem hshapes
    obtain ⟨m, hm⟩ := hs.node ((hs.nodeSound hid hn).live a hmem)
    rw [Graph.shapeAt_eq hm] at hshapes
    exact ⟨m, hm, by rw [List.singleton_inj.mp hshapes]⟩
  have hmixes := mixes_of_lines? (n := n)
  have hchildren : n.children = n.op.children := rfl
  rw [hchildren] at htyped hlines
  unfold lines? at hlines hmixes
  unfold replace
  rw [ends_bind, ends_node hn]
  cases hop : n.op with
  | unary op a =>
    rw [hop] at htyped hlines hmixes
    cases op with
    | length =>
      obtain ⟨hfitting, hshapes⟩ := fitting_length htyped hop
      dsimp only
      rw [ends_length (hwide a _ (hop ▸ List.mem_singleton_self a) hshapes),
        length_eq a (hle hfitting.width)]
      exact hlines _ rfl
    | normalize =>
      obtain ⟨hfitting, hshapes⟩ := fitting_normalize htyped hop
      have hmake := hlines _ rfl
      have heq := normalize_eq a n.shape (hle hfitting.width)
      dsimp only
      rw [ends_bind, ends_length (hwide a _ (hop ▸ List.mem_singleton_self a) hshapes), ← ends_bind]
      rw [← bind_assoc] at heq
      rw [heq]
      exact hmake
    | all =>
      dsimp only at hlines hmixes ⊢
      by_cases hnarrow : n.inputWidth ≤ 1
      · rw [if_pos hnarrow] at hmixes ⊢
        exact hstay (hmixes rfl fun _ _ h => (nomatch h))
      · have hfitting := fitting_join htyped (.inl ⟨rfl, rfl⟩) hop
        rw [if_neg hnarrow] at hlines ⊢
        rw [join_eq .logicalAnd a (hle hfitting.width)]
        exact hlines _ rfl
    | any =>
      dsimp only at hlines hmixes ⊢
      by_cases hnarrow : n.inputWidth ≤ 1
      · rw [if_pos hnarrow] at hmixes ⊢
        exact hstay (hmixes rfl fun _ _ h => (nomatch h))
      · have hfitting := fitting_join htyped (.inr ⟨rfl, rfl⟩) hop
        rw [if_neg hnarrow] at hlines ⊢
        rw [join_eq .logicalOr a (hle hfitting.width)]
        exact hlines _ rfl
    | _ => exact hstay (hmixes rfl fun _ _ h => (nomatch h))
  | binary op a b =>
    rw [hop] at htyped hlines hmixes
    cases op with
    | dot =>
      dsimp only
      rw [dot_eq a b (hle (fitting_dot htyped hop).width)]
      exact hlines _ rfl
    | cross =>
      dsimp only at hlines ⊢
      by_cases hthree : n.inputWidth = 3
      · rw [if_pos hthree] at hlines
        rw [if_neg (not_not.mpr hthree), cross_eq]
        exact hlines _ rfl
      · rw [if_pos hthree, ends_throw]
        refine hcross ?_
        unfold Node.crossRefused
        rw [hop]
        exact decide_eq_true hthree
    | reflect =>
      dsimp only
      rw [reflect_eq n.shape a b (hle (fitting_reflect htyped hop).width)]
      exact hlines _ rfl
    | _ => exact hstay (hmixes rfl fun _ _ h => (nomatch h))
  | _ =>
    rw [hop] at hmixes
    exact hstay (hmixes rfl fun _ _ h => (nomatch h))

/-- A node that is refused is a cross product of other than three components. -/
theorem inputWidth_of_crossRefused {n : Node} (h : n.crossRefused = true) : n.inputWidth ≠ 3 := by
  unfold Node.crossRefused at h
  split at h
  · exact of_decide_eq_true h
  · cases h

/-- A call stays. -/
theorem replace_call {g : Graph} {id : NodeId} {n : Node} (hn : g.node? id = some n)
    (hcall : n.op.isCall = true) {post : NodeId → Graph → Prop} (hstay : n.mixes = false → post id g) :
    Ends (replace id) g post refused := by
  unfold Node.mixes at hstay
  unfold replace
  rw [ends_bind, ends_node hn]
  cases hop : n.op with
  | call candidates arguments =>
    rw [hop] at hstay
    exact hstay rfl
  | _ =>
    rw [hop] at hcall
    cases hcall

/-- Every operator that mixes components is written out, and every other node
stays. -/
theorem settles (hwritten : tracked → Written S)
    (hcross : crosses = true → ∀ width, width ≠ 3 → refused (.crossRequiresThree width)) :
    Settles (rules tracked simple S crosses exact).rules (fun _ => 0) (fun n _ => n.mixes = false)
      replace refused := by
  intro g w id n hs hid hn
  obtain ⟨hfits, hform, hplain⟩ := (hs.nodeSound hid hn).fits
  have hstay : n.mixes = false → Steps (rules tracked simple S crosses exact).rules (fun _ => 0)
      (fun n _ => n.mixes = false) g w id n id g := fun h => Steps.stay hs (n.mixes_frame ▸ h)
  by_cases hcall : n.op.isCall = true
  · exact replace_call hn hcall hstay
  have htyped := (Node.fits_frame.mp hfits).typed_of_isCall (Bool.eq_false_iff.mpr hcall)
  refine replace_ends hs hid hn htyped (fun lines hlines => ?_) hstay fun hrefused => ?_
  · exact (expands hwritten (fun h => n.plain_frame ▸ hplain h) htyped
      (by rw [List.length_map, List.length_map]) hlines).moved hs hid hn
  · have hform : (crosses || !n.frame.crossRefused) = true := hform
    rw [n.crossRefused_frame, hrefused, Bool.not_true, Bool.or_false] at hform
    exact hcross hform _ (inputWidth_of_crossRefused hrefused)

/-- After the pass no node mixes components. Nothing but a cross product is
refused. -/
theorem pass_ends (hwritten : tracked → Written S)
    (hcross : crosses = true → ∀ width, width ≠ 3 → refused (.crossRequiresThree width)) {g : Graph}
    {made : List Delivery}
    (h : Stage ((rules tracked simple S crosses exact).staged (form crosses)) g made)
    (hne : made ≠ []) : Ends pass.run g (fun _ g' =>
      Stage ((rules tracked simple S crosses exact).staged fun n _ => !n.mixes) g' made) refused := by
  have hbounds : ∀ op, 1 ≤ need op ∧ need op ≤ 10 := by
    intro op
    unfold need
    split <;> omega
  refine TypedRules.downward_ends (t := rules tracked simple S crosses exact) rfl (settles hwritten hcross)
    (fun _ => Nat.zero_le 1) (fun op => (hbounds op).1)
    (fun op => Nat.le_trans (hbounds op).2 (by decide)) ?_ h hne
  intro n _ _ hform
  rw [hform]
  rfl

end Vectors

end LaneGraph
