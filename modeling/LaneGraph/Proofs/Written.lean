import LaneGraph.Proofs.Vectors
import Mathlib

/-!
# Values of vector operators that are written out

The lines of an operator that mixes components compute what the operator does,
whatever sums, products and roots are. An inner product comes out line by line for
each width; what is made of it afterwards is followed from place to place.
-/

namespace LaneGraph

namespace Vectors

/-- How many lines an inner product takes. -/
theorem length_dotLines {width : Nat} (hwidth : width ∈ [1, 2, 3, 4]) (a b start : Nat) :
    (dotLines a b start width).length = dotCount width := by
  simp only [List.mem_cons, List.not_mem_nil, or_false] at hwidth
  rcases hwidth with rfl | rfl | rfl | rfl <;> rfl

section

variable {A : Interpretation} {n : Node} {x y : Value} {k : Nat}

/-- What a product or a difference or the like is under an interpretation. -/
theorem denote_binary {op : BinaryOp} (hop : n.op = .binary op 0 0)
    (hmixes : op ∉ [BinaryOp.dot, .cross, .reflect]) (hk : k < n.shape.width) :
    A.semantics.denote n [x, y] k = A.binary op (x k) (y k) := by
  refine (if_pos hk).trans ?_
  unfold Interpretation.component
  rw [hop]
  cases op <;> first | rfl | exact absurd (by decide) hmixes

/-- What a spread scalar is under an interpretation. -/
theorem denote_spread {width : Nat} (hop : n.op = .construct (List.replicate width 0))
    (hwidth : n.shape.width = width) (hk : k < width) :
    A.semantics.denote n (List.replicate width x) k = x 0 := by
  refine (if_pos (hwidth ▸ hk)).trans ?_
  unfold Interpretation.component
  rw [hop]
  dsimp only
  rw [List.getElem?_replicate, if_pos hk]
  rfl

/-- What a literal is under an interpretation. -/
theorem denote_two {kind : Kind} (hop : n.op = .constant (.ofScalar (Value.two kind)))
    (hshape : n.shape.width = 1) (values : List Value) :
    A.semantics.denote n values 0 = some (Value.two kind) := by
  refine (if_pos (by omega)).trans ?_
  unfold Interpretation.component
  rw [hop]
  cases kind <;> rfl

end

/-- A value before the last is found among those before it. -/
theorem getD_of_lt {V : List Value} {i count : Nat} (hcount : V.length = count) (h : i < count)
    (u : Value) : (V ++ [u]).getD i Value.absent = V.getD i Value.absent := by
  rw [List.getD_eq_getElem?_getD, List.getElem?_append_left (hcount ▸ h),
    List.getD_eq_getElem?_getD]

/-- The last value is found at its place. -/
theorem getD_last {V : List Value} {count : Nat} (hcount : V.length = count) (u : Value) :
    (V ++ [u]).getD count Value.absent = u := by
  rw [← hcount, List.getD_eq_getElem?_getD, List.getElem?_concat_length]
  rfl

/-- The last value stands at the last place. -/
theorem getLastD_eq {V : List Value} {count : Nat} (hcount : V.length = count + 1) :
    V.getLastD Value.absent = V.getD count Value.absent := by
  rw [List.getLastD_eq_getLast?, List.getLast?_eq_getElem?, hcount, List.getD_eq_getElem?_getD]
  rfl

/-- One more value. -/
theorem length_concat {V : List Value} {count : Nat} (hcount : V.length = count) (u : Value) :
    (V ++ [u]).length = count + 1 := by
  rw [List.length_append, hcount, List.length_singleton]

/-- One place, taken several times. -/
theorem pick_replicate (V : List Value) (width i : Nat) :
    Line.pick V Value.absent (List.replicate width i) =
      List.replicate width (V.getD i Value.absent) := List.map_replicate

section

variable {t : TypedRules} {A : Interpretation} {x y : Value} {width : Nat} {kind : Kind}
  {ns : List Node}

/-- The value of the lines of an inner product. -/
theorem dot_value (ht : t.semantics = A.semantics) (hkind : kind ∈ [Kind.float, .int])
    (hwidth : width ∈ [1, 2, 3, 4])
    (h : Line.frames [⟨kind, width⟩, ⟨kind, width⟩] (dotLines 0 1 2 width) = some ns) :
    (Line.result t (Entry.operands [⟨kind, width⟩, ⟨kind, width⟩] [x, y])
      (dotLines 0 1 2 width) ns).value 0 = A.dot x y width := by
  obtain ⟨tracked, simple, S, form, need, agreement⟩ := t
  dsimp only at ht
  subst ht
  simp only [List.mem_cons, List.not_mem_nil, or_false] at hwidth hkind
  rcases hkind with rfl | rfl <;> rcases hwidth with rfl | rfl | rfl | rfl
  all_goals
    conv at h => lhs; cbv
    cases h
    cbv

/-- The value of the lines of a length. -/
theorem length_value (ht : t.semantics = A.semantics) (hwidth : width ∈ [1, 2, 3, 4])
    (h : Line.frames [⟨.float, width⟩] (lengthLines width) = some ns) :
    (Line.result t (Entry.operands [⟨.float, width⟩] [x]) (lengthLines width) ns).value 0 =
      A.length x width := by
  obtain ⟨tracked, simple, S, form, need, agreement⟩ := t
  dsimp only at ht
  subst ht
  simp only [List.mem_cons, List.not_mem_nil, or_false] at hwidth
  rcases hwidth with rfl | rfl | rfl | rfl
  all_goals
    conv at h => lhs; cbv
    cases h
    cbv

/-- The value of the lines of a unit vector. -/
theorem normalize_value (ht : t.semantics = A.semantics) (hwidth : width ∈ [1, 2, 3, 4])
    (h : Line.frames [⟨.float, width⟩] (normalizeLines ⟨.float, width⟩ width) = some ns) {k : Nat}
    (hk : k < width) :
    (Line.result t (Entry.operands [⟨.float, width⟩] [x]) (normalizeLines ⟨.float, width⟩ width)
      ns).value k = A.binary .divide (x k) (A.length x width) := by
  have hlines : normalizeLines ⟨.float, width⟩ width =
      (lengthLines width ++ [Line.spread ⟨.float, width⟩ (dotCount width + 1)]) ++
        [Line.binary .divide 0 (dotCount width + 2)] := by
    unfold normalizeLines
    rw [List.append_assoc, List.singleton_append]
  rw [hlines] at h ⊢
  obtain ⟨ms', divide, hms', hdivide, rfl⟩ := Line.frames_concat h
  obtain ⟨ms, spread, hms, hspread, rfl⟩ := Line.frames_concat hms'
  obtain ⟨hdivideOp, hdivideWidth, -⟩ := Line.node?_binary rfl hdivide
  obtain ⟨hspreadOp, hspreadShape⟩ := Line.node?_spread hspread
  -- The place of the length is followed by those of the spread length and the quotient.
  have hsqrt := length_value (t := t) (x := x) ht hwidth hms
  have hfirst := Line.getD_values (i := 0) hms t (Entry.operands [⟨.float, width⟩] [x]) rfl
  have hcount := Line.length_values hms t (Entry.operands [⟨.float, width⟩] [x])
  rw [Line.value_result] at hsqrt
  rw [Line.value_result, Line.values_concat hms', Line.values_concat hms, List.getLastD_concat]
  generalize Line.values t (Entry.operands [⟨.float, width⟩] [x]) (lengthLines width) ms = V
    at hsqrt hfirst hcount ⊢
  have hlength : V.length = dotCount width + 2 := by
    rw [hcount]
    unfold lengthLines
    rw [List.length_append, length_dotLines hwidth]
    show 1 + (dotCount width + 1) = dotCount width + 2
    omega
  unfold Line.references
  dsimp only
  rw [pick_replicate, ← getLastD_eq hlength, ht]
  unfold Line.pick
  rw [List.map_cons, List.map_singleton, getD_of_lt hlength (Nat.succ_pos _), getD_last hlength,
    hfirst]
  refine (denote_binary hdivideOp (by decide) (hdivideWidth ▸ hk)).trans ?_
  exact congrArg _ ((denote_spread hspreadOp (congrArg Shape.width hspreadShape) hk).trans hsqrt)

/-- The value of the lines of a reflection. -/
theorem reflect_value (ht : t.semantics = A.semantics) (hkind : kind ∈ [Kind.float, .int])
    (hwidth : width ∈ [1, 2, 3, 4])
    (h : Line.frames [⟨kind, width⟩, ⟨kind, width⟩] (reflectLines ⟨kind, width⟩ width) = some ns)
    {k : Nat} (hk : k < width) :
    (Line.result t (Entry.operands [⟨kind, width⟩, ⟨kind, width⟩] [x, y])
      (reflectLines ⟨kind, width⟩ width) ns).value k = A.reflect x kind y width k := by
  have hlines : reflectLines ⟨kind, width⟩ width =
      dotLines 0 1 2 width ++ [Line.literal (Value.two kind)] ++
        [Line.binary .multiply (dotCount width + 1) (dotCount width + 2)] ++
        [Line.spread ⟨kind, width⟩ (dotCount width + 3)] ++
        [Line.binary .multiply 1 (dotCount width + 4)] ++
        [Line.binary .subtract 0 (dotCount width + 5)] := by
    unfold reflectLines
    simp only [List.append_assoc, List.singleton_append]
    rfl
  rw [hlines] at h ⊢
  obtain ⟨ms₄, subtract, hms₄, hsubtract, rfl⟩ := Line.frames_concat h
  obtain ⟨ms₃, offset, hms₃, hoffset, rfl⟩ := Line.frames_concat hms₄
  obtain ⟨ms₂, spread, hms₂, hspread, rfl⟩ := Line.frames_concat hms₃
  obtain ⟨ms₁, scaled, hms₁, hscaled, rfl⟩ := Line.frames_concat hms₂
  obtain ⟨ms, two, hms, htwo, rfl⟩ := Line.frames_concat hms₁
  obtain ⟨hsubtractOp, hsubtractWidth, -⟩ := Line.node?_binary rfl hsubtract
  obtain ⟨hoffsetOp, hoffsetWidth, -⟩ := Line.node?_binary rfl hoffset
  obtain ⟨hspreadOp, hspreadShape⟩ := Line.node?_spread hspread
  obtain ⟨hscaledOp, -, hscaledWidth⟩ := Line.node?_binary rfl hscaled
  obtain ⟨htwoOp, htwoShape⟩ := Line.node?_literal htwo
  -- The inner product is followed by two, the scaled product, its spread and the offset.
  have hdot := dot_value (t := t) (x := x) (y := y) ht hkind hwidth hms
  let es := Entry.operands [⟨kind, width⟩, ⟨kind, width⟩] [x, y]
  have hfirst : (Line.values t es (dotLines 0 1 2 width) ms).getD 0 Value.absent = x :=
    Line.getD_values (i := 0) hms t es rfl
  have hsecond : (Line.values t es (dotLines 0 1 2 width) ms).getD 1 Value.absent = y :=
    Line.getD_values (i := 1) hms t es rfl
  have hcount := Line.length_values hms t es
  rw [Line.value_result] at hdot
  rw [Line.value_result, Line.values_concat hms₄, Line.values_concat hms₃, Line.values_concat hms₂,
    Line.values_concat hms₁, Line.values_concat hms, List.getLastD_concat]
  generalize Line.values t (Entry.operands [⟨kind, width⟩, ⟨kind, width⟩] [x, y])
    (dotLines 0 1 2 width) ms = V at hdot hfirst hsecond hcount ⊢
  have hlength : V.length = dotCount width + 2 := by
    rw [hcount, length_dotLines hwidth]
    exact Nat.add_comm _ _
  have hpick : ∀ (U : List Value) (i j : Nat), Line.pick U Value.absent [i, j] =
      [U.getD i Value.absent, U.getD j Value.absent] := fun _ _ _ => rfl
  unfold Line.references
  dsimp only
  simp only [hpick, pick_replicate]
  rw [ht]
  -- Each place is read from where it was put.
  have htwoValue := denote_two (A := A) htwoOp (congrArg Shape.width htwoShape)
    (Line.pick V Value.absent [])
  generalize A.semantics.denote two (Line.pick V Value.absent []) = u₁ at htwoValue ⊢
  have hlength₁ := length_concat hlength u₁
  rw [getD_of_lt hlength (Nat.lt_succ_self _) u₁, ← getLastD_eq hlength, getD_last hlength u₁]
  have hscaledValue := denote_binary (A := A) (x := V.getLastD Value.absent) (y := u₁) hscaledOp
    (by decide) hscaledWidth
  generalize A.semantics.denote scaled [V.getLastD Value.absent, u₁] = u₂ at hscaledValue ⊢
  have hlength₂ := length_concat hlength₁ u₂
  rw [getD_last hlength₁ u₂]
  have hspreadValue := denote_spread (A := A) (x := u₂) hspreadOp
    (congrArg Shape.width hspreadShape) hk
  generalize A.semantics.denote spread (List.replicate width u₂) = u₃ at hspreadValue ⊢
  have hlength₃ := length_concat hlength₂ u₃
  rw [getD_of_lt hlength₂ (by omega) u₃, getD_of_lt hlength₁ (by omega) u₂,
    getD_of_lt hlength (by omega) u₁, hsecond, getD_last hlength₂ u₃]
  have hoffsetValue := denote_binary (A := A) (x := y) (y := u₃) hoffsetOp (by decide)
    (k := k) (by rw [hoffsetWidth]; exact hk)
  generalize A.semantics.denote offset [y, u₃] = u₄ at hoffsetValue ⊢
  rw [getD_of_lt hlength₃ (by omega) u₄, getD_of_lt hlength₂ (by omega) u₃,
    getD_of_lt hlength₁ (by omega) u₂, getD_of_lt hlength (by omega) u₁, hfirst,
    getD_last hlength₃ u₄]
  calc A.semantics.denote subtract [x, u₄] k
      = A.binary .subtract (x k) (u₄ k) :=
        denote_binary hsubtractOp (by decide) (by rw [hsubtractWidth]; exact hk)
    _ = A.reflect x kind y width k := by
        rw [hoffsetValue, hspreadValue, hscaledValue, hdot, htwoValue]
        rfl

/-- The value of the lines of a cross product. -/
theorem cross_value (ht : t.semantics = A.semantics) (hkind : kind ∈ [Kind.float, .int])
    (h : Line.frames [⟨kind, 3⟩, ⟨kind, 3⟩] crossLines = some ns) {k : Nat} (hk : k < 3) :
    (Line.result t (Entry.operands [⟨kind, 3⟩, ⟨kind, 3⟩] [x, y]) crossLines ns).value k =
      A.cross x y k := by
  obtain ⟨tracked, simple, S, form, need, agreement⟩ := t
  dsimp only at ht
  subst ht
  simp only [List.mem_cons, List.not_mem_nil, or_false] at hkind
  rcases hkind with rfl | rfl
  all_goals
    conv at h => lhs; cbv
    cases h
    interval_cases k
  all_goals cbv

/-- The value of the lines that join components. -/
theorem join_value {op : BinaryOp} (ht : t.semantics = A.semantics)
    (hop : op = .logicalAnd ∨ op = .logicalOr) (hwidth : width ∈ [1, 2, 3, 4])
    (h : Line.frames [⟨.bool, width⟩] (joinLines op width) = some ns) :
    (Line.result t (Entry.operands [⟨.bool, width⟩] [x]) (joinLines op width) ns).value 0 =
      A.join op x width := by
  obtain ⟨tracked, simple, S, form, need, agreement⟩ := t
  dsimp only at ht
  subst ht
  simp only [List.mem_cons, List.not_mem_nil, or_false] at hwidth
  rcases hop with rfl | rfl <;> rcases hwidth with rfl | rfl | rfl | rfl
  all_goals
    conv at h => lhs; cbv
    cases h
    cbv

end

/-- Under every interpretation, lines compute what the operators do. -/
theorem written_interpretation (A : Interpretation) : Written A.semantics := by
  intro t functions n shapes values lines ns ht htyped hlength hlines hns k hk
  have hwidth := (fitting_of_lines? htyped hlines).width
  have hdenote : A.semantics.denote n values k = A.component n values k := if_pos hk
  rw [hdenote]
  obtain ⟨op, shape, overload, width, print⟩ := n
  dsimp only at hwidth hk
  unfold lines? at hlines
  unfold Interpretation.component
  cases op with
  | unary op a =>
    cases op
    case length | normalize =>
      obtain ⟨type, htype, -, hshapes, hshape⟩ := Node.Operates.exists_type htyped
      dsimp only at hlines hshapes hshape
      cases List.mem_singleton.mp htype
      subst hshapes hshape
      obtain ⟨x, rfl⟩ := List.length_eq_one_iff.mp hlength
      cases hlines
      first
        | rw [Nat.lt_one_iff.mp hk]
          exact length_value ht hwidth hns
        | exact normalize_value ht hwidth hns hk
    case all | any =>
      obtain ⟨type, htype, -, hshapes, hshape⟩ := Node.Operates.exists_type htyped
      dsimp only at hlines hshapes hshape
      cases List.mem_singleton.mp htype
      subst hshapes hshape
      obtain ⟨x, rfl⟩ := List.length_eq_one_iff.mp hlength
      split at hlines
      · cases hlines
      rename_i hwide
      cases hlines
      rw [Nat.lt_one_iff.mp hk]
      exact (join_value ht (by simp) hwidth hns).trans (if_neg hwide).symm
    all_goals cases hlines
  | binary op a b =>
    cases op
    case dot =>
      obtain ⟨type, htype, -, hshapes, hshape⟩ := Node.Operates.exists_type htyped
      dsimp only at hlines hshapes hshape
      subst hshapes hshape
      cases hlines
      rcases List.mem_pair.mp htype with rfl | rfl
      all_goals
        obtain ⟨x, y, rfl⟩ := List.length_eq_two.mp hlength
        rw [Nat.lt_one_iff.mp hk]
        exact dot_value ht (by decide) hwidth hns
    case cross =>
      obtain ⟨type, htype, -, hshapes, hshape⟩ := Node.Operates.exists_type htyped
      dsimp only at hlines hshapes hshape
      split at hlines
      case isFalse => cases hlines
      rename_i hthree
      cases hlines
      subst hshapes hshape hthree
      rcases List.mem_pair.mp htype with rfl | rfl
      all_goals
        obtain ⟨x, y, rfl⟩ := List.length_eq_two.mp hlength
        exact cross_value ht (by decide) hns hk
    case reflect =>
      obtain ⟨type, htype, -, hshapes, hshape⟩ := Node.Operates.exists_type htyped
      dsimp only at hlines hshapes hshape
      subst hshapes hshape
      cases hlines
      rcases List.mem_pair.mp htype with rfl | rfl
      all_goals
        obtain ⟨x, y, rfl⟩ := List.length_eq_two.mp hlength
        exact reflect_value ht (by decide) hwidth hns hk
    all_goals cases hlines
  | _ => cases hlines

/-- On the literals of the program, lines compute what the operators do. -/
theorem written_literal (read : String → UInt32) : Written (.literal read) := by
  rw [Semantics.literal_eq]
  exact written_interpretation _

end Vectors

end LaneGraph
