import LaneGraph.Proofs.Components
import LaneGraph.Proofs.Deduction

/-!
# Components that expressions lack

An expression lacks the components beyond its shape, and a selection of a component that
is lacking lacks its own first one. One may read graphs so that the value of a node tells
which components it lacks. A call without arguments has no leaf to tell from, and a
selection of more than 255 components is not as wide as it selects, so there the value is
missing, and with it the value of all that depends on such a node. What is told is kept by
the deduction of types and by the steps that split vectors.
-/

namespace LaneGraph

/-- Images that are all there. -/
theorem mapM_eq_some_iff {α β : Type} {f : α → Option β} {xs : List α} {ys : List β} :
    xs.mapM f = some ys ↔ List.Forall₂ (fun x y => f x = some y) xs ys := by
  induction xs generalizing ys with
  | nil =>
    rw [List.mapM_nil, List.forall₂_nil_left_iff]
    exact ⟨fun h => (Option.some.inj h).symm, fun h => h ▸ rfl⟩
  | cons x xs ih =>
    rw [List.mapM_cons, List.forall₂_cons_left_iff]
    constructor
    · intro h
      obtain ⟨y, hy, h⟩ := Option.bind_eq_some_iff.mp h
      obtain ⟨rest, hrest, h⟩ := Option.bind_eq_some_iff.mp h
      exact ⟨y, rest, hy, ih.mp hrest, (Option.some.inj h).symm⟩
    · rintro ⟨y, rest, hy, hrest, rfl⟩
      rw [hy, ih.mpr hrest]
      rfl

/-- Which components an expression lacks. -/
abbrev Lack := Component → Bool

namespace Lack

/-- The literal that stands for components that are lacking. -/
def literal (l : Lack) : Scalar :=
  .int (.ofNat ((l .x).toNat + 2 * (l .y).toNat + 4 * (l .z).toNat + 8 * (l .w).toNat))

/-- The components that a literal stands for. -/
def ofLiteral : Scalar → Lack
  | .int n, c => n.toInt.toNat.testBit c.index
  | _, _ => false

/-- The literal tells which components are lacking. -/
@[simp] theorem ofLiteral_literal (l : Lack) : ofLiteral l.literal = l := by
  have hbits : ∀ x y z w : Bool,
      let n := (Int32.ofNat (x.toNat + 2 * y.toNat + 4 * z.toNat + 8 * w.toNat)).toInt.toNat
      n.testBit 0 = x ∧ n.testBit 1 = y ∧ n.testBit 2 = z ∧ n.testBit 3 = w := by decide
  obtain ⟨hx, hy, hz, hw⟩ := hbits (l .x) (l .y) (l .z) (l .w)
  funext c
  cases c
  · exact hx
  · exact hy
  · exact hz
  · exact hw

/-- The value of an expression that lacks components, where that is known. -/
def value (l : Option Lack) : Value := fun k => if k = 0 then l.map literal else none

/-- What only has a first component, and may lack that one. -/
def single (b : Bool) : Lack := fun c => decide (1 ≤ c.index) || b

/-- What lacks all but its first component may lack that one. -/
theorem eq_single {l : Lack} (h : ∀ c : Component, 1 ≤ c.index → l c = true) :
    l = single (l .x) := by
  funext c
  cases c
  case x => rfl
  all_goals exact h _ (by decide)

end Lack

/-- The components that a value tells to be lacking. -/
def Value.lack? (v : Value) : Option Lack := (v 0).map Lack.ofLiteral

/-- The value tells what is lacking. -/
@[simp] theorem Value.lack?_value (l : Option Lack) : (Lack.value l).lack? = l := by
  cases l with
  | none => rfl
  | some l => exact congrArg some (Lack.ofLiteral_literal l)

/-- What is known stays known. -/
theorem Value.Within.lack? {u v : Value} (h : u.Within v) {l : Lack} (hl : u.lack? = some l) :
    v.lack? = some l := by
  obtain ⟨s, hs, rfl⟩ := Option.map_eq_some_iff.mp hl
  unfold Value.lack?
  rw [h 0 s hs]
  rfl

/-- More may be known. -/
theorem Lack.value_within {o o' : Option Lack} (h : ∀ l, o = some l → o' = some l) :
    (Lack.value o).Within (Lack.value o') := by
  cases o with
  | none =>
    intro k s hs
    unfold Lack.value at hs
    rw [Option.map_none, ite_self] at hs
    cases hs
  | some l =>
    rw [h l rfl]
    exact .refl _

/-- What is within a value that tells what is lacking tells the same or nothing. -/
theorem Value.Within.eq_value {v : Value} {o : Option Lack} (h : v.Within (Lack.value o)) :
    v = Lack.value v.lack? := by
  funext k
  by_cases hk : k = 0
  · subst hk
    cases hv : v 0 with
    | none =>
      unfold Value.lack?
      rw [hv]
      rfl
    | some s =>
      have hs := h 0 s hv
      obtain ⟨l, rfl, rfl⟩ := Option.map_eq_some_iff.mp (show o.map Lack.literal = some s from hs)
      unfold Value.lack?
      rw [hv, Option.map_some, Lack.ofLiteral_literal]
      rfl
  · refine (Option.eq_none_iff_forall_ne_some.mpr fun s hs => ?_).trans (if_neg hk).symm
    have hnone := h k s hs
    unfold Lack.value at hnone
    rw [if_neg hk] at hnone
    cases hnone

namespace Node

/-- The node is no call without arguments, and does not select more than 255 components. -/
def firm (n : Node) : Bool :=
  match n.op with
  | .call _ arguments => !arguments.isEmpty
  | .swizzle components _ => components.length ≤ 255
  | _ => true

/-- Which components a node lacks whose operands lack some: those beyond its shape, and
those that it selects, puts together, converts or writes while they are lacking. Operators
and calls lack what an operand lacks, if that is followed. -/
def lacks (deep : Bool) (n : Node) (ls : List Lack) : Lack := fun c =>
  decide (n.shape.width ≤ c.index) ||
    match n.op with
    | .swizzle components _ =>
      match components[c.index]? with
      | some inner => ls.any (· inner)
      | none => true
    | .construct _ =>
      match ls[c.index]? with
      | some l => l .x
      | none => false
    | .output _ _ | .unary .convert _ => ls.any (· c)
    | _ => deep && ls.any (· c)

/-- Whether a node is firm is seen in its frame. -/
theorem firm_frame (n : Node) : n.frame.firm = n.firm := by
  unfold firm frame
  cases n.op with
  | call candidates arguments => exact congrArg not (List.isEmpty_map ..)
  | _ => rfl

/-- What a node lacks is seen in its frame. -/
theorem lacks_frame (deep : Bool) (n : Node) (ls : List Lack) :
    n.frame.lacks deep ls = n.lacks deep ls := by
  unfold lacks frame
  cases n.op with
  | unary op x => cases op <;> rfl
  | _ => rfl

/-- There is nothing beyond the shape of a node. -/
theorem lacks_of_le {deep : Bool} {n : Node} {ls : List Lack} {c : Component}
    (h : n.shape.width ≤ c.index) : n.lacks deep ls c = true := by
  unfold lacks
  rw [decide_eq_true h, Bool.true_or]

/-- An operator lacks what an operand lacks, if that is followed. -/
theorem lacks_operator {n : Node} (hop : n.op.isOperator = true) (ls : List Lack) (c : Component) :
    n.lacks true ls c = (decide (n.shape.width ≤ c.index) || ls.any (· c)) := by
  unfold lacks
  cases hcase : n.op <;> rw [hcase] at hop
  case unary op x => cases op <;> rfl
  case binary | ternary | call => rfl
  all_goals cases hop

/-- A node lacks more if more is followed and operands lack more. -/
theorem lacks_mono {deep deep' : Bool} (hdeep : deep = true → deep' = true) (n : Node)
    {ls ls' : List Lack} (h : List.Forall₂ (fun l l' : Lack => ∀ c, l c = true → l' c = true) ls ls')
    {c : Component} (hc : n.lacks deep ls c = true) : n.lacks deep' ls' c = true := by
  have hany : ∀ c : Component, ls.any (· c) = true → ls'.any (· c) = true := by
    intro c
    clear hc
    induction h with
    | nil => exact id
    | cons hl _ ih =>
      rw [List.any_cons, List.any_cons, Bool.or_eq_true, Bool.or_eq_true]
      exact Or.imp (hl c) ih
  unfold lacks at hc ⊢
  rw [Bool.or_eq_true] at hc ⊢
  refine hc.imp id fun hc => ?_
  cases hop : n.op <;> rw [hop] at hc
  case swizzle components x =>
    dsimp only at hc ⊢
    cases hinner : components[c.index]? with
    | none => rfl
    | some inner =>
      rw [hinner] at hc
      exact hany inner hc
  case construct arguments =>
    dsimp only at hc ⊢
    cases hl : ls[c.index]? with
    | none =>
      rw [hl] at hc
      cases hc
    | some l =>
      rw [hl] at hc
      obtain ⟨hlt, rfl⟩ := List.getElem?_eq_some_iff.mp hl
      have hlt' : c.index < ls'.length := h.length_eq ▸ hlt
      rw [List.getElem?_eq_getElem hlt']
      exact h.get hlt hlt' .x hc
  case output channel x => exact hany _ hc
  case unary op x =>
    cases op
    case convert => exact hany _ hc
    all_goals exact Bool.and_eq_true_iff.mpr ((Bool.and_eq_true_iff.mp hc).imp hdeep (hany c))
  all_goals exact Bool.and_eq_true_iff.mpr ((Bool.and_eq_true_iff.mp hc).imp hdeep (hany c))

end Node

namespace Lack

/-- The reading of nodes that tells which components they lack. -/
def reading (deep : Bool) : Semantics where
  denote n values := value (if 1 ≤ n.shape.width ∧ n.firm = true then
    (values.mapM Value.lack?).map (n.lacks deep) else none)
  frame n values := by
    rw [n.firm_frame, show n.frame.lacks deep = n.lacks deep from funext fun ls => n.lacks_frame deep ls]
    rfl
  beyond n values k hk := by
    unfold value
    split
    · rename_i hzero
      rw [if_neg (by omega)]
      rfl
    · rfl
  mono n values values' h := by
    refine value_within fun l hl => ?_
    split at hl
    case isFalse => cases hl
    rename_i hfirm
    obtain ⟨ls, hls, rfl⟩ := Option.map_eq_some_iff.mp hl
    rw [if_pos hfirm, mapM_eq_some_iff.mpr ?_]
    · rfl
    rw [mapM_eq_some_iff] at hls
    clear hl
    induction h generalizing ls with
    | nil =>
      cases hls
      exact .nil
    | cons hv _ ih =>
      cases hls with
      | cons hl hrest => exact .cons (hv.lack? hl) (ih _ hrest)

variable {deep : Bool} {n : Node} {values : List Value} {ls : List Lack}

/-- What a firm node lacks follows from what its operands lack. -/
theorem denote_eq (hpos : 1 ≤ n.shape.width) (hfirm : n.firm = true) (deep : Bool)
    (values : List Value) : (reading deep).denote n values =
      value ((values.mapM Value.lack?).map (n.lacks deep)) :=
  congrArg value (if_pos ⟨hpos, hfirm⟩)

/-- Where it is known what a node lacks, it is known of its operands. -/
theorem exists_of_denote {l : Lack} (h : ((reading deep).denote n values).lack? = some l) :
    1 ≤ n.shape.width ∧ n.firm = true ∧ ∃ ls,
      List.Forall₂ (fun v l => v.lack? = some l) values ls ∧ l = n.lacks deep ls := by
  have h := (Value.lack?_value _).symm.trans h
  split at h
  case isFalse => cases h
  rename_i hfirm
  obtain ⟨ls, hls, rfl⟩ := Option.map_eq_some_iff.mp h
  exact ⟨hfirm.1, hfirm.2, ls, mapM_eq_some_iff.mp hls, rfl⟩

/-- It is known what a firm node lacks if it is known of its operands. -/
theorem denote_of_forall (hpos : 1 ≤ n.shape.width) (hfirm : n.firm = true)
    (h : List.Forall₂ (fun v l => v.lack? = some l) values ls) :
    (reading deep).denote n values = value (some (n.lacks deep ls)) := by
  rw [denote_eq hpos hfirm, mapM_eq_some_iff.mpr h]
  rfl

/-- What is known of a value of a shape: it lacks the components beyond the shape. -/
theorem eq_of_valueOf {s : Shape} {v : Value} (h : (reading deep).ValueOf s v) :
    v = value v.lack? ∧ ∀ l, v.lack? = some l → ∀ c : Component, s.width ≤ c.index → l c = true := by
  obtain ⟨n, values, rfl, hwithin⟩ := h
  refine ⟨hwithin.eq_value, fun l hl c hc => ?_⟩
  obtain ⟨-, -, ls, -, rfl⟩ := exists_of_denote (hwithin.lack? hl)
  exact Node.lacks_of_le hc

/-- What a node with one operand lacks. -/
theorem denote_one (hpos : 1 ≤ n.shape.width) (hfirm : n.firm = true) (v : Value) :
    (reading deep).denote n [v] = value (v.lack?.map fun l => n.lacks deep [l]) := by
  rw [denote_eq hpos hfirm]
  congr 1
  cases hv : v.lack? with
  | none =>
    rw [List.mapM_cons, hv]
    rfl
  | some l =>
    rw [mapM_eq_some_iff.mpr (.cons hv .nil)]
    rfl

/-- A selection lacks its own component if that of its source is lacking. -/
theorem denote_selection {c : Component} {x : NodeId} (hop : n.op = .swizzle [c] x)
    (hwidth : n.shape.width = 1) (v : Value) :
    (reading deep).denote n [v] = value (v.lack?.map fun l => single (l c)) := by
  have hfirm : n.firm = true := by
    unfold Node.firm
    rw [hop]
    rfl
  rw [denote_one (by rw [hwidth]) hfirm]
  congr 2
  funext l d
  unfold Node.lacks single
  rw [hop, hwidth]
  cases d <;> first | rfl | exact Bool.or_false _

/-- A part lacks its own component if that of the whole is lacking. -/
theorem part_eq (deep : Bool) (v : Value) (c : Component) :
    (reading deep).part v c = value (v.lack?.map fun l => single (l c)) := denote_selection rfl rfl v

/-- A scalar may lack its first component. -/
theorem single_of_valueOf {s : Shape} {v : Value} (hwidth : s.width = 1)
    (h : (reading deep).ValueOf s v) {l : Lack} (hl : v.lack? = some l) : single (l .x) = l :=
  (eq_single fun c hc => (eq_of_valueOf h).2 l hl c (by omega)).symm

/-! ## What is lacking while types are deduced -/

/-- What an operand is meant to be while types are deduced. One of unknown shape is
refused, so it may as well lack everything. -/
def coerce (deep : Bool) (expected actual : Shape) (v : Value) : Value :=
  if actual.isUnknown then value (some fun _ => true)
  else if expected.isUnknown ∨ expected = actual then v
  else if actual.width = expected.width then (reading deep).recast expected.kind actual v
  else (reading deep).spread expected ((reading deep).recast expected.kind actual v)

/-- What operands lack is kept when they are converted and spread. -/
theorem coerces (deep : Bool) : (reading deep).Coerces (coerce deep) where
  stays hactual h := by
    unfold coerce
    rw [hactual.not_unknown, if_neg Bool.false_ne_true, if_pos h]
  recasts hexpected hactual hne hwidth _ := by
    unfold coerce
    rw [hactual.not_unknown, if_neg Bool.false_ne_true, hexpected.not_unknown,
      if_neg (not_or.mpr ⟨Bool.false_ne_true, hne⟩), if_pos hwidth.symm]
  spreads {expected actual _} hexpected hactual hone hwide _ := by
    have hne : actual.width ≠ expected.width := by omega
    unfold coerce
    rw [hactual.not_unknown, if_neg Bool.false_ne_true, hexpected.not_unknown,
      if_neg (not_or.mpr ⟨Bool.false_ne_true, fun h => hne (congrArg Shape.width h.symm)⟩),
      if_neg hne]

/-- What is converted lacks what it lacked before. -/
theorem exists_recast {kind : Kind} {actual : Shape} {v : Value} {l : Lack} (hactual : actual.Sized)
    (hl : v.lack? = some l) : ∃ l', ((reading deep).recast kind actual v).lack? = some l' ∧
      ∀ c, l c = true → l' c = true := by
  unfold Semantics.recast
  split
  · exact ⟨l, hl, fun _ h => h⟩
  · rw [denote_of_forall hactual.pos rfl (.cons hl .nil), Value.lack?_value]
    refine ⟨_, rfl, fun c hc => ?_⟩
    show (_ || [l].any (· c)) = true
    rw [List.any_cons, hc, Bool.true_or, Bool.or_true]

/-- It is known what an operand is meant to lack if it is known what it lacks, or if its shape
is unknown. If the operand lacks its first component, so does what it is meant to be. -/
theorem exists_coerce {expected actual : Shape} {v : Value}
    (hexpected : expected.isUnknown = false → expected.Sized)
    (hactual : actual.isUnknown = false → actual.Sized ∧ ∃ l, v.lack? = some l) :
    ∃ l', (coerce deep expected actual v).lack? = some l' ∧
      ((∀ l, v.lack? = some l → l .x = true) → l' .x = true) := by
  unfold coerce
  split
  · exact ⟨_, Value.lack?_value _, fun _ => rfl⟩
  rename_i hunknown
  obtain ⟨hsized, l, hl⟩ := hactual (Bool.eq_false_iff.mpr hunknown)
  split
  · exact ⟨l, hl, fun h => h l hl⟩
  rename_i hopen
  rw [not_or] at hopen
  obtain ⟨l', hl', hle⟩ : ∃ l', ((reading deep).recast expected.kind actual v).lack? = some l' ∧
      ∀ c, l c = true → l' c = true := exists_recast hsized hl
  split
  · exact ⟨l', hl', fun h => hle .x (h l hl)⟩
  have hwide := hexpected (Bool.eq_false_iff.mpr hopen.1)
  have hoperands : List.Forall₂ (fun v l => v.lack? = some l)
      (List.replicate expected.width ((reading deep).recast expected.kind actual v))
      (List.replicate expected.width l') := by
    induction expected.width with
    | zero => exact .nil
    | succ k ih => exact .cons hl' ih
  unfold Semantics.spread
  rw [denote_of_forall hwide.pos rfl hoperands, Value.lack?_value]
  refine ⟨_, rfl, fun h => ?_⟩
  show (_ || match (List.replicate expected.width l')[0]? with
    | some l => l .x
    | none => false) = true
  rw [List.getElem?_replicate, if_pos (show 0 < expected.width from hwide.pos), Bool.or_eq_true]
  exact .inr (hle .x (h l hl))

end Lack

/-! ## What is lacking while vector operators are written out -/

namespace Line

/-- The line makes an operator that is no conversion. -/
def operates : Line → Bool
  | .unary op _ => op ≠ .convert
  | .binary _ _ _ | .ternary _ _ _ _ => true
  | _ => false

/-- The line selects at most 255 components, if it selects any. -/
def sparing : Line → Bool
  | .swizzle components _ => components.length ≤ 255
  | _ => true

/-- All lines make firm nodes, and the last one makes an operator. -/
def resets (lines : List Line) : Bool := lines.all sparing && lines.getLast?.any operates

variable {shapes : List Shape} {l : Line} {n : Node}

/-- The operator of a line. -/
theorem op_of_applied? {op : Operation} {types : List OperatorType} {reduces : Bool}
    {operands : List Shape} (h : applied? op types reduces operands = some n) : n.op = op := by
  obtain ⟨_, _, -, -, -, -, rfl⟩ := applied?_eq_some h
  rfl

/-- Lines that do not select too much make firm nodes. -/
theorem node?_firm (hl : l.sparing = true) (h : l.node? shapes = some n) : n.firm = true := by
  unfold node? at h
  dsimp only at h
  split at h
  case isFalse => cases h
  unfold Node.firm
  cases l with
  | literal v =>
    cases h
    rfl
  | unary op x => rw [op_of_applied? h]
  | binary op x y => rw [op_of_applied? h]
  | ternary op x y z => rw [op_of_applied? h]
  | convert x target =>
    change (if _ then some _ else none) = some n at h
    split at h
    · cases h
      rfl
    · cases h
  | swizzle components x =>
    change (if _ then some _ else none) = some n at h
    split at h
    · cases h
      exact hl
    · cases h
  | spread shape x =>
    dsimp only at h
    split at h
    · cases h
      rfl
    · cases h

/-- Where no line selects too much, all nodes are firm. -/
theorem frames_firm {lines : List Line} {ns : List Node} (h : frames shapes lines = some ns)
    (hsparing : lines.all sparing = true) : ∀ n ∈ ns, n.firm = true := by
  induction lines generalizing shapes ns with
  | nil =>
    cases h
    exact fun _ hn => (nomatch hn)
  | cons l rest ih =>
    obtain ⟨n, ns, hn, hrest, rfl⟩ := frames_cons h
    rw [List.all_cons, Bool.and_eq_true] at hsparing
    exact List.forall_mem_cons.mpr ⟨node?_firm hsparing.1 hn, ih hrest hsparing.2⟩

/-- Unless it is followed, an operator of a line only lacks what is beyond its shape. -/
theorem node?_lacks (hl : l.operates = true) (h : l.node? shapes = some n) (ls : List Lack) :
    n.lacks false ls = fun c => decide (n.shape.width ≤ c.index) := by
  unfold node? at h
  dsimp only at h
  split at h
  case isFalse => cases h
  funext c
  unfold Node.lacks
  cases l with
  | unary op x =>
    rw [op_of_applied? h]
    cases op
    case convert => cases hl
    all_goals exact Bool.or_false _
  | binary op x y =>
    rw [op_of_applied? h]
    exact Bool.or_false _
  | ternary op x y z =>
    rw [op_of_applied? h]
    exact Bool.or_false _
  | _ => cases hl

end Line

namespace Vectors

/-- The lines of an inner product end in an operator. -/
theorem resets_dot (a b start : Nat) {width : Nat} (h : width ≤ 4) :
    Line.resets (dotLines a b start width) = true := by
  interval_cases width <;> rfl

/-- The lines of a length end in an operator. -/
theorem resets_length {width : Nat} (h : width ≤ 4) : Line.resets (lengthLines width) = true := by
  interval_cases width <;> rfl

/-- The lines of a unit vector end in an operator. -/
theorem resets_normalize (shape : Shape) {width : Nat} (h : width ≤ 4) :
    Line.resets (normalizeLines shape width) = true := by
  interval_cases width <;> rfl

/-- The lines that join components end in an operator. -/
theorem resets_join (op : BinaryOp) {width : Nat} (hwide : 1 < width) (h : width ≤ 4) :
    Line.resets (joinLines op width) = true := by
  interval_cases width <;> rfl

/-- The lines of a reflection end in an operator. -/
theorem resets_reflect (shape : Shape) {width : Nat} (h : width ≤ 4) :
    Line.resets (reflectLines shape width) = true := by
  interval_cases width <;> rfl

/-- The lines of every operator end in an operator, and the operator itself only lacks what is
beyond its shape, unless what operands lack is followed. -/
theorem resets_of_lines? {n : Node} {lines : List Line} (hle : n.inputWidth ≤ 4)
    (h : lines? n = some lines) : Line.resets lines = true ∧ n.firm = true ∧
      ∀ ls, n.lacks false ls = fun c => decide (n.shape.width ≤ c.index) := by
  have hlacks : ∀ op a, n.op = .unary op a → op ≠ .convert →
      ∀ ls, n.lacks false ls = fun c => decide (n.shape.width ≤ c.index) := by
    intro op a hop hne ls
    funext c
    unfold Node.lacks
    rw [hop]
    cases op
    case convert => exact absurd rfl hne
    all_goals exact Bool.or_false _
  unfold lines? at h
  unfold Node.firm
  cases hop : n.op with
  | unary op a =>
    rw [hop] at h
    cases op
    case length => exact ⟨Option.some.inj h ▸ resets_length hle, rfl, hlacks _ a hop (by decide)⟩
    case normalize =>
      exact ⟨Option.some.inj h ▸ resets_normalize _ hle, rfl, hlacks _ a hop (by decide)⟩
    case all | any =>
      dsimp only at h
      split at h
      · cases h
      · rename_i hwide
        exact ⟨Option.some.inj h ▸ resets_join _ (Nat.lt_of_not_le hwide) hle, rfl,
          hlacks _ a hop (by decide)⟩
    all_goals cases h
  | binary op a b =>
    have hbeyond : ∀ ls, n.lacks false ls = fun c => decide (n.shape.width ≤ c.index) := by
      intro ls
      funext c
      unfold Node.lacks
      rw [hop]
      exact Bool.or_false _
    rw [hop] at h
    cases op
    case dot => exact ⟨Option.some.inj h ▸ resets_dot _ _ _ hle, rfl, hbeyond⟩
    case cross =>
      dsimp only at h
      split at h
      · exact ⟨Option.some.inj h ▸ rfl, rfl, hbeyond⟩
      · cases h
    case reflect => exact ⟨Option.some.inj h ▸ resets_reflect _ hle, rfl, hbeyond⟩
    all_goals cases h
  | _ =>
    rw [hop] at h
    cases h

end Vectors

/-- Images are missing if one of them is. -/
theorem isNone_mapM {α β : Type} (f : α → Option β) (xs : List α) :
    (xs.mapM f).isNone = xs.any fun x => (f x).isNone := by
  induction xs with
  | nil => rfl
  | cons x xs ih =>
    rw [List.mapM_cons, List.any_cons, ← ih]
    cases f x with
    | none => rfl
    | some y => cases xs.mapM f <;> rfl

namespace Lack

/-- Lines keep what is lacking, as long as what operands lack is not followed: the result is
known if all operands are, and it lacks what is beyond its shape. -/
theorem written : Vectors.Written (reading false) := by
  intro t functions n shapes values lines ns ht htyped hlength hlines hns k hk
  have h := Vectors.fitting_of_lines? htyped hlines
  have hle : n.inputWidth ≤ 4 := by
    have hwidth := h.width
    simp only [List.mem_cons, List.not_mem_nil, or_false] at hwidth
    omega
  obtain ⟨hresets, hfirm, hlacks⟩ := Vectors.resets_of_lines? hle hlines
  obtain ⟨hsparing, hlastLine⟩ := Bool.and_eq_true_iff.mp hresets
  have hvalues := Entry.operands_values hlength.symm
  have hcount : (Entry.operands shapes values).length = shapes.length := by
    rw [← hlength, ← congrArg List.length hvalues, List.length_map]
  have hfirms := Line.frames_firm hns hsparing
  have hcalm := Line.frames_calm hns h.crossless
  have hunknown : (Line.result t (Entry.operands shapes values) lines ns).value.lack?.isNone =
      (Entry.operands shapes values).any fun e => e.value.lack?.isNone :=
    Line.result_flagged (p := fun v => v.lack?.isNone) hns (fun m hm vs => by
      rw [ht, denote_eq (hcalm m hm).1 (hfirms m hm), Value.lack?_value, Option.isNone_map,
        isNone_mapM]) h.someLine hcount (hcount ▸ h.reads)
  obtain ⟨-, last, inner, -, hlast, -, hvalue⟩ :=
    Line.exists_result hns h.someLine t (Entry.operands shapes values)
  have hmem := List.mem_of_getLast? hlast
  have hshape : last.shape = n.shape := by
    have hfit := h.fit
    unfold Line.fit at hfit
    rw [hns] at hfit
    dsimp only at hfit
    rw [hlast] at hfit
    simp only [Bool.and_eq_true, decide_eq_true_eq] at hfit
    exact Option.some.inj hfit.1.2
  -- The last line makes an operator, which lacks what the node lacks.
  have hlastLacks : ∀ ls, last.lacks false ls = fun c => decide (n.shape.width ≤ c.index) := by
    rw [← hshape]
    cases hl : lines.getLast? with
    | none =>
      rw [hl] at hlastLine
      cases hlastLine
    | some l =>
      rw [hl] at hlastLine
      obtain ⟨init, rfl⟩ := List.getLast?_eq_some_iff.mp hl
      obtain ⟨ms, m, -, hm, rfl⟩ := Line.frames_concat hns
      rw [List.getLast?_concat] at hlast
      cases hlast
      exact Line.node?_lacks hlastLine hm
  rw [ht, denote_eq (hcalm last hmem).1 (hfirms last hmem)] at hvalue
  rw [hvalue, Value.lack?_value, Option.isNone_map] at hunknown
  have hknown : (inner.mapM Value.lack?).isNone = (values.mapM Value.lack?).isNone := by
    rw [hunknown, isNone_mapM]
    conv_rhs => rw [← hvalues, List.any_map]
    rfl
  rw [hvalue, denote_eq (Nat.lt_of_le_of_lt (Nat.zero_le k) hk) hfirm]
  congr 1
  cases hinner : inner.mapM Value.lack? with
  | none =>
    rw [hinner] at hknown
    rw [Option.isNone_iff_eq_none.mp hknown.symm]
    rfl
  | some ls =>
    rw [hinner] at hknown
    cases hvs : values.mapM Value.lack? with
    | none =>
      rw [hvs] at hknown
      cases hknown
    | some ls' => rw [Option.map_some, Option.map_some, hlastLacks, hlacks]

/-! ## What is lacking while vectors are split -/

section

variable {deep : Bool} {n : Node} {values : List Value} {ls : List Lack}

/-- What a firm operator on firm operands lacks. -/
theorem part_operator {n' : Node} {shapes : List Shape} {c : Component} (h : n.Narrows n')
    (harity : n.children.length = values.length)
    (hvalues : List.Forall₂ (reading true).ValueOf shapes values)
    (hle : ∀ s ∈ shapes, s.width ≤ n.shape.width) :
    ((reading true).part ((reading true).denote n values) c).Within
      ((reading true).denote n' (values.map ((reading true).part · c))) := by
  have hsome : n.firm = true → n.children ≠ [] := by
    intro hfirm
    have hoperator := h.isOperator
    unfold Node.firm at hfirm
    unfold Node.children
    cases hop : n.op <;> rw [hop] at hfirm hoperator
    case call candidates arguments =>
      rw [Bool.not_eq_true', List.isEmpty_eq_false_iff] at hfirm
      exact hfirm
    case unary | binary | ternary => exact List.cons_ne_nil _ _
    all_goals cases hoperator
  rw [part_eq]
  refine value_within fun l hl => ?_
  obtain ⟨l₀, hl₀, rfl⟩ := Option.map_eq_some_iff.mp hl
  obtain ⟨-, hfirm, ls, hls, rfl⟩ := exists_of_denote hl₀
  have hne := hsome hfirm
  have hfirm' : n'.firm = true := by
    have hne' : n'.children ≠ [] := by
      rw [← List.length_pos_iff, h.arity, List.length_pos_iff]
      exact hne
    have hoperator := h.isOperator'
    unfold Node.firm
    unfold Node.children at hne'
    cases hop : n'.op <;> rw [hop] at hne' hoperator
    case call candidates arguments =>
      rw [Bool.not_eq_true', List.isEmpty_eq_false_iff]
      exact hne'
    case swizzle => cases hoperator
  have hparts : List.Forall₂ (fun v l => v.lack? = some l)
      (values.map ((reading true).part · c)) (ls.map fun l => single (l c)) := by
    rw [List.forall₂_map_left_iff, List.forall₂_map_right_iff]
    refine hls.imp fun v l hv => ?_
    rw [part_eq, hv, Value.lack?_value]
    rfl
  show _ = some _
  rw [if_pos ⟨by rw [h.width], hfirm'⟩, mapM_eq_some_iff.mpr hparts, Option.map_some]
  congr 1
  -- The operands lack the component where it is beyond the shape of the result.
  have hbeyond : n.shape.width ≤ c.index → ls.any (· c) = true := by
    intro hc
    cases hvalues with
    | nil => exact absurd (List.eq_nil_of_length_eq_zero harity) hne
    | @cons s v _ _ hv _ =>
      cases hls with
      | @cons _ l _ _ hfirst _ =>
        rw [List.any_cons, (eq_of_valueOf hv).2 l hfirst c
          (Nat.le_trans (hle s List.mem_cons_self) hc), Bool.true_or]
  funext d
  rw [Node.lacks_operator h.isOperator', Node.lacks_operator h.isOperator, h.width]
  unfold single
  rw [List.any_map]
  by_cases hd : 1 ≤ d.index
  · rw [decide_eq_true hd, Bool.true_or, Bool.true_or]
  · have hx : d = .x := by cases d <;> first | rfl | exact absurd (by decide) hd
    subst hx
    show (false || ls.any fun l => l c) = (false || (_ || ls.any (· c)))
    rw [Bool.false_or, Bool.false_or]
    by_cases hc : n.shape.width ≤ c.index
    · rw [hbeyond hc, Bool.or_true]
    · rw [decide_eq_false hc, Bool.false_or]

/-- What a node without operands lacks. -/
theorem denote_leaf (hpos : 1 ≤ n.shape.width)
    (hop : (∃ value, n.op = .constant value) ∨ ∃ channel, n.op = .input channel) :
    (reading deep).denote n [] = value (some fun c => decide (n.shape.width ≤ c.index)) := by
  have hfirm : n.firm = true := by
    unfold Node.firm
    rcases hop with ⟨_, hop⟩ | ⟨_, hop⟩ <;> rw [hop]
  rw [denote_of_forall hpos hfirm .nil]
  congr 2
  funext c
  unfold Node.lacks
  rcases hop with ⟨_, hop⟩ | ⟨_, hop⟩ <;> rw [hop] <;>
    exact (congrArg _ (Bool.and_false deep)).trans (Bool.or_false _)

/-- What an output lacks: what its source lacks, and all beyond its shape. -/
theorem lacks_output {channel : Channel} {x : NodeId} (hop : n.op = .output channel x) (l : Lack)
    (c : Component) : n.lacks deep [l] c = (decide (n.shape.width ≤ c.index) || l c) := by
  unfold Node.lacks
  rw [hop]
  show (_ || (l c || false)) = _
  rw [Bool.or_false]

/-- Outputs are firm. -/
theorem firm_output {channel : Channel} {x : NodeId} (hop : n.op = .output channel x) :
    n.firm = true := by
  unfold Node.firm
  rw [hop]

/-- A vector that is put together from its components lacks what the stream lacks. -/
theorem denote_stream {n' : Node} {channel : Channel} {ids : List NodeId}
    (hop : n.op = .input channel) (hop' : n'.op = .construct ids) (hshape : n'.shape = n.shape)
    (hwidth : n.shape.width = channel.format.count) (hwide : 1 < channel.format.count)
    (hle : channel.format.count ≤ 4) :
    (reading deep).denote n [] = (reading deep).denote n'
      ((Component.all.take channel.format.count).map fun c =>
        (reading deep).denote (.readComponent channel c) []) := by
  have hfirm : n'.firm = true := by
    unfold Node.firm
    rw [hop']
  have hpos : 1 ≤ n.shape.width := by omega
  have hread : ∀ c, (reading deep).denote (.readComponent channel c) [] =
      value (some (single false)) := by
    intro c
    have hone := Node.width_readComponent channel c
    rw [denote_leaf (by rw [hone]) (.inr ⟨_, rfl⟩), hone]
    congr 2
    exact funext fun d => (Bool.or_false _).symm
  have hparts : List.Forall₂ (fun v l => v.lack? = some l)
      ((Component.all.take channel.format.count).map fun c =>
        (reading deep).denote (.readComponent channel c) [])
      ((Component.all.take channel.format.count).map fun _ => single false) := by
    rw [List.forall₂_map_left_iff, List.forall₂_map_right_iff, List.forall₂_same]
    exact fun c _ => by rw [hread, Value.lack?_value]
  rw [denote_leaf hpos (.inr ⟨_, hop⟩), denote_of_forall (by rw [hshape]; exact hpos) hfirm hparts]
  congr 2
  funext c
  unfold Node.lacks
  rw [hop', hshape, List.getElem?_map]
  by_cases hc : n.shape.width ≤ c.index
  · rw [decide_eq_true hc, Bool.true_or]
  · rw [decide_eq_false hc, Bool.false_or, Scalars.getElem?_components (by omega) hle]
    rfl

/-- What nodes lack tells components apart. -/
theorem separates (simple : Prop) : Separates simple (reading true) .growing where
  selection {_ c _ v} hop hwidth := by rw [part_eq, denote_selection hop hwidth]
  scalar {s v} hwidth hv := by
    rw [part_eq]
    refine Eq.trans (congrArg value ?_) (eq_of_valueOf hv).1.symm
    cases hl : v.lack? with
    | none => rfl
    | some l => exact congrArg some (single_of_valueOf hwidth hv hl)
  written {n _ _ s v} hop hone hwidth hv := by
    rw [denote_one (by rw [hone]) (firm_output hop)]
    refine Eq.trans (congrArg value ?_) (eq_of_valueOf hv).1.symm
    cases hl : v.lack? with
    | none => rfl
    | some l =>
      refine congrArg some (funext fun c => (lacks_output hop l c).trans ?_)
      rw [hone]
      by_cases hc : 1 ≤ c.index
      · rw [(eq_of_valueOf hv).2 l hl c (by omega), Bool.or_true]
      · rw [decide_eq_false hc, Bool.false_or]
  output {n _ _ c v} hop hlt := by
    rw [part_eq, part_eq, denote_one (by omega) (firm_output hop), Value.lack?_value]
    congr 1
    cases v.lack? with
    | none => rfl
    | some l =>
      refine congrArg (fun b => some (single b)) ((lacks_output hop l c).trans ?_)
      rw [decide_eq_false (Nat.not_le.mpr hlt), Bool.false_or]
  stream := denote_stream
  constant {n n' _ _ c} hop hc hwidth hop' hone := by
    obtain ⟨bits, hbits, -⟩ := Option.bind_eq_some_iff.mp hc
    have hlt : c.index < n.shape.width := by
      rw [hwidth]
      exact (List.getElem?_eq_some_iff.mp hbits).1
    rw [part_eq, denote_leaf (by omega) (.inl ⟨_, hop⟩), denote_leaf (by rw [hone]) (.inl ⟨_, hop'⟩),
      Value.lack?_value, hone]
    refine congrArg (fun l => value (some l)) (funext fun d => ?_)
    show (_ || decide (n.shape.width ≤ c.index)) = _
    rw [decide_eq_false (Nat.not_le.mpr hlt), Bool.or_false]
  nested {n components x c inner kind v} hop hinner hshape hkind _ := by
    rw [part_eq, part_eq]
    refine value_within fun l hl => ?_
    obtain ⟨l₀, hl₀, rfl⟩ := Option.map_eq_some_iff.mp hl
    obtain ⟨-, hfirm, ls, hls, rfl⟩ := exists_of_denote hl₀
    cases hls with
    | @cons _ l _ _ hv hnil =>
      cases hnil
      rw [hv]
      refine congrArg (fun b => some (single b)) ?_
      -- A firm selection is as wide as it selects, up to four components.
      have hlt : c.index < n.shape.width := by
        have hlength : components.length ≤ 255 := by
          unfold Node.firm at hfirm
          rw [hop] at hfirm
          exact of_decide_eq_true hfirm
        have hc := (List.getElem?_eq_some_iff.mp hinner).1
        have hfour : c.index < 4 := by cases c <;> decide
        rw [hshape]
        unfold Shape.of
        rw [if_neg hkind]
        dsimp only
        omega
      unfold Node.lacks
      rw [hop, decide_eq_false (Nat.not_le.mpr hlt)]
      dsimp only
      rw [hinner]
      exact ((Bool.false_or _).trans (Bool.or_false _)).symm
  argument {n arguments values c s v} hop hget hlt hwidth hv := by
    rw [part_eq, (eq_of_valueOf hv).1]
    refine value_within fun l hl => ?_
    obtain ⟨l₀, hl₀, rfl⟩ := Option.map_eq_some_iff.mp hl
    obtain ⟨-, -, ls, hls, rfl⟩ := exists_of_denote hl₀
    obtain ⟨hk, rfl⟩ := List.getElem?_eq_some_iff.mp hget
    have hk' : c.index < ls.length := hls.length_eq ▸ hk
    have hl := hls.get hk hk'
    refine hl.trans (congrArg some ?_)
    rw [← single_of_valueOf hwidth hv hl]
    refine congrArg single ?_
    unfold Node.lacks
    rw [hop, decide_eq_false (Nat.not_le.mpr hlt), Bool.false_or]
    dsimp only
    rw [List.getElem?_eq_getElem hk', List.get_eq_getElem]
  operator h _ harity hvalues hle := part_operator h harity hvalues hle

end

end Lack

end LaneGraph
