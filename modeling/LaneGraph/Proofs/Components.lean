import LaneGraph.Proofs.Narrow

/-!
# Components of values

Vectors are split in the same steps under every reading of nodes that tells the
components of a value apart: a selection reads one component, a vector is put together
from its components, and an operator that does not mix works on one component at a time.
What nodes compute under an interpretation is such a reading if streams of components
hold what the vector streams hold.
-/

namespace LaneGraph

namespace Semantics

/-- One component of a value, as a scalar. -/
def part (S : Semantics) (v : Value) (c : Component) : Value :=
  S.denote { op := .swizzle [c] 0, shape := ⟨.int, 1⟩ } [v]

/-- A value that a node of the shape can have. -/
def ValueOf (S : Semantics) (s : Shape) (v : Value) : Prop :=
  ∃ n values, n.shape = s ∧ v.Within (S.denote n values)

/-- Parts agree if values do. -/
theorem part_mono (S : Semantics) (G : Agreement) {u v : Value} (h : G.le u v) (c : Component) :
    G.le (S.part u c) (S.part v c) := G.mono S _ (.cons h .nil)

/-- There is nothing beyond the shape of a value. -/
theorem ValueOf.eq_none {S : Semantics} {s : Shape} {v : Value} (h : S.ValueOf s v) {k : Nat}
    (hk : s.width ≤ k) : v k = none := by
  obtain ⟨n, values, rfl, hwithin⟩ := h
  refine Option.eq_none_iff_forall_ne_some.mpr fun x hx => ?_
  have hsome := hwithin k x hx
  rw [S.beyond n values k hk] at hsome
  cases hsome

end Semantics

/-- The values of nodes that matter are values of their shapes. -/
theorem Sound.valueOf {t : TypedRules} {g : Graph} {w : World} (hs : Sound t.rules g w)
    (ht : t.tracked) {id : NodeId} (hid : w.live id) :
    t.semantics.ValueOf (g.shapeAt id) (w.value id) := by
  obtain ⟨n, hn, hsound⟩ := hs id hid
  exact ⟨n, _, (Graph.shapeAt_eq hn).symm, t.agreement.within (hsound.denotes ht)⟩

namespace Node

/-- The node that reads a component of a stream. -/
def readComponent (channel : Channel) (c : Component) : Node :=
  { op := .input (channel.component c), shape := (channel.component c).format.shape,
    inputWidth := 1 }

/-- A component of a stream is a scalar. -/
theorem width_readComponent (channel : Channel) (c : Component) :
    (readComponent channel c).shape.width = 1 := by
  show (Format.shape _).width = 1
  rw [(Format.shape_eq (Nat.le_refl 1) (by decide : 1 ≤ 4)).1]
  rfl

/-- The second node is an operator that makes one component of the result of the first one
out of one component of each operand. -/
structure Narrows (n n' : Node) : Prop where
  isOperator : n.op.isOperator = true
  unmixed : n.mixes = false
  isOperator' : n'.op.isOperator = true
  unmixed' : n'.mixes = false
  arity : n'.children.length = n.children.length
  lift : ∀ A : Interpretation, n'.lift A = n.lift A
  width : n'.shape.width = 1

end Node

/-- A reading of nodes tells components apart. -/
structure Separates (simple : Prop) (S : Semantics) (G : Agreement) : Prop where
  selection : ∀ {n : Node} {c : Component} {x : NodeId} {v : Value}, n.op = .swizzle [c] x →
    n.shape.width = 1 → S.denote n [v] = S.part v c
  scalar : ∀ {s : Shape} {v : Value}, s.width = 1 → S.ValueOf s v → S.part v .x = v
  written : ∀ {n : Node} {channel : Channel} {x : NodeId} {s : Shape} {v : Value},
    n.op = .output channel x → n.shape.width = 1 → s.width = 1 → S.ValueOf s v → S.denote n [v] = v
  output : ∀ {n : Node} {channel : Channel} {x : NodeId} {c : Component} {v : Value},
    n.op = .output channel x → c.index < n.shape.width → S.part (S.denote n [v]) c = S.part v c
  stream : ∀ {n n' : Node} {channel : Channel} {ids : List NodeId}, n.op = .input channel →
    n'.op = .construct ids → n'.shape = n.shape → n.shape.width = channel.format.count →
    1 < channel.format.count → channel.format.count ≤ 4 →
    S.denote n [] = S.denote n' ((Component.all.take channel.format.count).map fun c =>
      S.denote (.readComponent channel c) [])
  constant : ∀ {n n' : Node} {value : Constant} {s : Scalar} {c : Component},
    n.op = .constant value → value.component? c = some s → n.shape.width = value.count →
    n'.op = .constant (.ofScalar s) → n'.shape.width = 1 →
    S.part (S.denote n []) c = S.denote n' []
  nested : ∀ {n : Node} {components : List Component} {x : NodeId} {c inner : Component}
    {kind : Kind} {v : Value}, n.op = .swizzle components x → components[c.index]? = some inner →
    n.shape = Shape.of kind (components.length % 256) → kind ≠ .unknown →
    (simple → n.plain = true) → G.le (S.part (S.denote n [v]) c) (S.part v inner)
  argument : ∀ {n : Node} {arguments : List NodeId} {values : List Value} {c : Component}
    {s : Shape} {v : Value}, n.op = .construct arguments → values[c.index]? = some v →
    c.index < n.shape.width → s.width = 1 → S.ValueOf s v → G.le (S.part (S.denote n values) c) v
  operator : ∀ {n n' : Node} {shapes : List Shape} {values : List Value} {c : Component},
    n.Narrows n' → (simple → n.plain = true) → n.children.length = values.length →
    List.Forall₂ S.ValueOf shapes values → (∀ s ∈ shapes, s.width ≤ n.shape.width) →
    G.le (S.part (S.denote n values) c) (S.denote n' (values.map (S.part · c)))

namespace Interpretation

/-- The components of a vector stream are what streams of their own hold. -/
def Splits (A : Interpretation) (channel : Channel) : Prop :=
  ∀ c : Component, 1 < channel.format.count → c.index < channel.format.count →
    A.input (channel.component c) 0 = A.input channel c.index

/-- The components of all vector streams are what streams of their own hold. -/
def SplitsStreams (A : Interpretation) : Prop := ∀ channel, A.Splits channel

/-- On the literals of the program, streams are read by the names of components. -/
theorem literal_splitsStreams (read : String → UInt32) : (literal read).SplitsStreams := by
  intro channel c hwide _
  have hname : channel.scalarName c.index = (channel.component c).name := by
    unfold Channel.scalarName
    rw [if_neg (by omega)]
    cases c <;> rfl
  show Scalar.ofBits? _ (read (channel.component c).name) = Scalar.ofBits? _ (read _)
  rw [hname]
  rfl

/-- Operators have no value where all operands are missing. -/
structure Strict (A : Interpretation) : Prop where
  unary : ∀ op kind, A.unary op kind none = none
  binary : ∀ op, A.binary op none none = none
  ternary : ∀ op, A.ternary op none none none = none

/-- Operators on the literals of the program are strict. -/
theorem literal_strict (read : String → UInt32) : (literal read).Strict where
  unary _ _ := rfl
  binary _ := rfl
  ternary op := by cases op <;> rfl

end Interpretation

namespace Node

variable {n : Node} {A : Interpretation}

/-- Without operands there is no value. -/
theorem lift_none (hA : A.Strict) (hplain : n.plain = true) {xs : List (Option Scalar)}
    (h : ∀ x ∈ xs, x = none) : n.lift A xs = none := by
  have hget : ∀ i, xs.getD i none = none := by
    intro i
    rw [List.getD_eq_getElem?_getD]
    cases hi : xs[i]? with
    | none => rfl
    | some x => exact h x (List.mem_of_getElem? hi)
  unfold lift
  cases hop : n.op with
  | unary op a =>
    dsimp only
    rw [hget]
    exact hA.unary _ _
  | binary op a b =>
    dsimp only
    rw [hget, hget]
    exact hA.binary _
  | ternary op a b c =>
    dsimp only
    rw [hget, hget, hget]
    exact hA.ternary _
  | call candidates arguments =>
    unfold plain at hplain
    rw [hop, Bool.and_false] at hplain
    cases hplain
  | _ => rfl

/-- The operands of an operator that does not mix are no wider than the result. -/
theorem Typed.width_le {functions : List Signature} {shapes : List Shape}
    (h : n.Typed functions shapes) (hop : n.op.isOperator = true) (hmixes : n.mixes = false) :
    ∀ s ∈ shapes, s.width ≤ n.shape.width := by
  have hoperates : ∀ {types : List OperatorType} {reduces : Bool},
      n.Operates types reduces shapes → (reduces = true → n.inputWidth ≤ 1) →
        ∀ s ∈ shapes, s.width ≤ n.shape.width := by
    intro types reduces hn hreduces s hs
    obtain ⟨k, t, -, -, hpos, -, rfl, hshape⟩ := hn
    unfold shapesOf at hs
    obtain ⟨kind, -, rfl⟩ := List.mem_map.mp hs
    rw [hshape]
    dsimp only
    cases reduces with
    | false => exact Nat.le_refl _
    | true => exact hreduces rfl
  unfold mixes at hmixes
  cases hcase : n.op <;> rw [hcase] at hop hmixes
  case unary op a =>
    by_cases hconvert : op = .convert
    · subst hconvert
      unfold Typed at h
      rw [hcase] at h
      obtain ⟨s, rfl, -, -, hwidth, -⟩ := h
      intro s' hs'
      rw [List.mem_singleton.mp hs', hwidth]
    · refine hoperates ((typed_unary hcase hconvert).mp h) fun hreduces => ?_
      cases op <;> first
        | exact absurd hreduces Bool.false_ne_true
        | exact Nat.le_of_not_lt (of_decide_eq_false hmixes)
        | exact absurd hmixes.symm Bool.false_ne_true
  case binary op a b =>
    refine hoperates ((typed_binary hcase).mp h) fun hreduces => ?_
    cases op <;> first
      | exact absurd hreduces Bool.false_ne_true
      | exact absurd hmixes.symm Bool.false_ne_true
  case ternary op a b c =>
    exact hoperates ((typed_ternary hcase).mp h) fun h => absurd h Bool.false_ne_true
  case call candidates arguments =>
    unfold Typed at h
    rw [hcase] at h
    obtain ⟨_, _, _, -, -, -, -, -, -, -, -, hshape, hshapes⟩ := h
    intro s hs
    obtain ⟨i, hi⟩ := List.getElem?_of_mem hs
    rw [hshape]
    exact (hshapes i s hi).2.1
  all_goals cases hop

end Node

namespace Scalars

/-- The components of a vector, by their positions. -/
theorem getElem?_components {count k : Nat} (hk : k < count) (hcount : count ≤ 4) :
    (Component.all.take count)[k]? = some (Component.ofIndex k) := by
  rw [List.getElem?_take_of_lt hk]
  have hall : ∀ k < 4, Component.all[k]? = some (Component.ofIndex k) := by decide
  exact hall k (by omega)

/-- There are as many components as counted. -/
theorem length_components {count : Nat} (hcount : count ≤ 4) :
    (Component.all.take count).length = count := by
  rw [List.length_take]
  exact Nat.min_eq_left hcount

/-- The position of a component is below the count. -/
theorem index_lt {count : Nat} {c : Component} (hcount : count ≤ 4)
    (hc : c ∈ Component.all.take count) : c.index < count := by
  obtain ⟨k, hk, hget⟩ := List.getElem_of_mem hc
  rw [length_components hcount] at hk
  have hindex : ∀ k < 4, (Component.ofIndex k).index = k := by decide
  have hsome := getElem?_components hk hcount
  rw [List.getElem?_eq_getElem (by rw [length_components hcount]; exact hk), hget] at hsome
  rw [Option.some.inj hsome, hindex k (by omega)]
  exact hk

/-- One component of a value. -/
def part (v : Value) (c : Component) : Value := fun k => if k < 1 then v c.index else none

/-- Where a component is selected beyond a shape, a value may turn up, or there is none:
operators are strict, and there are no calls. -/
def Tolerant (tracked simple : Prop) (A : Interpretation) (G : Agreement) : Prop :=
  tracked → (∀ v, G.le Value.absent v) ∨ simple ∧ A.Strict

variable {tracked simple : Prop} {A : Interpretation} {G : Agreement} {n n' : Node}
  {values : List Value} {c : Component}

/-- The selection of one component is that component. -/
theorem part_eq_denote (A : Interpretation) {n : Node} (v : Value) (c : Component) {x : NodeId}
    (hop : n.op = .swizzle [c] x) (hwidth : n.shape.width = 1) : part v c = A.denote n [v] := by
  funext k
  unfold Interpretation.denote Interpretation.component part
  rw [hwidth, hop]
  by_cases hk : k < 1
  · rw [if_pos hk, if_pos hk, Nat.lt_one_iff.mp hk]
    rfl
  · rw [if_neg hk, if_neg hk]

/-- Under an interpretation, a part is the component itself. -/
theorem part_semantics (A : Interpretation) (v : Value) (c : Component) :
    A.semantics.part v c = part v c := (part_eq_denote A v c rfl rfl).symm

/-- There is nothing beyond the shape of a node. -/
theorem part_denote_of_le (h : n.shape.width ≤ c.index) :
    part (A.denote n values) c = Value.absent := by
  funext k
  unfold part
  rw [A.denote_eq_none h]
  exact ite_self _

/-- Below the shape of a node, a part is what the operands make of it. -/
theorem part_denote_of_lt (h : c.index < n.shape.width) :
    part (A.denote n values) c = fun k => if k < 1 then A.component n values c.index else none := by
  unfold part Interpretation.denote
  rw [if_pos h]

/-- A scalar is its own first component. -/
theorem part_of_scalar {S : Semantics} {s : Shape} {v : Value} (hwidth : s.width = 1)
    (h : S.ValueOf s v) : part v .x = v := by
  funext k
  unfold part
  by_cases hk : k < 1
  · rw [if_pos hk, Nat.lt_one_iff.mp hk]
    rfl
  · rw [if_neg hk]
    exact (h.eq_none (by omega)).symm

/-- A vector stream is put together from the streams of its components. -/
theorem denote_stream {channel : Channel} {ids : List NodeId} (hsplits : A.Splits channel)
    (hop : n.op = .input channel) (hop' : n'.op = .construct ids) (hshape : n'.shape = n.shape)
    (hwidth : n.shape.width = channel.format.count) (hwide : 1 < channel.format.count)
    (hle : channel.format.count ≤ 4) :
    A.denote n [] = A.denote n' ((Component.all.take channel.format.count).map fun c =>
      A.denote (.readComponent channel c) []) := by
  funext k
  unfold Interpretation.denote
  rw [hshape]
  split
  case isFalse => rfl
  rename_i hk
  rw [hwidth] at hk
  have hindex : ∀ k < 4, (Component.ofIndex k).index = k := by decide
  have hread := hsplits (Component.ofIndex k) hwide (by rw [hindex k (by omega)]; exact hk)
  rw [hindex k (by omega)] at hread
  have hone : 0 < (Node.readComponent channel (Component.ofIndex k)).shape.width := by
    rw [Node.width_readComponent]
    exact Nat.one_pos
  unfold Interpretation.component
  rw [hop, hop']
  dsimp only
  rw [List.getElem?_map, getElem?_components hk hle, Option.map_some, Option.bind_some]
  exact hread.symm.trans (if_pos hone).symm

/-- One component of a literal is a literal. -/
theorem part_constant {value : Constant} {s : Scalar} (hop : n.op = .constant value)
    (hc : value.component? c = some s) (hwidth : n.shape.width = value.count)
    (hop' : n'.op = .constant (.ofScalar s)) (hone : n'.shape.width = 1) :
    part (A.denote n values) c = A.denote n' [] := by
  obtain ⟨bits, hbits, -⟩ := Option.bind_eq_some_iff.mp hc
  have hlt : c.index < n.shape.width := by
    rw [hwidth]
    exact (List.getElem?_eq_some_iff.mp hbits).1
  rw [part_denote_of_lt hlt]
  funext k
  unfold Interpretation.denote Interpretation.component
  rw [hone, hop, hop']
  by_cases hk : k < 1
  · rw [if_pos hk, if_pos hk, Nat.lt_one_iff.mp hk]
    exact Eq.trans hc (Scalar.ofBits?_bits s).symm
  · rw [if_neg hk, if_neg hk]

/-- One component of a selection is a component of its source. -/
theorem part_nested (hG : (∀ v, G.le Value.absent v) ∨ simple ∧ A.Strict)
    {components : List Component} {x : NodeId} {inner : Component} {kind : Kind} {v : Value}
    (hop : n.op = .swizzle components x) (hinner : components[c.index]? = some inner)
    (hshape : n.shape = Shape.of kind (components.length % 256)) (hkind : kind ≠ .unknown)
    (hplain : simple → n.plain = true) : G.le (part (A.denote n [v]) c) (part v inner) := by
  by_cases hwidth : c.index < n.shape.width
  · have hvalue : A.component n [v] c.index = v inner.index := by
      unfold Interpretation.component
      rw [hop]
      dsimp only
      rw [hinner]
      rfl
    rw [part_denote_of_lt hwidth, hvalue]
    exact G.refl _
  -- Only a selection of many components has more of them than its shape.
  rcases hG with hbottom | ⟨hsimple, -⟩
  · rw [part_denote_of_le (Nat.le_of_not_lt hwidth)]
    exact hbottom _
  · have hlt : c.index < components.length := (List.getElem?_eq_some_iff.mp hinner).1
    have hlength := Node.length_of_plain (hplain hsimple) hop
    refine absurd ?_ hwidth
    rw [hshape]
    unfold Shape.of
    rw [if_neg hkind]
    dsimp only
    omega

/-- An operator on selected components is a selected component of the operator. -/
theorem part_operator (hG : (∀ v, G.le Value.absent v) ∨ simple ∧ A.Strict) {shapes : List Shape}
    (h : n.Narrows n') (hplain : simple → n.plain = true)
    (hvalues : List.Forall₂ A.semantics.ValueOf shapes values)
    (hle : ∀ s ∈ shapes, s.width ≤ n.shape.width) :
    G.le (part (A.denote n values) c) (A.denote n' (values.map (part · c))) := by
  have hselected : A.denote n' (values.map (part · c)) = fun k =>
      if k < 1 then n.lift A (values.map (· c.index)) else none := by
    funext k
    unfold Interpretation.denote
    rw [h.width]
    by_cases hk : k < 1
    · rw [if_pos hk, if_pos hk, Nat.lt_one_iff.mp hk,
        Node.component_eq_lift h.isOperator' h.unmixed', h.lift, List.map_map]
      rfl
    · rw [if_neg hk, if_neg hk]
  rw [hselected]
  by_cases hc : c.index < n.shape.width
  · rw [part_denote_of_lt hc, Node.component_eq_lift h.isOperator h.unmixed]
    exact G.refl _
  rw [part_denote_of_le (Nat.le_of_not_lt hc)]
  rcases hG with hbottom | ⟨hsimple, hstrict⟩
  · exact hbottom _
  · have hnone : n.lift A (values.map (· c.index)) = none := by
      refine Node.lift_none hstrict (hplain hsimple) fun x hx => ?_
      obtain ⟨v, hv, rfl⟩ := List.mem_map.mp hx
      obtain ⟨i, hi, rfl⟩ := List.getElem_of_mem hv
      have hlt : i < shapes.length := by
        rw [hvalues.length_eq]
        exact hi
      have hwidth := hle _ (List.getElem_mem hlt)
      exact (hvalues.get hlt hi).eq_none (Nat.le_trans hwidth (Nat.le_of_not_lt hc))
    rw [hnone]
    simp only [ite_self]
    exact G.refl _

/-- What nodes compute under an interpretation tells components apart. -/
theorem separates (hsplits : A.SplitsStreams) (htolerant : Tolerant tracked simple A G)
    (ht : tracked) : Separates simple A.semantics G where
  selection {_ _ _ v} hop hwidth := by
    rw [part_semantics]
    exact (part_eq_denote A v _ hop hwidth).symm
  scalar hwidth hv := by
    rw [part_semantics]
    exact part_of_scalar hwidth hv
  written {n _ _ s v} hop hone hwidth hv := by
    refine Eq.trans ?_ (part_of_scalar hwidth hv)
    funext k
    show (if k < n.shape.width then A.component n [v] k else none) = _
    unfold Interpretation.component part
    rw [hop, hone]
    by_cases hk : k < 1
    · rw [if_pos hk, if_pos hk, Nat.lt_one_iff.mp hk]
      rfl
    · rw [if_neg hk, if_neg hk]
  output {n _ _ c v} hop hlt := by
    rw [part_semantics, part_semantics]
    refine (part_denote_of_lt hlt).trans ?_
    unfold Interpretation.component part
    rw [hop]
    rfl
  stream hop hop' hshape hwidth hwide hle :=
    denote_stream (hsplits _) hop hop' hshape hwidth hwide hle
  constant hop hc hwidth hop' hone := by
    rw [part_semantics]
    exact part_constant hop hc hwidth hop' hone
  nested hop hinner hshape hkind hplain := by
    rw [part_semantics, part_semantics]
    exact part_nested (htolerant ht) hop hinner hshape hkind hplain
  argument {n _ values c s v} hop hget hlt hwidth hv := by
    rw [part_semantics]
    have hvalue : A.component n values c.index = v 0 := by
      unfold Interpretation.component
      rw [hop]
      dsimp only
      rw [hget]
      rfl
    have hpart : part (A.denote n values) c = v := by
      rw [part_denote_of_lt hlt, hvalue]
      exact part_of_scalar hwidth hv
    exact hpart ▸ G.refl _
  operator {n n' _ values c} h hplain _ hvalues hle := by
    rw [part_semantics, show (fun v => A.semantics.part v c) = fun v => part v c from
      funext fun v => part_semantics A v c]
    exact part_operator (htolerant ht) h hplain hvalues hle

end Scalars

end LaneGraph
