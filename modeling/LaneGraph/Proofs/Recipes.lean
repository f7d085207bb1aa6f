import LaneGraph.Proofs.Factories
import LaneGraph.Proofs.Interpretation
import LaneGraph.Proofs.World

/-!
# Recipes for nodes

A pass replaces a node by a few others that are made one after the other, each
from operands that are there already. Such a recipe is a list of lines. Which
shapes its nodes get and whether all of them are typed can be computed before it
is run; running it then adds exactly these nodes.
-/

namespace LaneGraph

/-- A node to be made from what is there already, which is referred to by its
place. -/
inductive Line where
  /-- A literal. -/
  | literal (v : Scalar)
  /-- An operator with one operand. -/
  | unary (op : UnaryOp) (x : Nat)
  /-- A change of kind. -/
  | convert (x : Nat) (target : Kind)
  /-- An operator with two operands. -/
  | binary (op : BinaryOp) (x y : Nat)
  /-- An operator with three operands. -/
  | ternary (op : TernaryOp) (x y z : Nat)
  /-- A selection of components. -/
  | swizzle (components : List Component) (x : Nat)
  /-- A vector of one scalar in all components. -/
  | spread (shape : Shape) (x : Nat)
deriving DecidableEq, Repr

namespace Line

/-- Make the node of a line. -/
def build (ids : List NodeId) : Line → Build NodeId
  | literal v => Build.scalar v
  | unary op x => Build.unary op (ids.getD x 0)
  | convert x target => Build.convert (ids.getD x 0) target
  | binary op x y => Build.binary op (ids.getD x 0) (ids.getD y 0)
  | ternary op x y z => Build.ternary op (ids.getD x 0) (ids.getD y 0) (ids.getD z 0)
  | swizzle components x => Build.swizzle components (ids.getD x 0)
  | spread shape x => Build.construct shape [ids.getD x 0]

/-- Make the nodes of lines in order. -/
def run : List NodeId → List Line → Build (List NodeId)
  | ids, [] => return ids
  | ids, l :: rest => do
    let id ← l.build ids
    run (ids ++ [id]) rest

/-- Make the nodes of lines; the last one is the result. -/
def make (ids : List NodeId) (lines : List Line) : Build NodeId := do
  return (← run ids lines).getLastD 0

/-- The places that the node of a line has as operands. -/
def references : Line → List Nat
  | literal _ => []
  | unary _ x | convert x _ | swizzle _ x => [x]
  | binary _ x y => [x, y]
  | ternary _ x y z => [x, y, z]
  | spread shape x => List.replicate shape.width x

/-- What stands at places of a list. -/
def pick {α : Type} (xs : List α) (default : α) (places : List Nat) : List α :=
  places.map fun i => xs.getD i default

/-- The frame of an operator whose operands have the shapes of one of its
types. -/
def applied? (op : Operation) (types : List OperatorType) (reduces : Bool)
    (shapes : List Shape) : Option Node :=
  let width := widest shapes
  match types.findIdx? fun t => shapes = shapesOf t.operands width with
  | none => none
  | some k =>
    match types[k]? with
    | none => none
    | some t =>
      if 1 ≤ width ∧ width ≤ 4 then
        some { op, shape := ⟨t.result, if reduces then 1 else width⟩, inputWidth := width,
               overload := some k }
      else none

/-- The frame of the node of a line, if its operands have the right shapes. -/
def node? (shapes : List Shape) (l : Line) : Option Node :=
  let operands := pick shapes Shape.unknown l.references
  if l.references.all (· < shapes.length) then
    match l, operands with
    | literal v, _ =>
      some { op := .constant (.ofScalar v), shape := ⟨v.kind, 1⟩, inputWidth := 1 }
    | unary op _, _ => applied? (.unary op 0) op.types op.reduces operands
    | binary op _ _, _ => applied? (.binary op 0 0) op.types op.reduces operands
    | ternary op _ _ _, _ => applied? (.ternary op 0 0 0) op.types false operands
    | convert _ target, [s] =>
      if target ≠ .unknown ∧ s.kind ≠ .unknown ∧ 1 ≤ s.width ∧ s.width ≤ 4 then
        some { op := .unary .convert 0, shape := ⟨target, s.width⟩, inputWidth := s.width,
               overload := some 0 }
      else none
    | swizzle components _, [s] =>
      if s.kind ≠ .unknown ∧ 1 ≤ s.width ∧ s.width ≤ 4 then
        some { op := .swizzle components 0, inputWidth := s.width
               shape := Shape.of s.kind (components.length % 256) }
      else none
    | spread shape x, _ =>
      if shape.kind ≠ .unknown ∧ 1 ≤ shape.width ∧ shape.width ≤ 4 ∧
          shapes.getD x Shape.unknown = ⟨shape.kind, 1⟩ then
        some { op := .construct (List.replicate shape.width 0), shape, inputWidth := 1,
               overload := some 0 }
      else none
    | _, _ => none
  else none

end Line

namespace Line

variable {g : Graph}

/-- What belongs to the nodes at places that are there. -/
theorem pick_map {α : Type} (f : NodeId → α) (default : α) {ids : List NodeId} {places : List Nat}
    (h : ∀ i ∈ places, i < ids.length) :
    (pick ids 0 places).map f = pick (ids.map f) default places := by
  unfold pick
  rw [List.map_map]
  refine List.map_congr_left fun i hi => ?_
  have hlt := h i hi
  simp [List.getD_eq_getElem?_getD, hlt]

/-- A line that makes a node refers to places that are there. -/
theorem references_lt {shapes : List Shape} {l : Line} {n : Node} (h : l.node? shapes = some n) :
    ∀ i ∈ l.references, i < shapes.length := by
  intro i hi
  unfold node? at h
  dsimp only at h
  split at h
  · rename_i hall
    exact of_decide_eq_true (List.all_eq_true.mp hall i hi)
  · cases h

/-- An operator whose operands have the shapes of a type is typed. -/
theorem applied?_eq_some {op : Operation} {types : List OperatorType} {reduces : Bool}
    {shapes : List Shape} {n : Node} (h : applied? op types reduces shapes = some n) :
    ∃ k t, types[k]? = some t ∧ 1 ≤ widest shapes ∧ widest shapes ≤ 4 ∧
      shapes = shapesOf t.operands (widest shapes) ∧
      n = { op, shape := ⟨t.result, if reduces then 1 else widest shapes⟩,
            inputWidth := widest shapes, overload := some k } := by
  unfold applied? at h
  dsimp only at h
  split at h
  · cases h
  · rename_i k hk
    obtain ⟨hlt, htrue, -⟩ := List.findIdx?_eq_some_iff_getElem.mp hk
    rw [List.getElem?_eq_getElem hlt] at h
    dsimp only at h
    split at h
    · rename_i hwidth
      cases h
      exact ⟨k, types[k], List.getElem?_eq_getElem hlt, hwidth.1, hwidth.2,
        of_decide_eq_true htrue, rfl⟩
    · cases h

/-- What running a line does: it adds one node, which is typed. -/
structure Adds (g : Graph) (steps : Build NodeId) (n : Node) (operands : List NodeId) (n' : Node) :
    Prop where
  run : steps.runOn g = (.ok g.nodes.size, g.push n')
  frame : n'.frame = n
  children : n'.children = operands
  typed : n'.Typed g.functions (operands.map g.shapeAt)

/-- An operator applied to operands of a type's shapes adds its node. -/
theorem adds_operator (op : Operation) {types : List OperatorType} {arity : Nat} {reduces : Bool}
    (htable : TypeTable arity types) (harity : 1 ≤ arity) {n : Node}
    (hresolved : ∀ (m : Node) (shapes : List Shape), m.op = op →
      m.resolved g.functions shapes = m.resolveOperator types shapes reduces)
    (htyped : ∀ m : Node, m.op = op → ∀ shapes, m.Operates types reduces shapes →
      m.Typed g.functions shapes)
    (h : applied? (op.mapChildren fun _ => 0) types reduces (op.children.map g.shapeAt) = some n) :
    ∃ n', Adds g (Build.plain op Shape.unknown) n op.children n' := by
  obtain ⟨k, t, ht, hpos, hle, hshapes, rfl⟩ := applied?_eq_some h
  have hrun := Build.runOn_operator op htable harity ht hpos hle hresolved hshapes
  exact ⟨_, hrun, rfl, rfl, htyped _ rfl _ ⟨k, t, rfl, ht, hpos, hle, hshapes, rfl⟩⟩

/-- Every line whose operands have the right shapes adds its node. -/
theorem adds (ids : List NodeId) {l : Line} {n : Node}
    (h : l.node? (ids.map g.shapeAt) = some n) :
    ∃ n', Adds g (l.build ids) n (pick ids 0 l.references) n' := by
  have hplaces : ∀ i ∈ l.references, i < ids.length := fun i hi => by
    rw [← List.length_map (f := g.shapeAt)]
    exact references_lt h i hi
  unfold node? at h
  dsimp only at h
  split at h
  case isFalse => cases h
  case isTrue =>
    have hpick := pick_map g.shapeAt Shape.unknown hplaces
    rw [← hpick] at h
    cases l with
    | literal v =>
      cases h
      have hshape : (Constant.ofScalar v).shape = ⟨v.kind, 1⟩ ∧
          (Constant.ofScalar v).isValid = true := by
        cases v <;> exact ⟨rfl, rfl⟩
      have hrun := Build.runOn_plain (g := g) (.constant (.ofScalar v))
        (Constant.ofScalar v).shape (fun _ hc => (nomatch hc))
      refine ⟨_, hrun, ?_, rfl, rfl, hshape.2, rfl⟩
      rw [hshape.1]
      rfl
    | unary op x =>
      by_cases hop : op = .convert
      · subst hop
        cases h
      · refine adds_operator (.unary op (ids.getD x 0)) op.typeTable (Nat.le_refl 1) ?_ ?_ h
        · exact fun m shapes hm => Node.resolved_unary hm hop
        · exact fun m hm shapes => (Node.typed_unary hm hop).mpr
    | binary op x y =>
      refine adds_operator (.binary op (ids.getD x 0) (ids.getD y 0)) op.typeTable (by decide)
        (fun m shapes hm => Node.resolved_binary hm)
        (fun m hm shapes => (Node.typed_binary hm).mpr) h
    | ternary op x y z =>
      refine adds_operator (.ternary op (ids.getD x 0) (ids.getD y 0) (ids.getD z 0)) op.typeTable
        (by decide) (fun m shapes hm => Node.resolved_ternary hm)
        (fun m hm shapes => (Node.typed_ternary hm).mpr) h
    | convert x target =>
      have hoperands : pick ids 0 (references (.convert x target)) = [ids.getD x 0] := rfl
      rw [hoperands, List.map_cons, List.map_nil] at h
      dsimp only at h
      split at h
      · rename_i hs
        cases h
        obtain ⟨htarget, hkind, hpos, hle⟩ := hs
        exact ⟨_, Build.runOn_convert htarget ⟨hkind, hpos, hle⟩, rfl, rfl,
          g.shapeAt (ids.getD x 0), rfl, ⟨hkind, hpos, hle⟩, htarget, rfl, rfl⟩
      · cases h
    | swizzle components x =>
      have hoperands : pick ids 0 (references (.swizzle components x)) = [ids.getD x 0] := rfl
      rw [hoperands, List.map_cons, List.map_nil] at h
      dsimp only at h
      split at h
      · rename_i hs
        cases h
        obtain ⟨hkind, hpos, hle⟩ := hs
        have hknown : g.Known [ids.getD x 0] := by
          apply Graph.known_of_shapeAt
          intro c hc
          rw [List.mem_singleton] at hc
          rw [hc]
          exact decide_eq_false hkind
        have hrun := Build.runOn_plain (.swizzle components (ids.getD x 0)) Shape.unknown hknown
        exact ⟨_, hrun, rfl, rfl, g.shapeAt (ids.getD x 0), rfl, ⟨hkind, hpos, hle⟩, rfl⟩
      · cases h
    | spread shape x =>
      dsimp only at h
      split at h
      · rename_i hs
        cases h
        obtain ⟨hkind, hpos, hle, hx⟩ := hs
        have hplace : x < ids.length := hplaces x (List.mem_replicate.mpr ⟨by omega, rfl⟩)
        have hscalar : g.shapeAt (ids.getD x 0) = ⟨shape.kind, 1⟩ := by
          rw [← hx]
          simp [List.getD_eq_getElem?_getD, hplace]
        have hknown : g.Known [ids.getD x 0] := by
          apply Graph.known_of_shapeAt
          intro c hc
          rw [List.mem_singleton] at hc
          rw [hc, hscalar]
          exact decide_eq_false hkind
        have hrun := Build.runOn_construct_scalar ⟨hkind, hpos, hle⟩ hknown hscalar
        have hchildren : pick ids 0 (references (.spread shape x)) =
            List.replicate shape.width (ids.getD x 0) := by
          unfold pick references
          exact List.map_replicate
        refine ⟨_, hrun, ?_, hchildren.symm, ⟨hkind, hpos, hle⟩, rfl, ?_⟩
        · simp [Node.frame, Operation.mapChildren]
        · rw [hchildren, List.map_replicate, hscalar]
      · cases h

end Line

namespace Node

/-- The node is of kind integer or boolean, it is neither a power nor a call, and
it selects at most four components. -/
def plain (n : Node) : Bool :=
  (n.shape.kind = .int || n.shape.kind = .bool) &&
    match n.op with
    | .binary .pow _ _ | .call _ _ => false
    | .swizzle components _ => components.length ≤ 4
    | _ => true

/-- Whether a node is plain is seen in its frame. -/
@[simp] theorem plain_frame (n : Node) : n.frame.plain = n.plain := by
  unfold plain frame
  cases n.op with
  | binary op x y => cases op <;> rfl
  | _ => rfl

/-- A plain node is not a number. -/
theorem kind_of_plain {n : Node} (h : n.plain = true) : n.shape.kind ≠ .float := by
  intro hfloat
  unfold plain at h
  rw [hfloat] at h
  simp at h

/-- A node of the kind of a plain node is plain, unless its operation is not. -/
theorem plain_of_kind {m n : Node} (h : m.plain = true) (hkind : n.shape.kind = m.shape.kind)
    (hop : (match n.op with
      | .binary .pow _ _ | .call _ _ => false
      | .swizzle components _ => decide (components.length ≤ 4)
      | _ => true) = true) : n.plain = true := by
  unfold plain at h ⊢
  rw [Bool.and_eq_true] at h ⊢
  rw [hkind]
  exact ⟨h.1, hop⟩

/-- An operator of the kind of a plain node is plain, unless it is a power. -/
theorem plain_binary {m n : Node} {op : BinaryOp} {a b : NodeId} (h : m.plain = true)
    (hkind : n.shape.kind = m.shape.kind) (hop : n.op = .binary op a b) (hpow : op ≠ .pow) :
    n.plain = true := by
  refine plain_of_kind h hkind ?_
  rw [hop]
  cases op <;> first | rfl | exact absurd rfl hpow

/-- A plain node is no power. -/
theorem op_of_plain {n : Node} (h : n.plain = true) {op : BinaryOp} {x y : NodeId}
    (hop : n.op = .binary op x y) : op ≠ .pow := by
  rintro rfl
  unfold plain at h
  rw [hop] at h
  simp at h

/-- A plain node selects at most four components. -/
theorem length_of_plain {n : Node} (h : n.plain = true) {components : List Component} {x : NodeId}
    (hop : n.op = .swizzle components x) : components.length ≤ 4 := by
  unfold plain at h
  rw [hop, Bool.and_eq_true] at h
  exact of_decide_eq_true h.2

end Node

/-- The rules of typed graphs. Nodes have a form, which differs from pass to
pass; where that is wanted, all of them are plain. Calls may be exempt from being
typed. -/
structure TypedRules where
  /-- Values are followed. -/
  tracked : Prop
  /-- Every node is plain. -/
  simple : Prop
  /-- What nodes compute. -/
  semantics : Semantics
  /-- The form of nodes, given the shapes of their operands. -/
  form : Node → List Shape → Bool
  /-- By how much an operation has to rank above its operands. -/
  need : Operation → Nat
  /-- In what sense values are kept. -/
  agreement : Agreement := .equal
  /-- Calls are exact. -/
  exact : Prop := True

/-- Typed graphs as rules for worlds. -/
def TypedRules.rules (t : TypedRules) : Rules where
  tracked := t.tracked
  fits functions n shapes :=
    n.Fits t.exact functions shapes ∧ t.form n shapes = true ∧ (t.simple → n.plain = true)
  meaning _ n _ values := t.semantics.denote n values
  need := t.need
  agreement := t.agreement
  mono _ n _ _ _ h := t.agreement.mono t.semantics n h

/-- The shape of a node that follows the rules is sized. -/
theorem NodeSound.sized {t : TypedRules} {g : Graph} {w : World} {n : Node} {rank : Nat}
    {value : Value} (h : NodeSound t.rules g w n rank value) : n.shape.Sized :=
  (Node.fits_frame.mp h.fits.1).sized

/-- Where calls are exact, a node that follows the rules is typed. -/
theorem NodeSound.typed {t : TypedRules} {g : Graph} {w : World} {n : Node} {rank : Nat}
    {value : Value} (h : NodeSound t.rules g w n rank value) (hexact : t.exact) :
    n.Typed g.functions (n.children.map g.shapeAt) :=
  (Node.fits_frame.mp h.fits.1).typed hexact

/-- The value of a node is kept by what it computes. -/
theorem NodeSound.denotes {t : TypedRules} {g : Graph} {w : World} {n : Node} {rank : Nat}
    {value : Value} (h : NodeSound t.rules g w n rank value) (ht : t.tracked) :
    t.agreement.le value (t.semantics.denote n (n.children.map w.value)) := by
  rw [← t.semantics.frame]
  exact h.value ht

/-- What a node computes is its value. -/
theorem TypedRules.meaning_frame (t : TypedRules) (functions : List Signature) (n : Node)
    (shapes : List Shape) (values : List Value) :
    t.rules.meaning functions n.frame shapes values = t.semantics.denote n values :=
  t.semantics.frame n values

/-- The rules are about what nodes compute on the literals of the program. -/
structure TypedRules.Literal (t : TypedRules) (read : String → UInt32) : Prop where
  semantics : t.semantics = .literal read
  agreement : t.agreement = .equal

/-- On the literals of the program the value of a node is what it computes. -/
theorem NodeSound.literal {t : TypedRules} {read : String → UInt32} {g : Graph} {w : World}
    {n : Node} {rank : Nat} {value : Value} (h : NodeSound t.rules g w n rank value)
    (hliteral : t.Literal read) (ht : t.tracked) :
    value = n.meaning read (n.children.map w.value) := by
  have hvalue := h.denotes ht
  rw [hliteral.semantics, hliteral.agreement] at hvalue
  exact hvalue

/-- What is known of a node in a recipe: its shape, its value and by how much it
may rank above the operands of the recipe. -/
structure Entry where
  /-- Its shape. -/
  shape : Shape
  /-- Its value. -/
  value : Value
  /-- A bound of its rank, counted from that of the operands. -/
  level : Nat := 0

namespace Line

/-- The frames of the nodes that lines make. -/
def frames : List Shape → List Line → Option (List Node)
  | _, [] => some []
  | shapes, l :: rest =>
    match l.node? shapes with
    | some n => (frames (shapes ++ [n.shape]) rest).map (n :: ·)
    | none => none

/-- The nodes of lines are in form. -/
def formed (form : Node → List Shape → Bool) : List Shape → List Line → List Node → Bool
  | shapes, l :: rest, n :: ns =>
    form n (pick shapes Shape.unknown l.references) &&
      formed form (shapes ++ [n.shape]) rest ns
  | _, _, _ => true

/-- What is known of the node that a line makes, its frame being known. -/
def entry (t : TypedRules) (es : List Entry) (l : Line) (n : Node) : Entry where
  shape := n.shape
  value := t.semantics.denote n (pick (es.map (·.value)) Value.absent l.references)
  level := ((pick (es.map (·.level)) 0 l.references).map (· + t.need n.op)).foldl max 0

/-- What is known of all nodes after lines. -/
def entries (t : TypedRules) : List Entry → List Line → List Node → List Entry
  | es, l :: rest, n :: ns => entries t (es ++ [l.entry t es n]) rest ns
  | es, _, _ => es

/-- By how much nodes rank above operands after lines. -/
def levels (need : Operation → Nat) : List Nat → List Line → List Node → List Nat
  | ls, l :: rest, n :: ns =>
    levels need (ls ++ [((pick ls 0 l.references).map (· + need n.op)).foldl max 0]) rest ns
  | ls, _, _ => ls

/-- What is known of the result of lines. -/
def result (t : TypedRules) (es : List Entry) (lines : List Line) (ns : List Node) : Entry :=
  (entries t es lines ns).getLastD { shape := Shape.unknown, value := Value.absent }

end Line

/-- Nodes about which entries are known, levels being counted from a base. -/
abbrev HasAll (R : Rules) (g : Graph) (w : World) (base : Nat) (ids : List NodeId)
    (es : List Entry) : Prop :=
  List.Forall₂ (fun id e => Has R g w id e.shape e.value (base + e.level)) ids es

namespace HasAll

variable {R : Rules} {g g' : Graph} {w w' : World} {base : Nat} {ids : List NodeId}
  {es : List Entry}

/-- What is known stays known. -/
theorem later (h : HasAll R g w base ids es) (hs : Sound R g w) (hl : Later g w g' w') :
    HasAll R g' w' base ids es := h.imp fun _ _ hid => hid.later hs hl

/-- The shapes of known nodes. -/
theorem shapes (h : HasAll R g w base ids es) : ids.map g.shapeAt = es.map (·.shape) :=
  (map_eq_map_of_forall₂ (f := g.shapeAt) (h := fun e : Entry => e.shape)
    (h.imp fun _ _ hid => hid.shape.symm)).symm

/-- What is known of a node by its place. -/
theorem get (h : HasAll R g w base ids es) {i : Nat} (hi : i < ids.length) :
    ∃ e, es[i]? = some e ∧ Has R g w (ids.getD i 0) e.shape e.value (base + e.level) := by
  have hi' : i < es.length := by rw [← h.length_eq]; exact hi
  have hget := List.Forall₂.get h hi hi'
  refine ⟨es[i], List.getElem?_eq_getElem hi', ?_⟩
  rw [List.getD_eq_getElem?_getD, List.getElem?_eq_getElem hi]
  exact hget

end HasAll

namespace Line

variable {t : TypedRules} {g : Graph} {w : World} {base : Nat} {ids : List NodeId}
  {es : List Entry} {refused : GraphError → Prop}

/-- A line whose frame is in form makes a node that follows the rules. -/
theorem nodeSound (hids : HasAll t.rules g w base ids es) {l : Line} {n n' : Node}
    (hn : l.node? (es.map (·.shape)) = some n)
    (hform : t.form n (pick (es.map (·.shape)) Shape.unknown l.references) = true)
    (hplain : t.simple → n.plain = true)
    (hadds : Adds g (l.build ids) n (pick ids 0 l.references) n') :
    NodeSound t.rules g w n' (base + (l.entry t es n).level) (l.entry t es n).value := by
  have hplaces : ∀ i ∈ l.references, i < ids.length := fun i hi => by
    rw [hids.length_eq, ← List.length_map (f := fun e : Entry => e.shape)]
    exact references_lt hn i hi
  have hknown : ∀ c ∈ n'.children, ∃ i ∈ l.references, c = ids.getD i 0 := by
    intro c hc
    rw [hadds.children] at hc
    unfold pick at hc
    obtain ⟨i, hi, heq⟩ := List.mem_map.mp hc
    exact ⟨i, hi, heq.symm⟩
  refine ⟨?_, ?_, ?_, ?_⟩
  · rw [hadds.children, hadds.frame]
    refine ⟨?_, ?_, hplain⟩
    · rw [← hadds.frame]
      exact Node.fits_frame.mpr hadds.typed.fits
    · rw [pick_map g.shapeAt Shape.unknown hplaces, hids.shapes]
      exact hform
  · intro c hc
    obtain ⟨i, hi, rfl⟩ := hknown c hc
    obtain ⟨e, -, hhas⟩ := hids.get (hplaces i hi)
    exact hhas.live
  · intro c hc
    obtain ⟨i, hi, rfl⟩ := hknown c hc
    obtain ⟨e, he, hhas⟩ := hids.get (hplaces i hi)
    have hmem : e.level ∈ pick (es.map (·.level)) 0 l.references := by
      unfold pick
      refine List.mem_map.mpr ⟨i, hi, ?_⟩
      rw [List.getD_eq_getElem?_getD, List.getElem?_map, he]
      rfl
    have hmax := le_foldl_max (List.mem_map_of_mem (f := (· + t.need n.op)) hmem) 0
    have hrank := hhas.rank
    rw [hadds.frame]
    calc w.rank (ids.getD i 0) + t.rules.need n.op
        ≤ base + e.level + t.need n.op := Nat.add_le_add_right hrank _
      _ ≤ _ := by
        rw [Nat.add_assoc]
        exact Nat.add_le_add_left hmax base
  · intro ht
    rw [hadds.children, hadds.frame]
    refine t.agreement.mono t.semantics n ?_
    unfold pick
    rw [List.map_map, List.forall₂_map_left_iff, List.forall₂_map_right_iff, List.forall₂_same]
    intro i hi
    obtain ⟨e, he, hhas⟩ := hids.get (hplaces i hi)
    rw [List.getD_eq_getElem?_getD, List.getElem?_map, he]
    exact hhas.value ht

/-- The frames of lines are those that are computed from the lines. -/
theorem getD_frames {shapes : List Shape} {lines : List Line} {ns : List Node}
    (h : frames shapes lines = some ns) : (frames shapes lines).getD [] = ns := by
  rw [h, Option.getD_some]

/-- Frames are found line by line. -/
theorem frames_cons {shapes : List Shape} {l : Line} {rest : List Line} {ns : List Node}
    (h : frames shapes (l :: rest) = some ns) :
    ∃ n ns', l.node? shapes = some n ∧ frames (shapes ++ [n.shape]) rest = some ns' ∧
      ns = n :: ns' := by
  rw [frames] at h
  cases hn : l.node? shapes with
  | none =>
    rw [hn] at h
    cases h
  | some n =>
    rw [hn] at h
    obtain ⟨ns', hns', rfl⟩ := Option.map_eq_some_iff.mp h
    exact ⟨n, ns', rfl, hns', rfl⟩

-- Each line is shaped from the lines before it.
example : (frames [⟨.float, 2⟩] [.binary .multiply 0 0, .unary .sqrt 1, .swizzle [.x] 2,
      .literal (.float 0), .binary .add 3 4, .spread ⟨.float, 2⟩ 5]).map (·.map Node.shape) =
    some [⟨.float, 2⟩, ⟨.float, 2⟩, ⟨.float, 1⟩, ⟨.float, 1⟩, ⟨.float, 1⟩, ⟨.float, 2⟩] := by
  cbv

/-- Running lines adds the nodes of their frames and nothing else. -/
theorem make_adds {lines : List Line} {ns : List Node}
    (hids : ∀ c ∈ ids, ∃ m, g.node? c = some m) (hns : frames (ids.map g.shapeAt) lines = some ns) :
    Build.Ends (make ids lines) g (fun _ g' => ∀ id m, g'.node? id = some m →
      g.node? id = some m ∨ m.frame ∈ ns) refused := by
  have hrun : Build.Ends (run ids lines) g (fun _ g' => ∀ id m, g'.node? id = some m →
      g.node? id = some m ∨ m.frame ∈ ns) refused := by
    induction lines generalizing g ids ns with
    | nil => exact fun _ _ hm => .inl hm
    | cons l rest ih =>
      obtain ⟨n, ns, hn, hrest, rfl⟩ := frames_cons hns
      obtain ⟨n', hadds⟩ := adds ids hn
      have hshapes : (ids ++ [g.nodes.size]).map (g.push n').shapeAt =
          ids.map g.shapeAt ++ [n.shape] := by
        rw [List.map_append, List.map_singleton, Graph.shapeAt_eq (Graph.node?_push_size g n'),
          ← hadds.frame, Node.shape_frame]
        refine congrArg (· ++ _) (List.map_congr_left fun c hc => ?_)
        obtain ⟨m, hm⟩ := hids c hc
        rw [Graph.shapeAt_eq hm, Graph.shapeAt_eq (Graph.node?_push_of_some hm)]
      rw [run, Build.ends_bind, Build.ends_of_runOn hadds.run]
      refine (ih (fun c hc => ?_) (by rw [hshapes]; exact hrest)).mono ?_
      · rcases List.mem_append.mp hc with hc | hc
        · obtain ⟨m, hm⟩ := hids c hc
          exact ⟨m, Graph.node?_push_of_some hm⟩
        · rw [List.mem_singleton.mp hc]
          exact ⟨n', Graph.node?_push_size g n'⟩
      · intro _ g' hadded id m hm
        rcases hadded id m hm with hold | hnew
        · rcases Graph.node?_push_cases hold with hm | rfl
          · exact .inl hm
          · exact .inr (hadds.frame ▸ List.mem_cons_self)
        · exact .inr (List.mem_cons_of_mem _ hnew)
  unfold make
  rw [Build.ends_bind]
  exact hrun

/-- Running lines whose frames are in form adds their nodes, and all is known about
them. -/
theorem run_ends {lines : List Line} {ns : List Node} (hs : Sound t.rules g w)
    (hids : HasAll t.rules g w base ids es) (hns : frames (es.map (·.shape)) lines = some ns)
    (hform : formed t.form (es.map (·.shape)) lines ns = true)
    (hplain : t.simple → ∀ n ∈ ns, n.plain = true) :
    Build.Ends (run ids lines) g (fun ids' g' => ∃ w', Sound t.rules g' w' ∧
      Extends g w g' w' ∧ HasAll t.rules g' w' base ids' (entries t es lines ns)) refused := by
  induction lines generalizing g w ids es ns with
  | nil => exact ⟨w, hs, Extends.refl g w, hids⟩
  | cons l rest ih =>
    obtain ⟨n, ns, hn, hrest, rfl⟩ := frames_cons hns
    obtain ⟨n', hadds⟩ := adds ids (by rw [hids.shapes]; exact hn)
    rw [formed, Bool.and_eq_true] at hform
    have hsound := nodeSound hids hn hform.1
      (fun h => hplain h n List.mem_cons_self) hadds
    have hs' := hs.push n' _ _ hsound
    have hext := Extends.push hs n' (base + (l.entry t es n).level) (l.entry t es n).value
    have hnew : Has t.rules (g.push n')
        (w.add g.nodes.size (base + (l.entry t es n).level) (l.entry t es n).value) g.nodes.size
        (l.entry t es n).shape (l.entry t es n).value (base + (l.entry t es n).level) := by
      have hshape : (l.entry t es n).shape = n'.shape := by
        rw [entry, ← hadds.frame]
        rfl
      rw [hshape]
      exact World.has_add _ w (Graph.node?_push_size g n') _ _
    have hall := List.rel_append (hids.later hs hext.toLater) (.cons hnew .nil)
    rw [run, Build.ends_bind, Build.ends_of_runOn hadds.run]
    have hmap : (es ++ [l.entry t es n]).map (·.shape) = es.map (·.shape) ++ [n.shape] :=
      List.map_append
    refine (ih hs' hall (by rw [hmap]; exact hrest) (by rw [hmap]; exact hform.2)
      (fun h m hm => hplain h m (List.mem_cons_of_mem _ hm))).mono ?_
    rintro ids' g' ⟨w', hs'', hext', hids'⟩
    exact ⟨w', hs'', hext.trans hext', hids'⟩

/-- The result of lines is the node of the last one. -/
theorem exists_result {lines : List Line} {ns : List Node} {shapes : List Shape}
    (hns : frames shapes lines = some ns) (hne : lines ≠ []) (t : TypedRules) (es : List Entry) :
    ∃ init n values, entries t es lines ns = init ++ [result t es lines ns] ∧
      ns.getLast? = some n ∧ (result t es lines ns).shape = n.shape ∧
      (result t es lines ns).value = t.semantics.denote n values := by
  induction lines generalizing shapes es ns with
  | nil => exact absurd rfl hne
  | cons l rest ih =>
    obtain ⟨n, ns, hn, hrest, rfl⟩ := frames_cons hns
    cases rest with
    | nil =>
      cases hrest
      have hentries : entries t es [l] [n] = es ++ [l.entry t es n] := rfl
      have hresult : result t es [l] [n] = l.entry t es n := by
        rw [result, hentries, List.getLastD_concat]
      rw [hresult]
      exact ⟨es, n, _, hentries, rfl, rfl, rfl⟩
    | cons l' rest' =>
      obtain ⟨init, last, values, hentries, hlast, hrest'⟩ :=
        ih hrest (List.cons_ne_nil _ _) (es ++ [l.entry t es n])
      obtain ⟨n', ns', -, -, rfl⟩ := frames_cons hrest
      exact ⟨init, last, values, hentries, hlast, hrest'⟩

/-- Levels depend on nothing but lines and frames. -/
theorem map_level_entries (t : TypedRules) (es : List Entry) (lines : List Line)
    (ns : List Node) :
    (entries t es lines ns).map (·.level) = levels t.need (es.map (·.level)) lines ns := by
  induction lines generalizing es ns with
  | nil => rfl
  | cons l rest ih =>
    cases ns with
    | nil => rfl
    | cons n ns =>
      rw [entries, levels, ih, List.map_append]
      rfl

/-- All is known about the result of lines. -/
theorem make_ends {lines : List Line} {ns : List Node} (hs : Sound t.rules g w)
    (hids : HasAll t.rules g w base ids es) (hne : lines ≠ [])
    (hns : frames (es.map (·.shape)) lines = some ns)
    (hform : formed t.form (es.map (·.shape)) lines ns = true)
    (hplain : t.simple → ∀ n ∈ ns, n.plain = true) :
    Build.Ends (make ids lines) g (fun new g' => ∃ w', Sound t.rules g' w' ∧ Extends g w g' w' ∧
      Has t.rules g' w' new (result t es lines ns).shape (result t es lines ns).value
        (base + (result t es lines ns).level)) refused := by
  unfold make
  rw [Build.ends_bind]
  refine (run_ends hs hids hns hform hplain).mono ?_
  rintro ids' g' ⟨w', hs', hext, hall⟩
  refine ⟨w', hs', hext, ?_⟩
  obtain ⟨init, n, values, hentries, -, -⟩ := exists_result hns hne t es
  rw [hentries] at hall
  have hreverse := List.rel_reverse hall
  rw [List.reverse_append, List.reverse_singleton, List.singleton_append] at hreverse
  obtain ⟨id, rest, hid, -, hrest⟩ := List.forall₂_cons_right_iff.mp hreverse
  have hids' : ids' = rest.reverse ++ [id] := by
    rw [← List.reverse_reverse ids', hrest, List.reverse_cons]
  rw [hids', List.getLastD_concat]
  exact hid

section

variable {shapes : List Shape} {lines : List Line} {ns : List Node} {l : Line} {n : Node}

/-- The values of all nodes after lines. -/
def values (t : TypedRules) (es : List Entry) (lines : List Line) (ns : List Node) : List Value :=
  (entries t es lines ns).map (·.value)

/-- The value of the result is the last one. -/
theorem value_result (t : TypedRules) (es : List Entry) (lines : List Line) (ns : List Node) :
    (result t es lines ns).value = (values t es lines ns).getLastD Value.absent := by
  unfold result values
  rw [List.getLastD_eq_getLast?, List.getLastD_eq_getLast?, List.getLast?_map]
  cases (entries t es lines ns).getLast? <;> rfl

-- The operands come first, and each line sees those before it.
example (A : Interpretation) (t : TypedRules) (x y : Value) :
    (frames [⟨.float, 1⟩, ⟨.float, 1⟩] [.binary .subtract 0 1, .unary .sqrt 2]).map (fun ns =>
      (result { t with semantics := A.semantics } [⟨⟨.float, 1⟩, x, 0⟩, ⟨⟨.float, 1⟩, y, 0⟩]
        [.binary .subtract 0 1, .unary .sqrt 2] ns).value 0) =
      some (A.unary .sqrt .float (A.binary .subtract (x 0) (y 0))) := by
  cbv

/-- The last line has its own frame. -/
theorem frames_concat (h : frames shapes (lines ++ [l]) = some ns) :
    ∃ ms n, frames shapes lines = some ms ∧ l.node? (shapes ++ ms.map (·.shape)) = some n ∧
      ns = ms ++ [n] := by
  induction lines generalizing shapes ns with
  | nil =>
    obtain ⟨n, rest, hn, hrest, rfl⟩ := frames_cons h
    cases hrest
    exact ⟨[], n, rfl, by rw [List.map_nil, List.append_nil]; exact hn, rfl⟩
  | cons first lines ih =>
    obtain ⟨m, rest, hm, hrest, rfl⟩ := frames_cons h
    obtain ⟨ms, n, hms, hn, rfl⟩ := ih hrest
    rw [List.append_assoc] at hn
    refine ⟨m :: ms, n, ?_, hn, rfl⟩
    rw [frames, hm]
    dsimp only
    rw [hms]
    rfl

/-- The last line makes a value from those before. -/
theorem values_concat (h : frames shapes lines = some ns) (t : TypedRules) (es : List Entry)
    (l : Line) (n : Node) :
    values t es (lines ++ [l]) (ns ++ [n]) = values t es lines ns ++
      [t.semantics.denote n (pick (values t es lines ns) Value.absent l.references)] := by
  induction lines generalizing shapes es ns with
  | nil =>
    cases h
    unfold values
    exact List.map_append
  | cons first lines ih =>
    obtain ⟨m, rest, -, hrest, rfl⟩ := frames_cons h
    exact ih hrest _

/-- Every line makes one value. -/
theorem length_values (h : frames shapes lines = some ns) (t : TypedRules) (es : List Entry) :
    (values t es lines ns).length = es.length + lines.length := by
  induction lines generalizing shapes es ns with
  | nil =>
    cases h
    exact List.length_map _
  | cons first lines ih =>
    obtain ⟨m, rest, -, hrest, rfl⟩ := frames_cons h
    refine (ih hrest _).trans ?_
    rw [List.length_append, List.length_singleton, List.length_cons]
    omega

/-- The values of operands come first. -/
theorem getD_values (h : frames shapes lines = some ns) (t : TypedRules) (es : List Entry) {i : Nat}
    {e : Entry} (he : es[i]? = some e) : (values t es lines ns).getD i Value.absent = e.value := by
  induction lines generalizing shapes es ns with
  | nil =>
    cases h
    unfold values
    rw [List.getD_eq_getElem?_getD, entries, List.getElem?_map, he]
    · rfl
    · intro _ _ _ _ hl
      cases hl
  | cons first lines ih =>
    obtain ⟨m, rest, -, hrest, rfl⟩ := frames_cons h
    refine ih hrest _ ?_
    rw [List.getElem?_append_left (List.getElem?_eq_some_iff.mp he).1]
    exact he

/-- The node of an operator with two operands, which does not reduce vectors. -/
theorem node?_binary {op : BinaryOp} (hreduces : op.reduces = false) {x y : Nat}
    (h : node? shapes (.binary op x y) = some n) :
    n.op = .binary op 0 0 ∧ n.shape.width = (shapes.getD x Shape.unknown).width ∧
      1 ≤ n.shape.width := by
  unfold node? at h
  dsimp only at h
  split at h
  case isFalse => cases h
  obtain ⟨k, type, -, hpos, -, hshapes, rfl⟩ := applied?_eq_some h
  rw [hreduces]
  unfold pick references shapesOf at hshapes
  obtain ⟨kind, hkind⟩ : ∃ kind, shapes.getD x Shape.unknown =
      ⟨kind, widest (pick shapes Shape.unknown [x, y])⟩ := by
    have hmem : shapes.getD x Shape.unknown ∈ [x, y].map fun i => shapes.getD i Shape.unknown :=
      List.mem_cons_self
    rw [hshapes] at hmem
    obtain ⟨kind, -, hkind⟩ := List.mem_map.mp hmem
    exact ⟨kind, hkind.symm⟩
  rw [hkind]
  exact ⟨rfl, rfl, hpos⟩

/-- The node of a spread scalar. -/
theorem node?_spread {shape : Shape} {x : Nat} (h : node? shapes (.spread shape x) = some n) :
    n.op = .construct (List.replicate shape.width 0) ∧ n.shape = shape := by
  unfold node? at h
  dsimp only at h
  split at h
  case isFalse => cases h
  split at h
  case isFalse => cases h
  cases h
  exact ⟨rfl, rfl⟩

/-- The node of a literal. -/
theorem node?_literal {v : Scalar} (h : node? shapes (.literal v) = some n) :
    n.op = .constant (.ofScalar v) ∧ n.shape = ⟨v.kind, 1⟩ := by
  unfold node? at h
  dsimp only at h
  split at h
  case isFalse => cases h
  cases h
  exact ⟨rfl, rfl⟩

end

end Line

end LaneGraph
