import LaneGraph.Proofs.Denotation
import LaneGraph.Proofs.Sharing

/-!
# Equal nodes are shared once and for all

Sharing leaves no two nodes that are the same, and the outputs keep their streams
and their values. This is so for vectors and scalars alike and under every
interpretation in which commutative operators commute: nothing else about operators
is used, and nothing at all about fingerprints.
-/

namespace LaneGraph

open Build

namespace Interpretation

/-- Operators that are known to be commutative are. -/
def Commutes (A : Interpretation) : Prop :=
  ∀ op : BinaryOp, op.isCommutative = true → ∀ x y, A.binary op x y = A.binary op y x

variable {A : Interpretation} {functions : List Signature} {m n : Node} {shapes : List Shape}

/-- The width that an operator works on is that of its operands. -/
theorem inputWidth_eq {types : List OperatorType} {reduces : Bool}
    (h : n.Operates types reduces shapes) (hne : shapes ≠ []) : n.inputWidth = widest shapes := by
  obtain ⟨k, t, -, -, -, -, rfl, -⟩ := h
  refine (widest_shapesOf ?_ _).symm
  rintro hnil
  rw [hnil] at hne
  exact hne rfl

/-- Typed nodes that do the same to the same operands have the same value. -/
theorem denote_congr (hop : m.op = n.op) (hshape : m.shape = n.shape)
    (hoverload : ∀ candidates arguments, m.op = .call candidates arguments →
      m.overload = n.overload)
    (hm : m.Typed functions shapes) (hn : n.Typed functions shapes)
    (hlength : shapes.length = n.children.length) : A.denote m = A.denote n := by
  have hne : n.children ≠ [] → shapes ≠ [] := by
    intro hchildren hnil
    rw [hnil] at hlength
    exact hchildren (List.eq_nil_of_length_eq_zero hlength.symm)
  unfold Node.children at hne
  funext values k
  unfold denote component
  rw [hop, hshape]
  cases hcase : n.op with
  | unary op x =>
    by_cases hconvert : op = .convert
    · subst hconvert
      rfl
    · rw [Node.typed_unary hcase hconvert] at hn
      rw [Node.typed_unary (hop.trans hcase) hconvert] at hm
      rw [hcase] at hne
      rw [inputWidth_eq hm (hne (List.cons_ne_nil _ _)),
        inputWidth_eq hn (hne (List.cons_ne_nil _ _))]
  | binary op x y =>
    rw [Node.typed_binary hcase] at hn
    rw [Node.typed_binary (hop.trans hcase)] at hm
    rw [hcase] at hne
    rw [inputWidth_eq hm (hne (List.cons_ne_nil _ _)),
      inputWidth_eq hn (hne (List.cons_ne_nil _ _))]
  | call candidates arguments =>
    rw [hoverload candidates arguments (hop.trans hcase)]
  | _ => rfl

/-- Operands of a commutative operator may change places. -/
theorem denote_swap (hA : A.Commutes) {op : BinaryOp} (hcommutes : op.isCommutative = true)
    {l r : NodeId} (hm : m.op = .binary op l r) (hn : n.op = .binary op r l)
    (hshape : m.shape = n.shape) (x y : Value) : A.denote m [x, y] = A.denote n [y, x] := by
  have hbinary : ∀ (kind : Kind) (width : Nat) (x y : Value) (k : Nat),
      A.binaryComponent op kind width x y k = A.binary op (x k) (y k) := by
    intro kind width x y k
    cases op <;> first | rfl | cases hcommutes
  funext k
  unfold denote component
  rw [hm, hn, hshape]
  dsimp only
  rw [hbinary, hbinary]
  split
  · exact hA op hcommutes _ _
  · rfl

end Interpretation

namespace Sharing

variable {g : Graph} {A : Interpretation}

/-- Deduced graphs whose values are followed if commutative operators commute. -/
def commuting (A : Interpretation) : TypedRules :=
  { tracked := A.Commutes, simple := False, semantics := A.semantics, form := fun _ _ => true
    need := fun _ => 1 }

/-- Typed nodes that are the same have the same value. -/
theorem congruent_commuting (A : Interpretation) : Congruent (commuting A).rules := by
  intro g w x m n hs hcommutes hx hm hlive hfits hsame
  have hsound := hs.nodeSound hx hm
  have hmtyped := hsound.typed trivial
  have hntyped := (Node.fits_frame.mp hfits.1).typed trivial
  obtain ⟨hshape, hmatching⟩ := Graph.sameNode_iff.mp hsame
  have hdenote : A.denote m (m.children.map w.value) = A.denote n (n.children.map w.value) := by
    rcases hmatching with ⟨hop, hoverload⟩ | ⟨op, l, r, hcommutative, hmop, hnop⟩
    · have hchildren : m.children = n.children := congrArg Operation.children hop
      rw [hchildren] at hmtyped ⊢
      rw [Interpretation.denote_congr hop hshape hoverload hmtyped hntyped (List.length_map _)]
    · have hmchildren : m.children = [l, r] := congrArg Operation.children hmop
      have hnchildren : n.children = [r, l] := congrArg Operation.children hnop
      rw [hmchildren, hnchildren]
      exact Interpretation.denote_swap hcommutes hcommutative hmop hnop hshape _ _
  exact ((commuting A).meaning_frame _ n _ _).trans
    (hdenote.symm.trans (hsound.denotes hcommutes).symm)

/-- Forget all representatives, and share equal nodes. -/
def clean : Build Unit := do
  Build.forgetRepresentatives
  pass.run

/-- Sharing succeeds on a deduced graph with outputs. Nodes that the outputs depend
on are different then, and the outputs are as before. -/
theorem clean_ends (hg : g.Deduced) (hacyclic : g.Acyclic) (hne : g.outputs ≠ [])
    (A : Interpretation) :
    Ends clean g (fun _ g' =>
      (∀ a b, g'.Needs a → g'.Needs b → a ≠ b → g'.same a b = .ok false) ∧
      List.Forall₂ (fun id id' => (∃ channel, g.channelAt id = some channel ∧
        g'.channelAt id' = some channel) ∧ (A.Commutes →
          g.evaluate A.semantics id = g'.evaluate A.semantics id')) g.outputs g'.outputs)
      fun _ => False := by
  have hstage : Stage (commuting A).rules g (g.delivered A.semantics) :=
    hg.stage (t := commuting A) hacyclic id (fun _ => Nat.le_refl 1) fun _ _ _ _ => rfl
  unfold clean Build.forgetRepresentatives
  rw [ends_bind, ends_modify]
  refine (pass_keeps (congruent_commuting A) (fun _ => Nat.le_refl 1) rfl hstage.forget
    (hg.delivered_ne_nil hne _)).mono ?_
  rintro _ g' ⟨w', hs, hwrites, hdistinct⟩
  have hlive : ∀ {id}, g'.Needs id → w'.live id := fun h =>
    hs.live_of_needs (fun _ => hwrites.live) h
  have hstage' : Stage (commuting A).rules g' (g.delivered A.semantics) := ⟨w', hs, hwrites⟩
  exact ⟨fun a b ha hb => hdistinct a b (hlive ha) (hlive hb),
    hstage'.keeps hg fun _ => Nat.le_refl 1⟩

end Sharing

/-- Sharing is complete and sound. In a graph without cycles whose types are deduced,
no two nodes that the outputs depend on are the same after it, whatever the
fingerprints are. Every output writes its stream as before, and it writes the same
value under every interpretation in which commutative operators commute. A graph
that has outputs is never refused. -/
theorem sharing_complete_and_sound (g : Graph) (hacyclic : g.Acyclic) (hg : g.Deduced) :
    (g.outputs ≠ [] → (Sharing.clean.runOn g).1 = .ok ()) ∧
    (∀ a b, (Sharing.clean.runOn g).2.Needs a → (Sharing.clean.runOn g).2.Needs b → a ≠ b →
      (Sharing.clean.runOn g).2.same a b = .ok false) ∧
    List.Forall₂ (fun id id' => ∃ channel, g.channelAt id = some channel ∧
        (Sharing.clean.runOn g).2.channelAt id' = some channel ∧
        ∀ A : Interpretation, A.Commutes →
          (Sharing.clean.runOn g).2.evaluate A.semantics id' = g.evaluate A.semantics id)
      g.outputs (Sharing.clean.runOn g).2.outputs := by
  by_cases hne : g.outputs = []
  · -- Without outputs there is nothing to share, and nothing to keep.
    have hrun : Sharing.clean.runOn g =
        (.error .noOutputs, { g with representatives := [] }) := by
      have hempty : g.outputs.isEmpty = true := List.isEmpty_iff.mpr hne
      unfold Sharing.clean Build.forgetRepresentatives Pass.run
      rw [runOn_bind]
      show (Build.runOn _ { g with representatives := [] }) = _
      rw [runOn_bind]
      show (if g.outputs.isEmpty then _ else _ : Build _).runOn _ = _
      rw [if_pos hempty]
      rfl
    rw [hrun]
    refine ⟨fun h => absurd hne h, fun a b ha => ?_, ?_⟩
    · obtain ⟨output, houtput, -⟩ := ha
      dsimp only at houtput
      rw [hne] at houtput
      cases houtput
    · dsimp only
      rw [hne]
      exact .nil
  · obtain ⟨_, g', hrun, hdistinct, -⟩ :=
      (Sharing.clean_ends hg hacyclic hne (.literal fun _ => 0)).succeeds
    rw [hrun]
    refine ⟨fun _ => rfl, hdistinct, ?_⟩
    have hkeeps := fun A => ((Sharing.clean_ends hg hacyclic hne A).of_runOn hrun).2
    refine List.forall₂_iff_get.mpr ⟨(hkeeps (.literal fun _ => 0)).length_eq, fun k hk hk' => ?_⟩
    obtain ⟨channel, hchannel, hchannel'⟩ := ((hkeeps (.literal fun _ => 0)).get hk hk').1
    exact ⟨channel, hchannel, hchannel', fun A hA => (((hkeeps A).get hk hk').2 hA).symm⟩

namespace Products

/-- The sum of a product and of the same product with its factors swapped. -/
def graph : Graph where
  nodes := #[
    { op := .input ⟨"a", .of .int 1⟩, shape := ⟨.int, 1⟩, inputWidth := 1 },
    { op := .input ⟨"b", .of .int 1⟩, shape := ⟨.int, 1⟩, inputWidth := 1 },
    { op := .binary .multiply 0 1, shape := ⟨.int, 1⟩, overload := some 1, inputWidth := 1 },
    { op := .binary .multiply 1 0, shape := ⟨.int, 1⟩, overload := some 1, inputWidth := 1 },
    { op := .binary .add 2 3, shape := ⟨.int, 1⟩, overload := some 1, inputWidth := 1 },
    { op := .output ⟨"r", .of .int 1⟩ 4, shape := ⟨.int, 1⟩, inputWidth := 1 }]
  outputs := [5]
  inputs := [⟨"a", .of .int 1⟩, ⟨"b", .of .int 1⟩]

/-- Operands stand before their users. -/
theorem acyclic : graph.Acyclic := Graph.acyclic_of_before (by decide)

/-- All types are deduced. -/
theorem deduced : graph.Deduced := Graph.deduced_of_all (by decide) (by decide)

/-- The factors are two and three, and integers are added and multiplied. -/
def numbers : Interpretation :=
  .strict (fun channel _ => some (.int (if channel.name = "a" then 2 else 3))) (fun _ _ x => x)
    (fun op x y =>
      match op, x, y with
      | .add, .int a, .int b => .int (a + b)
      | .multiply, .int a, .int b => .int (a * b)
      | _, _, _ => .int 0)
    (fun _ x _ _ => x) fun _ _ => .int 0

/-- Sums and products of integers commute, and so does what is zero. -/
theorem numbers_commutes : numbers.Commutes := by
  intro op _ x y
  cases x with
  | none => cases y <;> rfl
  | some a =>
    cases y with
    | none => rfl
    | some b =>
      cases op
      case add =>
        cases a <;> cases b <;> first | rfl | exact congrArg (some ∘ Scalar.int) (Int32.add_comm _ _)
      case multiply =>
        cases a <;> cases b <;> first | rfl | exact congrArg (some ∘ Scalar.int) (Int32.mul_comm _ _)
      all_goals rfl

end Products

/-- The two products become one node, which is added to itself, and twice six is
still twelve. -/
theorem sharing_complete_and_sound_products :
    (Products.graph.Acyclic ∧ Products.graph.Deduced ∧ Products.numbers.Commutes) ∧
    (Sharing.clean.runOn Products.graph).1 = .ok () ∧
    (Sharing.clean.runOn Products.graph).2.outputs = [5] ∧
    ((Sharing.clean.runOn Products.graph).2.node? 4).map (·.op) = some (.binary .add 2 2) ∧
    (Sharing.clean.runOn Products.graph).2.evaluate Products.numbers.semantics 5 0 =
      some (.int 12) := by
  have h := sharing_complete_and_sound Products.graph Products.acyclic Products.deduced
  have houtputs : (Sharing.clean.runOn Products.graph).2.outputs = [5] := by decide +kernel
  refine ⟨⟨Products.acyclic, Products.deduced, Products.numbers_commutes⟩, h.1 (by decide),
    houtputs, by decide +kernel, ?_⟩
  have hkeeps := h.2.2
  rw [houtputs] at hkeeps
  obtain ⟨⟨channel, -, -, hvalue⟩, -⟩ := List.forall₂_cons.mp hkeeps
  rw [hvalue Products.numbers Products.numbers_commutes]
  decide

end LaneGraph
