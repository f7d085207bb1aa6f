import LaneGraph.Proofs.Closure

/-!
# Downward passes terminate

A downward sweep replaces a node until it stays and then goes down to its
operands, which may be new themselves. Loops and depths are bounded, so the
question is whether a bound can be felt. It cannot: a sweep that does not use up
its bound does the same with every larger one, and on an arena in order no sweep
uses it up. So the loops end by themselves.
-/

namespace LaneGraph

open Build

namespace Build

variable {α β : Type} {steps steps' : Build α}

/-- Steps with more room do the same, unless those with less room use it up. -/
def Extends (steps steps' : Build α) : Prop :=
  ∀ g, (steps.runOn g).1 = .error .unsettled ∨ steps'.runOn g = steps.runOn g

namespace Extends

/-- Steps extend themselves. -/
theorem refl (steps : Build α) : Extends steps steps := fun _ => .inr rfl

/-- Steps that use up their room are extended by all others. -/
theorem unsettled (steps : Build α) : Extends (throw .unsettled) steps := fun _ => .inl rfl

/-- Steps one after the other are extended one after the other. -/
theorem bind {next next' : α → Build β} (h : Extends steps steps')
    (hnext : ∀ a, Extends (next a) (next' a)) : Extends (steps >>= next) (steps' >>= next') := by
  intro g
  rw [runOn_bind, runOn_bind]
  rcases h g with hused | hsame
  · left
    cases hrun : steps.runOn g with
    | mk result g' =>
      rw [hrun] at hused
      cases result with
      | ok a => cases hused
      | error e =>
        cases hused
        rfl
  · rw [hsame]
    cases hrun : steps.runOn g with
    | mk result g' =>
      cases result with
      | ok a => exact hnext a g'
      | error e => exact .inr rfl

/-- Steps along a list are extended one by one. -/
theorem foldlM {visit visit' : β → α → Build β} (h : ∀ b a, Extends (visit b a) (visit' b a))
    (xs : List α) (b : β) : Extends (xs.foldlM visit b) (xs.foldlM visit' b) := by
  induction xs generalizing b with
  | nil => exact refl _
  | cons x xs ih =>
    rw [List.foldlM_cons, List.foldlM_cons]
    exact (h b x).bind ih

/-- Steps that do not use up their room do the same as those that extend them. -/
theorem runOn_eq (h : Extends steps steps') {g : Graph}
    (hsettled : (steps.runOn g).1 ≠ .error .unsettled) : steps'.runOn g = steps.runOn g :=
  (h g).resolve_left hsettled

end Extends

/-- Steps that fail only by refusal do not use up their room. -/
theorem Lands.settled {S : Streams} {g : Graph} {post : α → Graph → Prop}
    (h : Lands steps g post (Declined S)) : (steps.runOn g).1 ≠ .error .unsettled := by
  unfold Lands at h
  cases hrun : steps.runOn g with
  | mk result g' =>
    rw [hrun] at h
    cases result with
    | ok a => exact fun heq => (nomatch heq)
    | error e =>
      rintro heq
      cases heq
      cases h.1

section

variable {replace : NodeId → Build NodeId} {bound bound' : Nat}

/-- More room to replace a node. -/
theorem extends_settle (h : bound ≤ bound') (id : NodeId) :
    Extends (settle replace bound id) (settle replace bound' id) := by
  induction bound generalizing bound' id with
  | zero => exact .unsettled _
  | succ bound ih =>
    cases bound' with
    | zero => exact absurd h (Nat.not_succ_le_zero _)
    | succ bound' =>
      rw [settle, settle]
      refine (Extends.refl _).bind fun next => ?_
      split
      · exact .refl _
      · exact ih (Nat.le_of_succ_le_succ h) next

/-- More room to find where a node settles. -/
theorem extends_settleOnce (h : bound ≤ bound') (d : Descent) (id : NodeId) :
    Extends (settleOnce replace bound d id) (settleOnce replace bound' d id) := by
  unfold settleOnce
  split
  · exact .refl _
  · exact (extends_settle h id).bind fun _ => .refl _

/-- More room to settle operands. -/
theorem extends_settleChildren (h : bound ≤ bound') (parent : NodeId)
    (pairs : List (NodeId × Nat)) (d : Descent) :
    Extends (settleChildren replace bound parent d pairs)
      (settleChildren replace bound' parent d pairs) := by
  induction pairs generalizing d with
  | nil => exact .refl _
  | cons p rest ih =>
    obtain ⟨child, index⟩ := p
    rw [settleChildren, settleChildren]
    refine (extends_settleOnce h d child).bind ?_
    rintro ⟨done, d'⟩
    dsimp only
    split
    · exact (Extends.refl _).bind fun _ => (ih d').bind fun _ => .refl _
    · exact (ih d').bind fun _ => .refl _

/-- More room to go down. -/
theorem extends_descend (h : bound ≤ bound') {depth depth' : Nat} (hdepth : depth ≤ depth')
    (d : Descent) (parent : NodeId) :
    Extends (descend replace bound depth d parent) (descend replace bound' depth' d parent) := by
  induction depth generalizing depth' d parent with
  | zero => exact .unsettled _
  | succ depth ih =>
    cases depth' with
    | zero => exact absurd hdepth (Nat.not_succ_le_zero _)
    | succ depth' =>
      rw [descend, descend]
      split
      · exact .refl _
      · refine (Extends.refl _).bind fun n => ?_
        refine (extends_settleChildren h parent _ _).bind ?_
        rintro ⟨children, d'⟩
        exact Extends.foldlM (fun d x => ih (Nat.le_of_succ_le_succ hdepth) d x) _ _

/-- More room to settle an output and everything below it. -/
theorem extends_sweepOutput (h : bound ≤ bound') (d : Descent) (output : NodeId) :
    Extends (sweepOutput replace bound d output) (sweepOutput replace bound' d output) := by
  unfold sweepOutput
  refine (extends_settleOnce h d output).bind ?_
  rintro ⟨done, d'⟩
  refine (Extends.refl _).bind fun _ => ?_
  exact (extends_descend h h d' done).bind fun _ => .refl _

/-- More room to settle outputs. -/
theorem extends_sweepOutputs (h : bound ≤ bound') (outputs : List NodeId) (d : Descent) :
    Extends (sweepOutputs replace bound d outputs) (sweepOutputs replace bound' d outputs) := by
  induction outputs generalizing d with
  | nil => exact .refl _
  | cons output rest ih =>
    rw [sweepOutputs, sweepOutputs]
    refine (extends_sweepOutput h d output).bind ?_
    rintro ⟨done, d'⟩
    exact (ih d').bind fun _ => .refl _

end

end Build

variable {S : Streams} {g : Graph}

/-- Every node of an arena in order settles within the bound of a sweep. -/
theorem Descends.settles_node {replace : NodeId → Build NodeId} (hdescends : Descends S replace)
    (h : Orderly S g) {id : NodeId} (hid : id < g.nodes.size) :
    Lands (Build.settle replace (sweepBound g) id) g (fun _ _ => True) (Declined S) := by
  obtain ⟨rank, h⟩ := h
  have hneed := h.acyclic.needRank_le id
  have hweight := g.weightAt_le id
  have hbound : 16 * g.needRank id + g.weightAt id < sweepBound g := by
    unfold sweepBound
    omega
  exact (hdescends.settle h.rescale hid hbound).lands.mono (fun _ _ _ => trivial) fun _ _ he => he

/-- What downward passes replace leads further down. -/
theorem Pipeline.descends {pass : Pass} (hpass : pass ∈ passes)
    (hdownward : pass.direction = .downward) : Descends S pass.replace := by
  simp only [passes, List.mem_cons, List.not_mem_nil, or_false] at hpass
  rcases hpass with rfl | rfl | rfl | rfl | rfl | rfl | rfl | rfl
  case inr.inl => exact Vectors.descends
  case inr.inr.inr.inl => exact Scalars.descends
  case inr.inr.inr.inr.inr.inl => exact Lowering.descends
  case inr.inr.inr.inr.inr.inr.inr => exact Consistency.descends
  all_goals cases hdownward

/-- A downward pass comes to an end on a graph by itself. It does not use up its bound.
Replacing a node until it stays ends for every node, and so does going down from the
outputs, both with the same result and the same graph for each bound from that of the
sweep on. -/
structure Pass.Terminates (pass : Pass) (g : Graph) : Prop where
  run : (pass.run.runOn g).1 ≠ .error .unsettled
  settle : ∀ id < g.nodes.size, ∀ bound ≥ sweepBound g,
    ((settle pass.replace bound id).runOn g).1 ≠ .error .unsettled ∧
      (settle pass.replace bound id).runOn g = (settle pass.replace (sweepBound g) id).runOn g
  sweep : ∀ bound ≥ sweepBound g,
    ((sweepOutputs pass.replace bound {} g.outputs).runOn g).1 ≠ .error .unsettled ∧
      (sweepOutputs pass.replace bound {} g.outputs).runOn g =
        (sweepOutputs pass.replace (sweepBound g) {} g.outputs).runOn g

/-- Downward passes terminate on whatever factories and transforms make, although they
make new nodes on the way and take these up in turn. -/
theorem downward_passes_terminate (g : Graph) (h : g.Made) (transforms : List (Build Unit))
    (htransforms : ∀ t ∈ transforms, t ∈ Pipeline.transforms) (pass : Pass)
    (hpass : pass ∈ Pipeline.passes) (hdownward : pass.direction = .downward) :
    pass.Terminates (g.after transforms) := by
  have horderly := h.orderly.after htransforms
  have hdescends : Descends Streams.all pass.replace := Pipeline.descends hpass hdownward
  refine ⟨(Pipeline.pass_orderly hpass horderly).settled, ?_, ?_⟩
  · intro id hid bound hbound
    have hsettled := (hdescends.settles_node horderly hid).settled
    have hsame := (extends_settle hbound id).runOn_eq hsettled
    exact ⟨hsame ▸ hsettled, hsame⟩
  · intro bound hbound
    have hsettled := (hdescends.settles horderly (Nat.le_refl _)).settled
    have hsame := (extends_sweepOutputs hbound _ {}).runOn_eq hsettled
    exact ⟨hsame ▸ hsettled, hsame⟩

/-- Writing out the length of a vector comes to an end by itself. -/
theorem downward_passes_terminate_norm :
    (Norm.graph.Made ∧ (∀ t ∈ [Typing.pass.run], t ∈ Pipeline.transforms) ∧
      Vectors.pass ∈ Pipeline.passes ∧ Vectors.pass.direction = .downward) ∧
    Vectors.pass.Terminates (Norm.graph.after [Typing.pass.run]) := by
  have hmem : ∀ t ∈ [Typing.pass.run], t ∈ Pipeline.transforms := by
    simp [Pipeline.transforms, Pipeline.passes]
  have hpass : Vectors.pass ∈ Pipeline.passes := by simp [Pipeline.passes]
  exact ⟨⟨Norm.made, hmem, hpass, rfl⟩,
    downward_passes_terminate Norm.graph Norm.made _ hmem Vectors.pass hpass rfl⟩

end LaneGraph
