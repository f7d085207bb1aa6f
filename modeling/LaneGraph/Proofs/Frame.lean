import LaneGraph.Proofs.Safety

/-!
# What an execution writes

Binding comes before the first store, and what is wrong with a stream or a function is
found while binding. A run ends early only where an instruction is malformed. Until then
each store has replaced bytes of the elements that its slot has, so whatever the outcome
is, a byte of an output stream that belongs to no element of a bound slot is the one that
was there before.
-/

namespace LaneGraph

/-- A byte of the buffer of a stream lies in the element of one of the instances. -/
def ElementView.Spans (v : ElementView) (s : Stream) (instances byte : Nat) : Prop :=
  ∃ i < instances, s.start + v.offset + i * v.stride ≤ byte ∧
    byte < s.start + v.offset + i * v.stride + v.encoding.size

/-- A byte of an output stream lies in an element of a slot that is bound to the stream. -/
def Machine.Owns (m : Machine) (p : Program) (outputs : List Stream) (instances k : Nat)
    (s : Stream) (byte : Nat) : Prop :=
  ∃ slots b, Binding.bindOutputs m.flags p outputs instances = .ok slots ∧ some b ∈ slots ∧
    b.stream = k ∧ b.view.Spans s instances byte

section

variable {m : Machine} {p : Program} {inputs outputs : List Stream} {instances : Nat}
  {globals : Globals}

/-- What is written through a bound slot lies in its elements. -/
theorem Context.Owns.of_bind {c : Context} {k byte : Nat} {s : Stream}
    (hbind : m.bind p inputs outputs instances globals = .ok c) (h : c.Owns k s byte) :
    m.Owns p outputs instances k s byte := by
  obtain ⟨-, houtputs, -, hinstances, -⟩ := Machine.bind_eq_ok hbind
  obtain ⟨b, hb, rfl, i, hi, hin⟩ := h
  rw [hinstances] at hi
  exact ⟨c.outputs, b, houtputs, hb, rfl, i, hi, by
    rwa [ElementView.position, ← Nat.add_assoc] at hin⟩

/-- Before the program runs nothing is written. -/
theorem Machine.execute_unchanged_or_runs (m : Machine) (p : Program)
    (inputs outputs : List Stream) (instances : Nat) (globals : Globals) :
    (m.execute p inputs outputs instances globals).1.outputs = outputs ∨
      ∃ c, 1 ≤ instances ∧ m.bind p inputs outputs instances globals = .ok c ∧
        p.registerCount * batchCount instances < cellLimit := by
  unfold Machine.execute
  split
  · exact .inl rfl
  · split
    · exact .inl rfl
    · rename_i hpos c hbind
      dsimp only
      split
      · exact .inl rfl
      · exact .inr ⟨c, by omega, hbind, by omega⟩

end

/-- An execution touches what it owns. Unless an instruction is malformed, an error leaves
all output streams as they were, and so does an execution for no instance. In every
outcome an output stream keeps its length, and all its bytes but those in the elements of
the bound slots. -/
theorem execute_writes_owned (m : Machine) (p : Program) (inputs outputs : List Stream)
    (instances : Nat) (globals : Globals) :
    ((instances = 0 ∨ ∃ e, (m.execute p inputs outputs instances globals).1.error = some e ∧
        e.isMalformed = false) →
      (m.execute p inputs outputs instances globals).1.outputs = outputs) ∧
    ∀ k : Nat, Option.Rel (fun s s' => s.SameOutside s' (m.Owns p outputs instances k s))
      outputs[k]? (m.execute p inputs outputs instances globals).1.outputs[k]? := by
  rcases m.execute_unchanged_or_runs p inputs outputs instances globals with
    hsame | ⟨c, hpos, hbind, hregisters⟩
  · refine ⟨fun _ => hsame, fun k => ?_⟩
    rw [hsame]
    cases outputs[k]? with
    | none => exact .none
    | some s => exact .some (.refl s _)
  · have hbounds : c.InBounds (p.start outputs (batchCount instances)).outputs.toList :=
      (Machine.bind_served hbind).inBounds
    obtain ⟨hframe, hcause⟩ := Context.run_returns (c := c) p.instructions
      (Encoded.readFrom_malformed _ _ _) (p.start outputs (batchCount instances))
    rw [Machine.execute_of_bind hpos hbind hregisters]
    constructor
    · rintro (hzero | ⟨e, he, hother⟩)
      · omega
      · exact absurd (hcause e he hbounds) (Bool.eq_false_iff.mp hother)
    · intro k
      have hstart : (p.start outputs (batchCount instances)).outputs[k]? = outputs[k]? :=
        List.getElem?_toArray
      have hk := hframe k
      rw [hstart, ← Array.getElem?_toList] at hk
      dsimp only
      generalize (c.run (p.start outputs (batchCount instances))
        p.instructions).1.outputs.toList[k]? = after at hk ⊢
      cases hs : outputs[k]? with
      | none =>
        rw [hs] at hk
        cases hk
        exact .none
      | some s =>
        rw [hs] at hk
        cases hk with
        | some hsame => exact .some (hsame.mono fun j howns => howns.of_bind hbind)

/-- A constant is stored in the second components of two vectors before a call turns out to
be malformed: nothing but these components was written. With an input that has no stream
nothing is written at all. -/
theorem execute_writes_owned_component :
    let p : Program :=
      { code := [98, 0, 7, 99, 0, 0, 1, 5], outputs := [⟨"v.y", .of .int 1⟩],
        functions := [Function.random.signature], instructionCount := 9, registerCount := 1 }
    let output := Stream.ofBytes ⟨"v", .of .int 4⟩ (Array.replicate 32 1)
    let result := (({} : Machine).execute p [] [output] 2 []).1
    let missing := { p with inputs := [⟨"a", .of .int 1⟩] }
    let refused := (({} : Machine).execute missing [] [output] 2 []).1
    (result.error = some (.malformed 3 (.registerOutOfRange 5 1)) ∧
      result.outputs ≠ [output] ∧
      ∀ k : Nat, Option.Rel
        (fun s s' => s.SameOutside s' (({} : Machine).Owns p [output] 2 k s))
        [output][k]? result.outputs[k]?) ∧
    (refused.error = some (.inputNotFound "a") ∧ refused.outputs = [output]) := by
  intro p output result missing refused
  have hrefused : refused.error = some (.inputNotFound "a") := by decide
  exact ⟨⟨by decide, by decide, (execute_writes_owned {} p [] [output] 2 []).2⟩,
    hrefused, (execute_writes_owned {} missing [] [output] 2 []).1 (.inr ⟨_, hrefused, rfl⟩)⟩

end LaneGraph
