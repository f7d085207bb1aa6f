import LaneGraph.Proofs.Patterns
import LaneGraph.Proofs.Refusals
import LaneGraph.Proofs.WellFormed

/-!
# Compiled programs compute the graphs that they were made from

A graph of integers and booleans is compiled, and its program is run. Whatever
the streams hold, every bound element of an output is the value that the graph
has at the instance: overloads chosen, operands converted and spread, and every
operator applied to literals. The values of the graph are followed through the
pipeline, and the columns of the graph in machine form stand for them.
-/

namespace LaneGraph

open Build Emission

namespace Graph

/-- The outputs depend on integers and booleans, on no power and no call, and no
more than four components are selected at once. -/
def Plain (g : Graph) : Prop :=
  ∀ (id : NodeId) (n : Node), g.Needs id → g.node? id = some n → n.plain = true

end Graph

/-! ## Values through the pipeline -/

section

variable {exact : Prop} {g g' : Graph} {made : List Delivery} {read : String → UInt32}

end

/-! ## Deliveries and their components -/

namespace Delivery

end Delivery

namespace Channel

/-- The names of components have the name of the vector and the letter. -/
theorem component_name_inj {p q : Channel} {c d : Component}
    (h : (p.component c).name = (q.component d).name) : p.name = q.name ∧ c = d := by
  have hlists := congrArg String.toList h
  unfold component at hlists
  simp only [String.toList_append, String.toList_singleton, List.append_assoc] at hlists
  obtain ⟨hname, hletter⟩ := List.append_inj' hlists rfl
  refine ⟨String.toList_inj.mp hname, ?_⟩
  cases c <;> cases d <;> first | rfl | exact absurd hletter (by decide)

end Channel

namespace Writes

variable {R : Rules} {g : Graph} {w : World} {ids : List NodeId} {made : List Delivery}

/-- A delivery is made by an output. -/
theorem of_mem (h : Writes R g w ids made) {d : Delivery} (hd : d ∈ made) :
    ∃ id ∈ ids, w.live id ∧ g.channelAt id = some d.channel ∧
      (R.tracked → R.agreement.le d.value (w.value id)) := by
  obtain ⟨k, hk, rfl⟩ := List.getElem_of_mem hd
  have hk' : k < ids.length := by
    rw [h.length_eq]
    exact hk
  exact ⟨ids[k], List.getElem_mem hk', h.get hk' hk⟩

end Writes

/-- Streams of a graph of deduced types have one to four components. -/
theorem Typing.counts {exact : Prop} {g : Graph} {made : List Delivery} {read : String → UInt32}
    (h : Stage (Typing.looseRules exact True (.literal read)) g made) :
    ∀ d ∈ made, 1 ≤ d.channel.format.count ∧ d.channel.format.count ≤ 4 := by
  obtain ⟨w, hs, hwrites⟩ := h
  intro d hd
  obtain ⟨id, -, hid, hchannel, -⟩ := hwrites.of_mem hd
  obtain ⟨n, source, hn, hop⟩ := Graph.channelAt_eq_some hchannel
  have htyped := (Node.fits_frame.mp (hs.nodeSound hid hn).fits.1).typed_of_isCall (hop ▸ rfl)
  unfold Node.Typed at htyped
  rw [hop] at htyped
  exact ⟨htyped.2.1, htyped.2.2.1⟩

/-- The types of a graph that passes the pipeline are deduced. -/
theorem Pipeline.typing_of_run {g g' : Graph} {wanted : Bool} {stages : List Stage}
    (h : (run wanted).runOn g = (.ok stages, g')) :
    ∃ g₁, Typing.pass.run.runOn g = (.ok (), g₁) := by
  cases hrun : Typing.pass.run.runOn g with
  | mk result g₁ =>
    cases result with
    | ok _ => exact ⟨g₁, rfl⟩
    | error e =>
      rw [run_eq, runOn_bind, stage, runOn_bind, hrun] at h
      cases h

/-! ## Runs -/

/-- A function of the names of scalar streams gives the elements that the inputs of
a program are bound to at an instance. -/
def Context.Reads (c : Context) (p : Program) (i : Nat) (read : String → UInt32) : Prop :=
  ∀ (name : String) (slot : Nat) (b : Binding.BoundInput),
    slotOf? Channel.name p.inputs name = some slot → c.inputs[slot]? = some b →
    read name = b.view.read b.stream i

/-- The elements that streams have for an output at an instance are the components
of a value. -/
def Program.Leaves (p : Program) (c : Context) (streams : List Stream) (channel : Channel)
    (i : Nat) (v : Value) : Prop :=
  ∀ k < channel.format.count, ∃ slot s,
    slotOf? Channel.name p.outputs (channel.scalarName k) = some slot ∧ v k = some s ∧
      ∀ b, c.outputs[slot]? = some (some b) → b.Holds streams i s.bits

/-- A run reads the elements of an instance. -/
theorem Context.Reads.column {c : Context} {p : Program} {m : Machine} {i : Nat}
    {read : String → UInt32} (h : c.Reads p i read) (hi : i < c.instances) {name : String}
    {x : Column (batchCount c.instances)} (hx : (Setting.ofRun m p c).input name = some x) :
    read name = instanceBits x i := by
  obtain ⟨slot, hslot, hx⟩ := Option.bind_eq_some_iff.mp hx
  obtain ⟨b, hb, rfl⟩ := Option.map_eq_some_iff.mp hx
  rw [instanceBits_loadColumn _ _ (by unfold batchCount; omega), Nat.min_eq_left (by omega)]
  exact h name slot b hslot hb

/-- A graph is plain if all its nodes are. -/
theorem Graph.plain_of_all {g : Graph} (h : g.nodes.all Node.plain = true) : g.Plain := by
  intro id n _ hn
  exact Array.all_eq_true_iff_forall_mem.mp h n (Array.mem_of_getElem? hn)

namespace Square

/-- Two pairs of numbers: three and five, two to the power of sixteen and minus two. -/
def input : Stream :=
  .ofBytes ⟨"a", .of .int 2⟩ #[3, 0, 0, 0, 5, 0, 0, 0, 0, 0, 1, 0, 254, 255, 255, 255]

/-- Room for two pairs of results. -/
def output : Stream := .ofBytes ⟨"r", .of .int 2⟩ (Array.replicate 16 0)

/-- The program bound to the components of both streams. -/
def context : Context where
  instances := 2
  inputs := [⟨input, ⟨0, 8, .int⟩⟩, ⟨input.withOffset 4, ⟨0, 8, .int⟩⟩]
  outputs := [some ⟨0, ⟨0, 8, .int⟩⟩, some ⟨0, ⟨4, 8, .int⟩⟩]
  functions := []
  globals := []

/-- The nodes are integers. -/
theorem plain : (Typing.pass.run.runOn graph).2.Plain := Graph.plain_of_all (by cbv)

/-- The components of the results lie side by side. -/
theorem apart : context.OutputsApart := by
  intro p q a b i j hp hq hi hj hne _
  have hi' : i < 2 := hi
  have hj' : j < 2 := hj
  match p, q, hp, hq with
  | 0, 0, hp, hq | 0, 1, hp, hq | 1, 0, hp, hq | 1, 1, hp, hq =>
    cases hp
    cases hq
    simp only [ElementView.Apart, ElementView.position, Encoding.size]
    omega

end Square

end LaneGraph
