import LaneGraph.Proofs.Denotation
import LaneGraph.Proofs.Refusals
import Mathlib

/-!
# Splitting vectors keeps every component

The four steps that split vectors turn a deduced graph whose nodes do not mix
components into a graph of scalars. Each output is replaced by one output for each
of its components. A component of an output that is there before is the value of the
replacement afterwards, under every interpretation whose streams of components hold
the components of the vector streams.
-/

namespace LaneGraph

open Build

variable {g g' : Graph}

/-! ## Interpretations whose streams are split -/

/-- A typed node reads a stream of as many components as it has, which are at most
four. -/
theorem Node.Typed.width_input {functions : List Signature} {n : Node} {shapes : List Shape}
    (h : n.Typed functions shapes) {channel : Channel} (hop : n.op = .input channel) :
    channel.format.count ≤ 4 ∧ n.shape.width = channel.format.count := by
  unfold Node.Typed at h
  rw [hop] at h
  obtain ⟨-, hpos, hle, hshape⟩ := h
  rw [hshape, (Format.shape_eq hpos hle).1]
  exact ⟨hle, rfl⟩

namespace Interpretation

/-- The interpretation with vector streams put together from the streams of their
components. -/
def gathered (A : Interpretation) : Interpretation :=
  { A with
    input := fun channel k =>
      if 1 < channel.format.count then A.input (channel.component (.ofIndex k)) 0
      else A.input channel k }

/-- How streams are put together. -/
theorem input_gathered (A : Interpretation) (channel : Channel) (k : Nat) :
    A.gathered.input channel k = if 1 < channel.format.count then
      A.input (channel.component (.ofIndex k)) 0 else A.input channel k := rfl

/-- Vector streams that are put together from streams are split into them. -/
theorem gathered_splitsStreams (A : Interpretation) : A.gathered.SplitsStreams := by
  intro channel c hwide _
  have hindex : Component.ofIndex c.index = c := by cases c <;> rfl
  have hone : ¬1 < (channel.component c).format.count := Nat.lt_irrefl 1
  rw [input_gathered, input_gathered, if_pos hwide, if_neg hone, hindex]

/-- The streams of components hold what the vector streams hold that the graph depends
on. -/
def Carries (A : Interpretation) (g : Graph) : Prop :=
  ∀ id n channel, g.Needs id → g.node? id = some n → n.op = .input channel → A.Splits channel

/-- Where vector streams are split, it does not matter that they are put together. -/
theorem denote_gathered (A : Interpretation) {functions : List Signature} {n : Node}
    {shapes : List Shape} (h : n.Typed functions shapes)
    (hsplits : ∀ channel, n.op = .input channel → A.Splits channel) :
    A.gathered.semantics.denote n = A.semantics.denote n := by
  funext values k
  show A.gathered.denote n values k = A.denote n values k
  unfold denote
  split
  case isFalse => rfl
  rename_i hk
  unfold component
  cases hop : n.op with
  | input channel =>
    show A.gathered.input channel k = A.input channel k
    rw [input_gathered]
    split
    case isFalse => rfl
    rename_i hwide
    obtain ⟨hle, hwidth⟩ := h.width_input hop
    rw [hwidth] at hk
    have hindex : ∀ k < 4, (Component.ofIndex k).index = k := by decide
    have hsplit := hsplits channel hop (.ofIndex k) hwide
    rw [hindex k (by omega)] at hsplit
    exact hsplit hk
  | _ => rfl

/-- A graph has the same values if vector streams are put together from streams that
carry their components. -/
theorem Carries.evaluate_gathered {A : Interpretation} (h : A.Carries g) (hacyclic : g.Acyclic)
    (hg : g.Deduced) {id : NodeId} (hid : g.Needs id) :
    g.evaluate A.gathered.semantics id = g.evaluate A.semantics id := by
  have hranked : g.Ranked g.Needs g.needRank := fun id n hid hn c hc =>
    ⟨hid.operand hn hc, (hacyclic.ranked id n trivial hn c hc).2⟩
  refine hranked.evaluate_congr (fun id _ => hacyclic.needRank_le id) (fun id n hid hn => ?_) hid
  obtain ⟨n', hn', htyped⟩ := hg.typed id hid
  rw [hn] at hn'
  cases hn'
  exact A.denote_gathered htyped fun channel hop => h id n channel hid hn hop

end Interpretation

/-- A graph of scalars reads no vector stream, so it does not matter how these are put
together. -/
theorem Stage.evaluate_gathered {t : TypedRules} {made : List Delivery}
    (h : Stage (t.staged fun n _ => n.narrow) g made) (A : Interpretation) {id : NodeId}
    (hid : id ∈ g.outputs) (hexact : t.exact) :
    g.evaluate A.gathered.semantics id = g.evaluate A.semantics id := by
  obtain ⟨w, hs, hwrites⟩ := h
  obtain ⟨rank, hranked, hrank⟩ := hs.ranked fun _ => Nat.le_refl 1
  refine hranked.evaluate_congr hrank (fun id n hid hn => ?_) (hwrites.live hid)
  have hsound := hs.nodeSound hid hn
  have htyped := hsound.typed hexact
  have hwidth : n.shape.width = 1 := Node.width_of_narrow (n.narrow_frame ▸ hsound.fits.2.1)
  refine A.denote_gathered htyped fun channel hop c hwide => ?_
  rw [← (htyped.width_input hop).2, hwidth] at hwide
  exact absurd hwide (Nat.lt_irrefl 1)

/-! ## Pieces -/

/-- Related lists that are put together from pieces of the same lengths are related
piece by piece. -/
theorem forall₂_of_flatten {α β : Type} {R : α → β → Prop} {xss : List (List α)}
    {yss : List (List β)} (hlength : List.Forall₂ (fun xs ys => xs.length = ys.length) xss yss)
    (h : List.Forall₂ R xss.flatten yss.flatten) : List.Forall₂ (List.Forall₂ R) xss yss := by
  induction hlength with
  | nil => exact .nil
  | @cons xs ys xss yss hfirst _ ih =>
    rw [List.flatten_cons, List.flatten_cons] at h
    have htake := List.forall₂_take_append _ _ _ h
    have hdrop := List.forall₂_drop_append _ _ _ h
    rw [← hfirst, List.take_left] at htake
    rw [← hfirst, List.drop_left] at hdrop
    exact .cons htake (ih hdrop)

namespace Delivery

/-- There is one part for each stream of a component. -/
theorem channels_parts (d : Delivery) (hpos : 1 ≤ d.channel.format.count) :
    d.parts.map (·.channel) = Scalars.componentChannels d.channel := by
  unfold parts Scalars.componentChannels
  by_cases hone : d.channel.format.count = 1
  · rw [if_pos hone, if_pos (Nat.le_of_eq hone)]
    rfl
  · rw [if_neg hone, if_neg (by omega), List.map_map]
    rfl

/-- How many parts there are depends on the stream alone. -/
theorem length_parts_congr {d e : Delivery} (h : d.channel = e.channel) :
    d.parts.length = e.parts.length := by
  unfold parts
  rw [← h]
  split
  · rfl
  · rw [List.length_map, List.length_map]

/-- The parts hold the components, one after the other. -/
theorem value_parts {d e : Delivery} (hle : d.channel.format.count ≤ 4) {k : Nat}
    (h : d.parts[k]? = some e) : e.value 0 = d.value k := by
  unfold parts at h
  split at h
  · obtain ⟨hk, rfl⟩ := List.getElem?_eq_some_iff.mp h
    rw [List.length_singleton, Nat.lt_one_iff] at hk
    subst hk
    rfl
  · rw [List.getElem?_map] at h
    obtain ⟨c, hc, rfl⟩ := Option.map_eq_some_iff.mp h
    have hk := (List.getElem?_eq_some_iff.mp hc).1
    rw [Scalars.length_components hle] at hk
    rw [Scalars.getElem?_components hk hle, Option.some.injEq] at hc
    have hindex : ∀ k < 4, (Component.ofIndex k).index = k := by decide
    show d.value c.index = d.value k
    rw [← hc, hindex k (by omega)]

end Delivery

namespace Scalars

/-- The steps that split vectors, in the order of the pipeline. -/
def run : Build Unit := do
  splitInputTable
  inputPass.run
  splitOutputs
  swizzlePass.run

/-- Vectors are split. Every output is replaced by outputs that deliver its
components. -/
theorem run_ends {A : Interpretation} {made : List Delivery} (hsplits : A.SplitsStreams)
    (h : Stage ((rules True False A .growing).staged unmixed) g made) (hne : made ≠ []) :
    Ends run g fun _ g' => ∃ pieces, g'.outputs = pieces.flatten ∧
      List.Forall₂ (fun p => Stands p.1 p.2) (g.outputs.zip made) pieces ∧
      Stage ((rules True False A .growing).staged fun n _ => n.narrow) g'
        (made.flatMap Delivery.parts) := by
  have htolerant : Tolerant True False A .growing := fun _ => .inl fun _ _ => .none _
  have hS : True → Separates False A.semantics .growing := separates hsplits htolerant
  unfold run
  rw [ends_bind]
  refine (splitInputTable_ends h).mono fun _ g₁ ⟨houtputs₁, h₁⟩ => ?_
  rw [ends_bind]
  refine (inputPass_ends hS h₁ hne).mono fun _ g₂ ⟨houtputs₂, h₂⟩ => ?_
  rw [ends_bind]
  refine (splitOutputs_ends hS h₂).mono fun _ g₃ ⟨pieces, hpieces, hstands, h₃⟩ => ?_
  refine (swizzlePass_ends hS h₃ (Pipeline.partsOf_ne_nil _ hne) fun _ hd =>
    Pipeline.count_le_one hd).mono fun _ g' ⟨houtputs, h'⟩ => ?_
  rw [houtputs₂, houtputs₁] at hstands
  rw [Delivery.partsOf_semantics] at h'
  exact ⟨pieces, houtputs.trans hpieces, hstands, h'⟩

/-- A graph without outputs is refused. -/
theorem outputs_ne_nil (hrun : run.runOn g = (.ok (), g')) : g.outputs ≠ [] := by
  intro hnil
  have hrefused : inputPass.run.runOn { g with inputs := g.inputs.flatMap componentChannels } =
      (.error .noOutputs, { g with inputs := g.inputs.flatMap componentChannels }) :=
    Pass.runOn_of_no_outputs inputPass hnil
  unfold run at hrun
  rw [runOn_bind] at hrun
  change ((inputPass.run >>= _ : Build Unit).runOn
    { g with inputs := g.inputs.flatMap componentChannels }) = _ at hrun
  rw [runOn_bind, hrefused] at hrun
  cases hrun

/-- What takes the place of an output: outputs that deliver the parts of what it
delivers. -/
structure Covers (S : Semantics) (g g' : Graph) (id : NodeId) (d : Delivery) (ids : List NodeId) :
    Prop where
  channel : g.channelAt id = some d.channel
  value : d.value = g.evaluate S id
  stands : Stands id d ids
  parts : List.Forall₂ (fun part id' => g'.channelAt id' = some part.channel ∧
    part.value.Within (g'.evaluate S id')) d.parts ids

/-- An output is covered by as many outputs under every reading of its nodes. -/
theorem Covers.length_eq {S S' : Semantics} {id : NodeId} {d d' : Delivery} {ids ids' : List NodeId}
    (h : Covers S g g' id d ids) (h' : Covers S' g g' id d' ids') : ids.length = ids'.length := by
  have hchannel : d.channel = d'.channel := Option.some.inj (h.channel.symm.trans h'.channel)
  calc ids.length = d.parts.length := h.stands.length.symm
    _ = d'.parts.length := Delivery.length_parts_congr hchannel
    _ = ids'.length := h'.stands.length

/-- Vectors are split, and the pieces that take the place of the outputs deliver the
parts of what these deliver. -/
theorem run_covers (hacyclic : g.Acyclic) (hg : g.Deduced)
    (hunmixed : ∀ id n, g.Needs id → g.node? id = some n → n.mixes = false)
    (hrun : run.runOn g = (.ok (), g')) (A : Interpretation) :
    (∃ made, Stage ((rules True False A.gathered .growing).staged fun n _ => n.narrow) g' made) ∧
      ∃ pieces, g'.outputs = pieces.flatten ∧ List.Forall₂
        (fun id ids => ∃ d, Covers A.gathered.semantics g g' id d ids) g.outputs pieces := by
  have hstage : Stage ((rules True False A.gathered .growing).staged unmixed) g
      (g.delivered A.gathered.semantics) :=
    hg.stage (t := { rules True False A.gathered .growing with form := unmixed, need := fun _ => 1 })
      hacyclic id (fun _ => Nat.le_refl 1) fun id n hid hn => by
        show (!n.frame.mixes) = true
        rw [n.mixes_frame, hunmixed id n hid hn]
        rfl
  have hne := hg.delivered_ne_nil (outputs_ne_nil hrun) A.gathered.semantics
  obtain ⟨pieces, hpieces, hstands, hnarrow⟩ :=
    (run_ends A.gathered_splitsStreams hstage hne).of_runOn hrun
  have hdelivered := hg.delivered A.gathered.semantics
  have hdelivers := Stage.delivers (t := { rules True False A.gathered .growing with
    form := fun n _ => n.narrow, need := fun _ => 1 }) hnarrow fun _ => Nat.le_refl 1
  generalize g.delivered A.gathered.semantics = made at *
  refine ⟨⟨_, hnarrow⟩, pieces, hpieces, ?_⟩
  -- Outputs, deliveries and pieces are matched by their positions.
  have hlength : (g.outputs.zip made).length = made.length := by
    rw [List.length_zip, hdelivered.length_eq, Nat.min_self]
  have hstand : ∀ k (hk : k < g.outputs.length) (hm : k < made.length) (hp : k < pieces.length),
      Stands g.outputs[k] made[k] pieces[k] := by
    intro k hk hm hp
    have hget := hstands.get (i := k) (by rw [hlength]; exact hm) hp
    rw [List.get_eq_getElem, List.getElem_zip] at hget
    exact hget
  have hparts : List.Forall₂ (List.Forall₂ fun (part : Delivery) id' =>
      g'.channelAt id' = some part.channel ∧
        part.value.Within (g'.evaluate A.gathered.semantics id'))
      (made.map Delivery.parts) pieces := by
    refine forall₂_of_flatten ?_ ?_
    · rw [List.forall₂_map_left_iff]
      refine List.forall₂_iff_get.mpr ⟨hlength ▸ hstands.length_eq, fun k hk hk' => ?_⟩
      exact (hstand k (hdelivered.length_eq ▸ hk) hk hk').length
    · rw [← List.flatMap_def, ← hpieces]
      exact hdelivers.imp fun _ _ h => ⟨h.1, h.2 trivial⟩
  rw [List.forall₂_map_left_iff] at hparts
  refine List.forall₂_iff_get.mpr
    ⟨hdelivered.length_eq.trans hparts.length_eq, fun k hk hk' => ?_⟩
  have hm : k < made.length := hdelivered.length_eq ▸ hk
  obtain ⟨hchannel, hvalue⟩ := hdelivered.get hk hm
  exact ⟨made[k], hchannel, hvalue, hstand k hk hm hk', hparts.get hm hk'⟩

end Scalars

/-- The width of an output of a deduced graph. -/
theorem Graph.Deduced.count_output (hg : g.Deduced) {id : NodeId} {channel : Channel}
    (hid : id ∈ g.outputs) (hchannel : g.channelAt id = some channel) :
    1 ≤ channel.format.count ∧ channel.format.count ≤ 4 := by
  obtain ⟨n, hn, htyped⟩ := hg.typed id (Graph.needs_of_mem hid)
  obtain ⟨m, source, hm, hop⟩ := Graph.channelAt_eq_some hchannel
  rw [hn] at hm
  cases hm
  unfold Node.Typed at htyped
  rw [hop] at htyped
  exact ⟨htyped.2.1, htyped.2.2.1⟩

/-- Splitting vectors keeps what a graph means. Take a graph without cycles whose types
are deduced and whose nodes do not mix components. If its vectors are split, the nodes
that the outputs depend on are scalars, and none of them selects components. Every
output gives way to a piece of the new outputs: a scalar output stays as it is, and a
vector output is replaced by one output for each of its components, in their order.
Where a component of the value of an output is defined, it is what the output in its
place delivers, whatever the operators do, as long as streams of components hold what
the vector streams hold. -/
theorem vectors_split_into_components (g g' : Graph) (hacyclic : g.Acyclic) (hg : g.Deduced)
    (hunmixed : ∀ id n, g.Needs id → g.node? id = some n → n.mixes = false)
    (hrun : Scalars.run.runOn g = (.ok (), g')) :
    (∀ id, g'.Needs id → ∃ n, g'.node? id = some n ∧ n.shape.width = 1 ∧ n.selects = false) ∧
    ∃ pieces : List (List NodeId), g'.outputs = pieces.flatten ∧
      List.Forall₂ (fun id ids => ∃ channel, g.channelAt id = some channel ∧
        (channel.format.count = 1 → ids = [id]) ∧
        ids.map g'.channelAt = (Scalars.componentChannels channel).map some ∧
        ∀ A : Interpretation, A.Carries g → ∀ k id', ids[k]? = some id' →
          Scalar.Within (g.evaluate A.semantics id k) (g'.evaluate A.semantics id' 0))
        g.outputs pieces := by
  obtain ⟨⟨made, hnarrow⟩, pieces, hpieces, hcovers⟩ :=
    Scalars.run_covers hacyclic hg hunmixed hrun (.literal fun _ => 0)
  refine ⟨fun id hid => ?_, pieces, hpieces, ?_⟩
  · obtain ⟨n, hn, -, hform⟩ := Stage.typed (t := { Scalars.rules True False
      (Interpretation.literal fun _ => 0).gathered .growing with
        form := fun n _ => n.narrow, need := fun _ => 1 }) hnarrow hid trivial
    have hform : n.narrow = true := n.narrow_frame ▸ hform
    exact ⟨n, hn, Node.width_of_narrow hform, Node.not_selects_of_narrow hform⟩
  refine List.forall₂_iff_get.mpr ⟨hcovers.length_eq, fun k hk hk' => ?_⟩
  have hmem := List.get_mem g.outputs ⟨k, hk⟩
  obtain ⟨d, hd⟩ := hcovers.get hk hk'
  obtain ⟨hpos, hle⟩ := hg.count_output hmem hd.channel
  refine ⟨d.channel, hd.channel, fun hone => hd.stands.stays (Nat.le_of_eq hone), ?_, ?_⟩
  · rw [← d.channels_parts hpos, List.map_map]
    exact map_eq_map_of_forall₂ (f := fun part : Delivery => some part.channel)
      (hd.parts.imp fun _ _ h => h.1)
  intro A hcarries i id' hi
  obtain ⟨⟨made', hnarrow'⟩, pieces', hpieces', hcovers'⟩ :=
    Scalars.run_covers hacyclic hg hunmixed hrun A
  have hsame : pieces' = pieces := by
    have hlengths : List.Forall₂ (fun ids ids' : List NodeId => ids'.length = ids.length) pieces
        pieces' := by
      have hcount := hcovers.length_eq.symm.trans hcovers'.length_eq
      refine List.forall₂_iff_get.mpr ⟨hcount, fun j hj hj' => ?_⟩
      obtain ⟨_, hleft⟩ := hcovers.get (hcovers.length_eq ▸ hj) hj
      obtain ⟨_, hright⟩ := hcovers'.get (hcovers'.length_eq ▸ hj') hj'
      exact hright.length_eq hleft
    exact List.eq_iff_flatten_eq.mpr
      ⟨hpieces'.symm.trans hpieces, map_eq_map_of_forall₂ hlengths⟩
  subst hsame
  obtain ⟨e, he⟩ := hcovers'.get hk hk'
  obtain ⟨hi', hget⟩ := List.getElem?_eq_some_iff.mp hi
  have hpart : i < e.parts.length := he.parts.length_eq ▸ hi'
  obtain ⟨-, hwithin⟩ := he.parts.get hpart hi'
  have hcount : e.channel.format.count ≤ 4 := (hg.count_output hmem he.channel).2
  have hvalue : e.parts[i].value 0 = e.value i :=
    e.value_parts hcount (List.getElem?_eq_getElem hpart)
  have houtput : id' ∈ g'.outputs := by
    rw [hpieces]
    exact List.mem_flatten.mpr ⟨_, List.get_mem _ ⟨k, hk'⟩, List.mem_of_getElem? hi⟩
  have hfinal := hwithin 0
  rw [List.get_eq_getElem, List.get_eq_getElem, hvalue, he.value, hget,
    hcarries.evaluate_gathered hacyclic hg (Graph.needs_of_mem hmem),
    Stage.evaluate_gathered hnarrow' A houtput trivial] at hfinal
  exact hfinal

namespace Reversal

/-- The reversal of a pair is subtracted from it, and a scalar is passed on. -/
def graph : Graph where
  nodes := #[
    { op := .input ⟨"a", .of .int 2⟩, shape := ⟨.int, 2⟩, inputWidth := 1 },
    { op := .swizzle [.y, .x] 0, shape := ⟨.int, 2⟩, inputWidth := 2 },
    { op := .binary .subtract 0 1, shape := ⟨.int, 2⟩, overload := some 1, inputWidth := 2 },
    { op := .output ⟨"r", .of .int 2⟩ 2, shape := ⟨.int, 2⟩, inputWidth := 2 },
    { op := .input ⟨"b", .of .int 1⟩, shape := ⟨.int, 1⟩, inputWidth := 1 },
    { op := .output ⟨"s", .of .int 1⟩ 4, shape := ⟨.int, 1⟩, inputWidth := 1 }]
  outputs := [3, 5]
  inputs := [⟨"a", .of .int 2⟩, ⟨"b", .of .int 1⟩]

/-- Operands stand before their users. -/
theorem acyclic : graph.Acyclic := Graph.acyclic_of_before (by decide)

/-- All types are deduced. -/
theorem deduced : graph.Deduced := Graph.deduced_of_all (by decide) (by decide)

/-- No node mixes components. -/
theorem unmixed (id : NodeId) (n : Node) (_ : graph.Needs id) (hn : graph.node? id = some n) :
    n.mixes = false := by
  have hall : ∀ n ∈ graph.nodes, n.mixes = false := by decide
  exact hall n (Array.mem_of_getElem? hn)

/-- The pair of seven and two, whose components have streams of their own. -/
def numbers : Interpretation :=
  .strict
    (fun channel k =>
      let row := if channel.name = "a" then [7, 2]
        else if channel.name = "a.x" then [7]
        else if channel.name = "a.y" then [2] else [1]
      row[k]?.map .int) (fun _ _ x => x)
    (fun op x y =>
      match op, x, y with
      | .subtract, .int a, .int b => .int (a - b)
      | _, _, _ => .int 0)
    (fun _ x _ _ => x) fun _ _ => .int 0

/-- The streams of the components hold those of the pair. -/
theorem carries : numbers.Carries graph := by
  intro id n channel _ hn hop c hwide hc
  have hnode : ∀ n ∈ graph.nodes, n.op = .input channel →
      channel = ⟨"a", .of .int 2⟩ ∨ channel = ⟨"b", .of .int 1⟩ := by
    simp +contextual [graph, eq_comm]
  rcases hnode n (Array.mem_of_getElem? hn) hop with rfl | rfl
  · cases c
    case x | y => rfl
    all_goals exact absurd hc (by decide)
  · exact absurd hwide (by decide)

/-- Splitting succeeds. -/
theorem splits : (Scalars.run.runOn graph).1 = .ok () := by decide +kernel

end Reversal

/-- A pair minus its reversal is written as two scalars, which are five and minus five.
The scalar output stays. -/
theorem vectors_split_into_components_reversal :
    (Reversal.graph.Acyclic ∧ Reversal.graph.Deduced ∧
      ∀ id n, Reversal.graph.Needs id → Reversal.graph.node? id = some n → n.mixes = false) ∧
    ∃ g' first second, Scalars.run.runOn Reversal.graph = (.ok (), g') ∧
      g'.outputs = [first, second, 5] ∧
      g'.evaluate Reversal.numbers.semantics first 0 = some (.int 5) ∧
      g'.evaluate Reversal.numbers.semantics second 0 = some (.int (-5)) := by
  refine ⟨⟨Reversal.acyclic, Reversal.deduced, Reversal.unmixed⟩, ?_⟩
  obtain ⟨g', hrun⟩ : ∃ g', Scalars.run.runOn Reversal.graph = (.ok (), g') :=
    ⟨_, runOn_eq Reversal.splits⟩
  obtain ⟨-, pieces, hpieces, hcovers⟩ := vectors_split_into_components Reversal.graph g'
    Reversal.acyclic Reversal.deduced Reversal.unmixed hrun
  obtain ⟨pair, rest, ⟨channel, hchannel, -, hnames, hvalues⟩, hrest, rfl⟩ :=
    List.forall₂_cons_left_iff.mp hcovers
  obtain ⟨scalar, rest, ⟨channel', hchannel', hstays, -⟩, hnil, rfl⟩ :=
    List.forall₂_cons_left_iff.mp hrest
  cases hnil
  cases hchannel
  cases hchannel'
  have hcount : pair.length = 2 := by
    have hlength := congrArg List.length hnames
    rwa [List.length_map] at hlength
  obtain ⟨first, second, rfl⟩ := List.length_eq_two.mp hcount
  have hscalar : scalar = [5] := hstays rfl
  subst hscalar
  refine ⟨g', first, second, hrun, hpieces, ?_, ?_⟩
  · exact hvalues Reversal.numbers Reversal.carries 0 first rfl _ (by decide)
  · exact hvalues Reversal.numbers Reversal.carries 1 second rfl _ (by decide)

namespace Crowded

/-- A pair of numbers is read. -/
def reading : Graph := ((Build.input ⟨"v", .of .float 2⟩).runOn {}).2

/-- A function of two numbers, listed 256 times, and a function of one number. -/
def candidates : List Signature :=
  List.replicate 256 (.ofInputs "f" [.float, .float] .float) ++ [.ofInputs "g" [.float] .float]

/-- The pair is passed to one of them. -/
def calling : Graph := ((Build.call candidates [0]).runOn reading).2

/-- The result is written. -/
def graph : Graph := ((Build.output ⟨"o", .of .float 2⟩ 1).runOn calling).2

/-- The graph once types are deduced. -/
def deduced : Graph := (Typing.pass.run.runOn graph).2

/-- The graph once vector operators are written out. -/
def written : Graph := (Vectors.pass.run.runOn deduced).2

/-- The graph once vectors are split. -/
def split : Graph := (Scalars.run.runOn written).2

end Crowded

/-- A call of one argument takes the candidate at position 256, the only one that is
content with it, and records position 0. Types are deduced, vector operators are written
out and vectors are split without an error. But a component of the call is a call of the
recorded candidate, which is not content with its argument, so that an output comes to
depend on a node of unknown shape. -/
theorem split_leaves_unknown_shape :
    Typing.pass.run.runOn Crowded.graph = (.ok (), Crowded.deduced) ∧
      Vectors.pass.run.runOn Crowded.deduced = (.ok (), Crowded.written) ∧
      (∀ n ∈ Crowded.written.nodes, n.mixes = false) ∧
      Scalars.run.runOn Crowded.written = (.ok (), Crowded.split) ∧
      ∃ id n, Crowded.split.Needs id ∧ Crowded.split.node? id = some n ∧
        n.op = .call [0] [3] ∧ n.shape = Shape.unknown := by
  have houtput : (7 : NodeId) ∈ Crowded.split.outputs := by decide +kernel
  have hchildren : (Crowded.split.node? 7).map Node.children = some [11] := by decide +kernel
  have hcall : (Crowded.split.node? 11).map (fun n => (n.op, n.shape)) =
      some (.call [0] [3], Shape.unknown) := by decide +kernel
  obtain ⟨output, hn, hoperands⟩ := Option.map_eq_some_iff.mp hchildren
  obtain ⟨call, hm, hlook⟩ := Option.map_eq_some_iff.mp hcall
  have hoperand : (11 : NodeId) ∈ output.children := by
    rw [hoperands]
    exact List.mem_singleton_self 11
  refine ⟨runOn_eq (by decide +kernel), runOn_eq (by decide +kernel), by decide +kernel,
    runOn_eq (by decide +kernel), 11, call, ?_, hm, congrArg Prod.fst hlook, congrArg Prod.snd hlook⟩
  exact (Graph.needs_of_mem houtput).operand hn hoperand

end LaneGraph
