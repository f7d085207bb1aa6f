import LaneGraph.Proofs.Closure
import LaneGraph.Proofs.Consistency
import LaneGraph.Proofs.Denotation
import LaneGraph.Proofs.Drafts
import LaneGraph.Proofs.Extraction
import LaneGraph.Proofs.Sharing
import LaneGraph.Proofs.Written

/-!
# The pipeline ends well

A graph that is made by factories passes the pipeline, or is refused for a cause
that lies in the graph: no overload matches, a width cannot be converted, or a
component does not exist. The pipeline never finds a fault of its own making,
and it always ends. What the outputs deliver is followed from the draft to
machine form, if that is wanted.
-/

namespace LaneGraph

open Build

variable {g g' : Graph} {made : List Delivery} {exact tracked simple : Prop}
  {read : String → UInt32}

/-- What a drafted graph delivers. -/
def Graph.deliveries (g : Graph) (read : String → UInt32) : List Delivery :=
  g.outputs.filterMap fun id => (g.channelAt id).map fun channel => ⟨channel, g.value read id⟩

namespace Graph

/-- Values do not depend on the depth of evaluation if it is large enough. -/
theorem valueTo_eq {R : Rules} {w : World} (hs : Sound R g w) (hneed : ∀ op, 1 ≤ R.need op)
    (read : String → UInt32) :
    ∀ (depth depth' : Nat) (id : NodeId), w.live id → (Sound.lower g w id).card < depth →
      (Sound.lower g w id).card < depth' → g.valueTo read depth id = g.valueTo read depth' id := by
  intro depth
  induction depth with
  | zero => intro depth' id _ h; omega
  | succ depth ih =>
    intro depth' id hid h h'
    obtain ⟨depth', rfl⟩ : ∃ d, depth' = d + 1 := ⟨depth' - 1, by omega⟩
    obtain ⟨n, hn, hsound⟩ := hs id hid
    rw [valueTo, valueTo, hn]
    dsimp only
    congr 1
    unfold operandValues
    refine List.map_congr_left fun p hp => ?_
    have hmem : p.1 ∈ n.children := List.fst_mem_of_mem_zipIdx hp
    have hlower := hs.card_lower_lt (hsound.live _ hmem) (hsound.rank_lt (hneed _) hmem)
    dsimp only
    rw [ih depth' p.1 (hsound.live _ hmem) (by omega) (by omega)]

/-- The value of a node follows from those of its operands. -/
theorem value_eq {R : Rules} {w : World} (hs : Sound R g w) (hneed : ∀ op, 1 ≤ R.need op)
    (read : String → UInt32) {id : NodeId} {n : Node} (hid : w.live id)
    (hn : g.node? id = some n) :
    g.value read id = n.meaning read (g.operandValues n (g.value read)) := by
  have hsound := hs.nodeSound hid hn
  have hsize := hs.card_lower_lt_size hid
  unfold value walkDepth
  rw [valueTo, hn]
  dsimp only
  congr 1
  unfold operandValues
  refine List.map_congr_left fun p hp => ?_
  have hmem : p.1 ∈ n.children := List.fst_mem_of_mem_zipIdx hp
  have hlower := hs.card_lower_lt (hsound.live _ hmem) (hsound.rank_lt (hneed _) hmem)
  dsimp only
  rw [valueTo_eq hs hneed read _ (g.nodes.size + 1) p.1 (hsound.live _ hmem) (by omega) (by omega)]

/-- The outputs of a draft matter. -/
theorem Draft.live_output {w : World} (h : g.Draft exact w) {id : NodeId} (hid : id ∈ g.outputs) :
    w.live id := by
  obtain ⟨channel, hchannel⟩ := h.outputs id hid
  obtain ⟨n, -, hn, -⟩ := channelAt_eq_some hchannel
  exact h.live id (lt_size hn)

/-- The outputs of a draft deliver what they are worth, whatever values nodes have. -/
theorem Draft.writes {w : World} (h : g.Draft exact w) (R : Rules) (value : NodeId → Value) :
    Writes R g { w with value := value } g.outputs
      (g.outputs.filterMap fun id => (g.channelAt id).map fun channel => ⟨channel, value id⟩) := by
  have houtputs := h.outputs
  have hlive : ∀ id ∈ g.outputs, w.live id := fun _ => h.live_output
  unfold Writes
  generalize g.outputs = ids at houtputs hlive
  induction ids with
  | nil => exact .nil
  | cons id ids ih =>
    obtain ⟨channel, hchannel⟩ := houtputs id List.mem_cons_self
    rw [List.filterMap_cons, hchannel]
    exact .cons ⟨hlive id List.mem_cons_self, hchannel, fun _ => R.agreement.refl _⟩
      (ih (fun x hx => houtputs x (List.mem_cons_of_mem _ hx))
        fun x hx => hlive x (List.mem_cons_of_mem _ hx))

/-- A draft is a stage before types are deduced. -/
theorem Draft.stage {w : World} (h : g.Draft exact w) (tracked : Prop) (read : String → UInt32) :
    Stage (draftRules exact tracked read) g (g.deliveries read) := by
  have hneed : ∀ op, 1 ≤ (draft exact).need op := fun _ => Nat.le_refl 1
  refine ⟨{ w with value := g.value read }, ?_, h.writes _ _⟩
  intro id hid
  obtain ⟨n, hn, hsound⟩ := h.sound id hid
  refine ⟨n, hn, hsound.fits, hsound.live, hsound.below, fun _ => ?_⟩
  show g.value read id = n.frame.meaning read _
  rw [value_eq h.sound hneed read hid hn, n.meaning_frame]
  unfold operandValues
  rw [List.zip_map', List.zipIdx_map, List.map_map]
  congr 1
  refine List.map_congr_left fun p _ => ?_
  show _ = Value.coerce (n.frame.expected g.functions p.2) (g.shapeAt p.1) (g.value read p.1)
  rw [n.expected_frame]
  rfl

/-- A draft with outputs delivers something. -/
theorem Draft.deliveries_ne_nil {w : World} (h : g.Draft exact w) (hne : g.outputs ≠ [])
    (read : String → UInt32) : g.deliveries read ≠ [] := by
  obtain ⟨w', _, hwrites⟩ := h.stage False read
  intro hnil
  have hlength := hwrites.length_eq
  rw [hnil] at hlength
  exact hne (List.eq_nil_of_length_eq_zero hlength)

/-! ## Drafts whose types are deduced -/

/-- If types were deduced, there were outputs. -/
theorem outputs_ne_nil_of_types (hrun : Typing.pass.run.runOn g = (.ok (), g')) :
    g.outputs ≠ [] := by
  intro hnil
  rw [Typing.pass.runOn_of_no_outputs hnil] at hrun
  cases hrun

/-- Once the types of a draft are deduced, what its outputs depend on fits its operands, and
the outputs write streams. -/
theorem Draft.fits_of_types {w : World} (h : g.Draft exact w)
    (hrun : Typing.pass.run.runOn g = (.ok (), g')) :
    (∀ id, g'.Needs id → ∃ n, g'.node? id = some n ∧
      n.Fits exact g'.functions (n.children.map g'.shapeAt)) ∧
    ∀ id ∈ g'.outputs, ∃ channel, g'.channelAt id = some channel := by
  have hmade := h.deliveries_ne_nil (outputs_ne_nil_of_types hrun) fun _ => 0
  obtain ⟨w', hs, hwrites⟩ := (Typing.pass_ends_loose (fun hf : False => hf.elim)
    (h.stage False fun _ => 0) hmade).of_runOn hrun
  refine ⟨fun id hid => ?_, fun id hid => ?_⟩
  · obtain ⟨n, hn, hsound⟩ := hs id (hs.live_of_needs (fun _ => hwrites.live) hid)
    exact ⟨n, hn, Node.fits_frame.mp hsound.fits.1⟩
  · obtain ⟨k, hk, rfl⟩ := List.getElem_of_mem hid
    obtain ⟨-, hchannel, -⟩ := hwrites.get hk (hwrites.length_eq ▸ hk)
    exact ⟨_, hchannel⟩

/-- Deducing types leaves no cycles. -/
theorem Made.acyclic_of_types (h : g.Made) (hrun : Typing.pass.run.runOn g = (.ok (), g')) :
    g'.Acyclic := by
  have hpass : Typing.pass ∈ Pipeline.passes := by simp [Pipeline.passes]
  obtain ⟨rank, hordered⟩ := (Pipeline.pass_orderly hpass h.orderly).orderly
  rw [hrun] at hordered
  exact hordered.acyclic

/-- A graph that is made by factories is deduced once its types are, and it has no cycles, if
the calls that its outputs depend on are typed. This condition is about calls that record a
candidate other than the one they took, having more than 256 of them, and about candidates
that require more operands than they have inputs. -/
theorem Made.deduced (h : g.Made) (hrun : Typing.pass.run.runOn g = (.ok (), g'))
    (hcalls : ∀ id n, g'.Needs id → g'.node? id = some n → n.op.isCall = true →
      n.Typed g'.functions (n.children.map g'.shapeAt)) : g'.Deduced ∧ g'.Acyclic := by
  obtain ⟨w, hdraft⟩ := h.draft
  obtain ⟨hfits, houtputs⟩ := hdraft.fits_of_types hrun
  refine ⟨⟨fun id hid => ?_, houtputs⟩, h.acyclic_of_types hrun⟩
  obtain ⟨n, hn, hnode⟩ := hfits id hid
  refine ⟨n, hn, ?_⟩
  cases hcall : n.op.isCall with
  | true => exact hcalls id n hid hn hcall
  | false => exact hnode.typed_of_isCall hcall

/-- A graph that is built by factories is deduced once its types are, and it has no cycles:
its calls have at most 256 candidates, and none of these requires more operands than it has
inputs. -/
theorem Built.deduced (h : g.Built) (hrun : Typing.pass.run.runOn g = (.ok (), g')) :
    g'.Deduced ∧ g'.Acyclic := by
  obtain ⟨w, hdraft⟩ := h.draft
  obtain ⟨hfits, houtputs⟩ := hdraft.fits_of_types hrun
  refine ⟨⟨fun id hid => ?_, houtputs⟩, (Made.of_built h).acyclic_of_types hrun⟩
  obtain ⟨n, hn, hnode⟩ := hfits id hid
  exact ⟨n, hn, hnode.typed trivial⟩

end Graph

/-- Nodes may be in a weaker form. -/
theorem Stage.reform {t : TypedRules} {form form' : Node → List Shape → Bool}
    (h : Stage (t.staged form) g made)
    (hform : ∀ n shapes, form n shapes = true → form' n shapes = true) :
    Stage (t.staged form') g made := by
  obtain ⟨w, hs, hwrites⟩ := h
  refine TypedRules.stage_of_forall hs hwrites fun id n hid hn => ?_
  exact hform _ _ (hs.nodeSound hid hn).fits.2.1

namespace Pipeline

/-- A report of a stage changes nothing. -/
theorem report_ends {R : Rules} (h : LaneGraph.Stage R g made) (wanted : Bool) (name : String)
    {post : List Stage → Graph → Prop} (hpost : ∀ stages, post stages g) :
    Ends (report wanted name) g post := by
  obtain ⟨w, hs, hwrites⟩ := h
  obtain ⟨order, horder⟩ := hs.postOrder_total fun id => hwrites.live
  have hcount : g.reachableCount = .ok order.size := by
    unfold Graph.reachableCount
    rw [horder]
    rfl
  unfold report
  split
  · rw [ends_bind, ends_ask hcount, ends_pure]
    exact hpost _
  · exact hpost _

/-- A pass is run and reported. -/
theorem stage_ends {R : Rules} {pass : Pass}
    (h : Ends pass.run g fun _ g' => LaneGraph.Stage R g' made) (wanted : Bool) :
    Ends (stage wanted pass) g fun _ g' => LaneGraph.Stage R g' made := by
  unfold stage
  rw [ends_bind]
  exact h.mono fun _ g' h' => report_ends h' wanted pass.name fun _ => h'

/-- The passes after types are deduced. -/
def afterTyping (wanted : Bool) : Build (List Stage) := do
  let vectors ← stage wanted Vectors.pass
  Scalars.splitInputTable
  let inputs ← stage wanted Scalars.inputPass
  Scalars.splitOutputs
  let outputs ← report wanted "ScalarizeOutputs"
  let swizzles ← stage wanted Scalars.swizzlePass
  let folding ← stage wanted Folding.pass
  let lowering ← stage wanted Lowering.pass
  let refolding ← stage wanted Folding.pass
  Build.forgetRepresentatives
  let sharing ← stage wanted Sharing.pass
  let consistency ← stage wanted Consistency.pass
  return vectors ++ inputs ++ outputs ++ swizzles ++ folding ++ lowering ++ refolding ++ sharing ++
    consistency

/-- The passes up to the one after which every node has an instruction. -/
def upToLowering (wanted : Bool) : Build (List Stage) := do
  let vectors ← stage wanted Vectors.pass
  Scalars.splitInputTable
  let inputs ← stage wanted Scalars.inputPass
  Scalars.splitOutputs
  let outputs ← report wanted "ScalarizeOutputs"
  let swizzles ← stage wanted Scalars.swizzlePass
  let folding ← stage wanted Folding.pass
  let lowering ← stage wanted Lowering.pass
  return vectors ++ inputs ++ outputs ++ swizzles ++ folding ++ lowering

/-- The passes after that. -/
def afterLowering (wanted : Bool) : Build (List Stage) := do
  let refolding ← stage wanted Folding.pass
  Build.forgetRepresentatives
  let sharing ← stage wanted Sharing.pass
  let consistency ← stage wanted Consistency.pass
  return refolding ++ sharing ++ consistency

/-- The lowering divides the passes after the deduction of types. -/
theorem afterTyping_eq (wanted : Bool) :
    afterTyping wanted = do
      let lowering ← upToLowering wanted
      return lowering ++ (← afterLowering wanted) := by
  unfold afterTyping upToLowering afterLowering
  simp only [bind_assoc, pure_bind, List.append_assoc]

/-- The pipeline begins with the deduction of types. -/
theorem run_eq (wanted : Bool) :
    run wanted = do
      let typing ← stage wanted Typing.pass
      return typing ++ (← afterTyping wanted) := by
  unfold run afterTyping
  simp only [bind_assoc, pure_bind, List.append_assoc]

/-- The components of deliveries are scalars. -/
theorem count_le_one {S : Semantics} {d : Delivery} (h : d ∈ made.flatMap (Delivery.partsOf S)) :
    d.channel.format.count ≤ 1 := by
  obtain ⟨whole, -, hd⟩ := List.mem_flatMap.mp h
  unfold Delivery.partsOf at hd
  split at hd
  · rename_i hcount
    rw [List.mem_singleton.mp hd]
    exact hcount
  · obtain ⟨c, -, rfl⟩ := List.mem_map.mp hd
    exact Nat.le_refl 1

/-- There are no fewer components than deliveries. -/
theorem partsOf_ne_nil (S : Semantics) (hne : made ≠ []) :
    made.flatMap (Delivery.partsOf S) ≠ [] := by
  cases made with
  | nil => exact absurd rfl hne
  | cons d rest =>
    rw [List.flatMap_cons]
    refine List.append_ne_nil_of_left_ne_nil ?_ _
    unfold Delivery.partsOf
    split
    · exact List.cons_ne_nil _ _
    · rename_i hcount
      obtain ⟨count, hd⟩ : ∃ count, d.channel.format.count = count + 1 :=
        ⟨d.channel.format.count - 1, by omega⟩
      rw [hd]
      exact List.cons_ne_nil _ _

/-- There are no fewer components than deliveries under an interpretation. -/
theorem parts_ne_nil (hne : made ≠ []) : made.flatMap Delivery.parts ≠ [] := by
  rw [← Delivery.partsOf_semantics (.literal fun _ => 0)]
  exact partsOf_ne_nil _ hne

/-- Vectors are split, and the pipeline goes on with a graph of scalars. -/
theorem split_ends {S : Semantics} {G : Agreement} {α : Type} {post : α → Graph → Prop}
    {rest : List Stage → List Stage → List Stage → Build α}
    (hS : tracked → Separates simple S G) (hne : made ≠ [])
    (h : LaneGraph.Stage ((Scalars.rulesOf tracked simple S G).staged Scalars.unmixed) g made)
    (wanted : Bool) (hrest : ∀ inputs outputs swizzles g', LaneGraph.Stage
      ((Scalars.rulesOf tracked simple S G).staged fun n _ => n.narrow) g'
        (made.flatMap (Delivery.partsOf S)) → Ends (rest inputs outputs swizzles) g' post) :
    Ends (do
      Scalars.splitInputTable
      let inputs ← stage wanted Scalars.inputPass
      Scalars.splitOutputs
      let outputs ← report wanted "ScalarizeOutputs"
      let swizzles ← stage wanted Scalars.swizzlePass
      rest inputs outputs swizzles) g post := by
  rw [ends_bind]
  refine (Scalars.splitInputTable_ends h).mono fun _ g₁ ⟨_, h₁⟩ => ?_
  rw [ends_bind]
  refine (stage_ends ((Scalars.inputPass_ends hS h₁ hne).mono fun _ _ h => h.2) wanted).mono
    fun inputs g₂ h₂ => ?_
  rw [ends_bind]
  refine (Scalars.splitOutputs_ends hS h₂).mono fun _ g₃ ⟨_, _, _, h₃⟩ => ?_
  rw [ends_bind]
  refine report_ends h₃ wanted _ fun outputs => ?_
  rw [ends_bind]
  exact (stage_ends ((Scalars.swizzlePass_ends hS h₃ (partsOf_ne_nil S hne) fun _ hd =>
    count_le_one hd).mono fun _ _ h => h.2) wanted).mono fun swizzles g₄ h₄ =>
      hrest inputs outputs swizzles g₄ h₄

/-- The literals of the program are one interpretation. -/
theorem staged_literal (tracked simple : Prop) (read : String → UInt32)
    (form : Node → List Shape → Bool) :
    (Vectors.rules tracked simple (.literal read)).staged form =
      (Scalars.rules tracked simple (Interpretation.literal read) .equal).staged form := by
  unfold Vectors.rules Scalars.rules Scalars.rulesOf
  rw [Semantics.literal_eq]
  rfl

/-- A typed graph is lowered, or refused. -/
theorem upToLowering_ends (htracked : tracked → simple) (hne : made ≠ [])
    (h : LaneGraph.Stage ((Vectors.rules tracked simple (.literal read)).staged fun _ _ => true) g made)
    (wanted : Bool) :
    Ends (upToLowering wanted) g fun _ g' => LaneGraph.Stage
      (Folding.rules tracked simple read true).rules g' (made.flatMap Delivery.parts) := by
  have hparts := parts_ne_nil hne
  have htolerant : Scalars.Tolerant tracked simple (Interpretation.literal read) .equal :=
    fun ht => .inr ⟨htracked ht, Interpretation.literal_strict read⟩
  unfold upToLowering
  rw [ends_bind]
  refine (stage_ends (Vectors.pass_ends (fun _ => Vectors.written_literal read)
    (fun _ _ _ => trivial) h hne) wanted).mono fun _ g₁ h₁ => ?_
  rw [staged_literal] at h₁
  refine split_ends (S := (Interpretation.literal read).semantics)
    (Scalars.separates (Interpretation.literal_splitsStreams read) htolerant) hne h₁ wanted
    fun inputs outputs swizzles g₅ h₅ => ?_
  rw [Delivery.partsOf_semantics] at h₅
  change LaneGraph.Stage ((Scalars.rules tracked simple (Interpretation.literal read) .equal).staged
    fun n _ => n.narrow) g₅ _ at h₅
  rw [← staged_literal] at h₅
  rw [ends_bind]
  have hfold : LaneGraph.Stage (Folding.rules tracked simple read false).rules g₅
      (made.flatMap Delivery.parts) := by
    refine Stage.reform (t := Folding.rules tracked simple read false) h₅ fun n shapes hn => ?_
    unfold Folding.form
    rw [hn]
    rfl
  refine (stage_ends (Folding.pass_ends htracked hfold hparts) wanted).mono fun _ g₆ h₆ => ?_
  rw [ends_bind]
  have hnarrow : LaneGraph.Stage ((Lowering.rules tracked simple read).staged fun n _ => n.narrow) g₆
      (made.flatMap Delivery.parts) :=
    Stage.reform (t := Lowering.rules tracked simple read) h₆
      fun n shapes hn => Folding.narrow_of_form hn
  exact stage_ends (Lowering.pass_ends htracked hnarrow hparts) wanted

/-- Lowered graphs stay in the form in which every node has an instruction. -/
theorem afterLowering_ends (htracked : tracked → simple) (hne : made ≠ [])
    (h : LaneGraph.Stage (Folding.rules tracked simple read true).rules g made) (wanted : Bool) :
    Ends (afterLowering wanted) g fun _ g' => LaneGraph.Stage
      (Folding.rules tracked simple read true).rules g' made := by
  unfold afterLowering
  rw [ends_bind]
  refine (stage_ends (Folding.pass_ends htracked h hne) wanted).mono fun _ g₈ h₈ => ?_
  rw [ends_bind]
  unfold Build.forgetRepresentatives
  rw [ends_modify, ends_bind]
  refine (stage_ends (Sharing.pass_ends htracked rfl h₈.forget hne) wanted).mono
    fun _ g₉ h₉ => ?_
  rw [ends_bind]
  have hencodable : ∀ n shapes, Folding.form true n shapes = true → n.encodable shapes = true := by
    intro n shapes hn
    unfold Folding.form at hn
    rw [Bool.and_eq_true] at hn
    exact hn.2
  exact stage_ends (Consistency.pass_ends rfl hencodable h₉ hne trivial) wanted

/-- A typed graph is brought into machine form, or refused. -/
theorem afterTyping_ends (htracked : tracked → simple) (hne : made ≠ [])
    (h : LaneGraph.Stage ((Vectors.rules tracked simple (.literal read)).staged fun _ _ => true) g made)
    (wanted : Bool) :
    Ends (afterTyping wanted) g fun _ g' => LaneGraph.Stage
      (Folding.rules tracked simple read true).rules g' (made.flatMap Delivery.parts) := by
  rw [afterTyping_eq, ends_bind]
  refine (upToLowering_ends htracked hne h wanted).mono fun _ g' h' => ?_
  rw [ends_bind]
  exact afterLowering_ends htracked (parts_ne_nil hne) h' wanted

/-- A draft whose types can be deduced is brought into machine form, or refused. -/
theorem run_ends_of_typing (htracked : tracked → simple) (hne : made ≠ [])
    (h : Ends Typing.pass.run g fun _ g' =>
      LaneGraph.Stage ((Vectors.rules tracked simple (.literal read)).staged fun _ _ => true) g' made)
    (wanted : Bool) :
    Ends (run wanted) g fun _ g' => LaneGraph.Stage
      (Folding.rules tracked simple read true).rules g' (made.flatMap Delivery.parts) := by
  rw [run_eq, ends_bind]
  refine (stage_ends h wanted).mono fun _ g₁ h₁ => ?_
  rw [ends_bind]
  exact afterTyping_ends htracked hne h₁ wanted

/-- A draft is brought into machine form, or refused. -/
theorem run_ends {w : World} (h : g.Draft True w) (hne : g.outputs ≠ []) (wanted : Bool) :
    Ends (run wanted) g fun _ g' => LaneGraph.Stage
      (Folding.rules False False (fun _ => 0) true).rules g'
      ((g.deliveries fun _ => 0).flatMap Delivery.parts) := by
  have hmade := h.deliveries_ne_nil hne fun _ => 0
  exact run_ends_of_typing id hmade (Typing.pass_ends (h.stage False fun _ => 0) hmade) wanted

end Pipeline

/-- A graph that is made by factories and has an output passes the pipeline, or is
refused because no overload matches, a width cannot be converted, a cross product
does not have three components, a component does not exist, or components of an
output or none at all are selected. No other error occurs, no node is missing, and
no sweep goes on for too long. Calls have at most 256 candidates, and no candidate
requires more operands than it has inputs. -/
theorem pipeline_ends_or_refuses (g : Graph) (h : g.Built) (houtput : g.outputs ≠ [])
    (wanted : Bool) :
    (∃ stages, ((Pipeline.run wanted).runOn g).1 = .ok stages) ∨
      ∃ e, ((Pipeline.run wanted).runOn g).1 = .error e ∧ e.IsRefusal := by
  obtain ⟨w, hdraft⟩ := h.draft
  have hends := Pipeline.run_ends hdraft houtput wanted
  unfold Build.Ends at hends
  cases hrun : (Pipeline.run wanted).runOn g with
  | mk result g' =>
    rw [hrun] at hends
    cases result with
    | ok stages => exact .inl ⟨stages, rfl⟩
    | error e => exact .inr ⟨e, rfl, hends⟩

namespace Refused

/-- A stream with two components is read. -/
def reading : Graph where
  nodes := #[{ op := .input ⟨"a", .of .int 2⟩, shape := ⟨.int, 2⟩, inputWidth := 1 }]
  inputs := [⟨"a", .of .int 2⟩]

/-- The stream is written to one with three components. -/
def graph : Graph where
  nodes := reading.nodes.push
    { op := .output ⟨"r", .of .int 3⟩ 0, shape := ⟨.int, 3⟩, inputWidth := 2 }
  outputs := [1]
  inputs := reading.inputs

/-- The graph is made by two factories. -/
theorem built : graph.Built := by
  have hreading : reading.Built := .made .empty (.input "a" .int 2) rfl
  have hwriting : Factory reading (Build.output ⟨"r", .of .int 3⟩ 0) :=
    .output "r" .int 3 (by decide)
  exact .made hreading hwriting rfl

end Refused

/-- Two components are not converted to three. -/
theorem pipeline_refuses_widening :
    Refused.graph.Built ∧ Refused.graph.outputs ≠ [] ∧
      ((Pipeline.run false).runOn Refused.graph).1 =
        .error (.implicitConversion ⟨.int, 2⟩ ⟨.int, 3⟩) ∧
      ((∃ stages, ((Pipeline.run false).runOn Refused.graph).1 = .ok stages) ∨
        ∃ e, ((Pipeline.run false).runOn Refused.graph).1 = .error e ∧ e.IsRefusal) :=
  ⟨Refused.built, by decide, by decide,
    pipeline_ends_or_refuses Refused.graph Refused.built (by decide) false⟩

namespace Demanding

/-- A function of one input that demands two arguments. -/
def signature : Signature where
  name := "f"
  inputs := [.float]
  output := .float
  required := 2

/-- A stream of numbers or of vectors is read. -/
def reading (width : Nat) : Graph := ((Build.input ⟨"a", .of .float width⟩).runOn {}).2

/-- The function is called with the stream as both of its arguments. -/
def calling (width : Nat) : Graph := ((Build.call [signature] [0, 0]).runOn (reading width)).2

/-- The result is written. -/
def graph (width : Nat) : Graph :=
  ((Build.output ⟨"r", .of .float width⟩ 1).runOn (calling width)).2

/-- The graph is made by three factories, whatever the width. -/
theorem calls_made (width : Nat) (h : 1 < (calling width).nodes.size) : (graph width).Made := by
  have hreading : (reading width).Made := .factory .empty (.input "a" .float width)
  have hcalling : (calling width).Made := .call [signature] hreading fun x hx => by
    have hx : x = 0 := by simpa using hx
    rw [hx]
    exact Nat.zero_lt_one
  exact .factory hcalling (.output "r" .float width (x := 1) h)

end Demanding

/-- A candidate that requires more operands than it has inputs is taken by a call of two
arguments, of which it keeps one, so that it has too few in the end. If the arguments are
vectors, no call of their components is resolved, and neither is what is written. -/
theorem pipeline_finds_demanding_call :
    ((Demanding.graph 1).Made ∧ (Demanding.graph 1).outputs ≠ [] ∧
      ((Pipeline.run false).runOn (Demanding.graph 1)).1 = .error (.notEnoughArguments "f" 2 1)) ∧
    ((Demanding.graph 2).Made ∧ (Demanding.graph 2).outputs ≠ [] ∧
      ((Pipeline.run false).runOn (Demanding.graph 2)).1 =
        .error (.argumentMismatch "Output 'r.x'" 0 ⟨.float, 1⟩ Shape.unknown)) ∧
    ¬GraphError.IsRefusal (.notEnoughArguments "f" 2 1) ∧
    ¬GraphError.IsRefusal (.argumentMismatch "Output 'r.x'" 0 ⟨.float, 1⟩ Shape.unknown) := by
  exact ⟨⟨Demanding.calls_made 1 (by decide +kernel), by decide +kernel, by decide +kernel⟩,
    ⟨Demanding.calls_made 2 (by decide +kernel), by decide +kernel, by decide +kernel⟩, id, id⟩

end LaneGraph
