import LaneGraph.Proofs.Acceptance
import LaneGraph.Proofs.Residue

/-!
# What is left after folding

The second folding leaves no rule to apply, sharing replaces operands by equal ones and the
final check changes nothing. So a graph that passes the pipeline has literals only where no
rule applies: no operator is left with literals alone, no choice has a literal as its
condition, and a literal stands on the right if it may. None of this depends on what the
passes know of calls, of which some are not resolved when they are made. If the outputs
depend on no stream and no call, folding has nothing to stop at. Then every output is a
literal, and the program does no more than store them.
-/

namespace LaneGraph

open Build Emission

variable {g : Graph} {made : List Delivery}

namespace Graph

/-- Literals stand only where folding leaves them. -/
structure FoldedForm (g : Graph) : Prop where
  /-- The operand of an operator is no literal. -/
  unary : ∀ (id : NodeId) (n : Node) (op : UnaryOp) (x : NodeId), g.Needs id →
    g.node? id = some n → n.op = .unary op x → g.isLiteral x = false
  /-- Not both operands of an operator are literals. -/
  binary : ∀ (id : NodeId) (n : Node) (op : BinaryOp) (x y : NodeId), g.Needs id →
    g.node? id = some n → n.op = .binary op x y → ¬(g.isLiteral x = true ∧ g.isLiteral y = true)
  /-- The condition of a choice is no literal. -/
  select : ∀ (id : NodeId) (n : Node) (condition x y : NodeId), g.Needs id →
    g.node? id = some n → n.op = .ternary .select condition x y → g.isLiteral condition = false
  /-- If operands may change places, there is no literal on the left of an operand that
  is none. -/
  turned : ∀ (id : NodeId) (n : Node) (op : BinaryOp) (x y : NodeId), g.Needs id →
    g.node? id = some n → n.op = .binary op x y →
    op.isCommutative = true ∨ op ∈ [.less, .lessEqual, .greater, .greaterEqual] →
    ¬(g.isLiteral x = true ∧ g.isLiteral y = false)

/-- A graph as the pipeline leaves it: it is in order, no rule of folding applies to what the
outputs depend on, and the final check lets all of it pass. -/
structure Finished (g : Graph) : Prop where
  orderly : Orderly Streams.all g
  done : g.Obeys Done
  checked : ∀ id, g.Needs id → Consistency.check g id = .ok ()

/-- The outputs depend on no stream and no call. -/
def SelfContained (g : Graph) : Prop :=
  ∀ (id : NodeId) (n : Node), g.Needs id → g.node? id = some n →
    (∀ channel, n.op ≠ .input channel) ∧ ∀ candidates arguments, n.op ≠ .call candidates arguments

/-- A binary operator is folded if it has no literal on the left, or none on the right
and its operands may not change places. -/
theorem folded_binary {n : Node} {op : BinaryOp} {x y : NodeId} (hop : n.op = .binary op x y) :
    g.folded n = (!g.isLiteral x || (!g.isLiteral y && !op.turns)) := by
  unfold folded Node.children
  rw [hop]
  rfl

/-- Folded nodes have literals only where folding leaves them. -/
theorem FullyFolded.form (h : g.FullyFolded) : g.FoldedForm where
  unary id n op x hid hn hop := by
    have hfolded := h id n hid hn
    unfold folded Node.children at hfolded
    rw [hop] at hfolded
    exact (Bool.not_eq_true' _).mp hfolded
  binary id n op x y hid hn hop := by
    rintro ⟨hx, hy⟩
    have hfolded := h id n hid hn
    rw [folded_binary hop, hx, hy] at hfolded
    cases hfolded
  select id n condition x y hid hn hop := by
    have hfolded := h id n hid hn
    unfold folded Node.children at hfolded
    rw [hop] at hfolded
    exact (Bool.not_eq_true' _).mp hfolded
  turned id n op x y hid hn hop hturns := by
    rintro ⟨hx, hy⟩
    have hturns' : op.turns = true := by
      cases op <;> first | rfl | simp [BinaryOp.isCommutative] at hturns
    have hfolded := h id n hid hn
    rw [folded_binary hop, hx, hy, hturns'] at hfolded
    cases hfolded

/-- A graph that the pipeline leaves is folded. -/
theorem Finished.folded (h : g.Finished) : g.FullyFolded :=
  fullyFolded_of_check h.orderly h.done h.checked

/-- Neither a selection nor a constructor is left. -/
theorem Finished.scalar (h : g.Finished) {id : NodeId} {n : Node} (hid : g.Needs id)
    (hn : g.node? id = some n) :
    n.selects = false ∧ ∀ arguments, n.op ≠ .construct arguments := by
  obtain ⟨m, hm, hmeets⟩ := h.done id hid
  rw [hn] at hm
  cases hm
  refine ⟨(meets_slim.mp (meets_done.mp hmeets).1).2.1, fun arguments hop => ?_⟩
  have hcheck := (Consistency.check_eq_ok hn (h.checked id hid)).1
  unfold Consistency.checkNode at hcheck
  rw [hop] at hcheck
  split at hcheck <;> cases hcheck

/-- What is needed of a graph that the pipeline leaves and that depends on no stream is a
literal, apart from the outputs themselves. -/
theorem Finished.literal (h : g.Finished) (hunread : g.OutputsUnread) (hself : g.SelfContained)
    {id : NodeId} {n : Node} (hid : g.Needs id) (hn : g.node? id = some n)
    (hout : n.isOutput = false) : g.isLiteral id = true := by
  obtain ⟨rank, hordered⟩ := h.orderly
  induction hrank : rank id using Nat.strong_induction_on generalizing id n with
  | h top ih =>
    have hnode := hordered.node hn
    have hliterals : ∀ c ∈ n.children, g.isLiteral c = true := by
      intro c hc
      obtain ⟨m, hm⟩ := exists_node (hnode.child c hc)
      obtain ⟨output, houtput, hpath⟩ := hid
      have hlt : rank c < top := by
        have hbelow := hnode.below c hc
        have hroom := n.op.room_bounds.1
        omega
      exact ih _ hlt ⟨output, houtput, hpath.tail ⟨n, hn, hc⟩⟩ hm
        (hunread id n ⟨output, houtput, hpath⟩ hn c hc m hm) rfl
    obtain ⟨hinput, hcall⟩ := hself id n hid hn
    obtain ⟨hselects, hconstruct⟩ := h.scalar hid hn
    have hfolded := h.folded id n hid hn
    unfold Graph.folded at hfolded
    unfold Node.children at hliterals hfolded
    rw [List.map_congr_left hliterals] at hfolded
    rw [isLiteral_eq hn]
    unfold Node.constant?
    unfold Node.isOutput at hout
    cases hop : n.op with
    | constant c => rfl
    | output channel source =>
      rw [hop] at hout
      cases hout
    | input channel => exact absurd hop (hinput channel)
    | call candidates arguments => exact absurd hop (hcall candidates arguments)
    | swizzle components source =>
      exact absurd ((Node.selects_iff.mpr ⟨components, source, hop⟩).symm.trans hselects) Bool.noConfusion
    | construct arguments => exact absurd hop (hconstruct arguments)
    | unary | binary =>
      rw [hop] at hfolded
      cases hfolded
    | ternary op a b c =>
      rw [hop] at hfolded
      by_cases hselect : op = .select
      all_goals simp [Operation.folded, Operation.children, hselect] at hfolded

/-- An output whose operand is a literal reads no register. -/
theorem readOperands_output {n : Node} {channel : Channel} {source : NodeId}
    (hop : n.op = .output channel source) (h : g.isLiteral source = true) :
    g.readOperands n = [] := by
  have hchildren : n.children = [source] := by
    unfold Node.children
    rw [hop]
    rfl
  have hheld : g.holdsOperand n.op 0 source = true := by
    rw [hop]
    exact h
  unfold readOperands
  rw [hchildren]
  simp [hheld]

/-- A node is the output of a literal. -/
def StoresLiteral (g : Graph) (id : NodeId) : Prop :=
  ∃ n channel source, g.node? id = some n ∧ n.op = .output channel source ∧
    g.isLiteral source = true

/-- The outputs of a graph that the pipeline leaves and that depends on no stream are
literals. -/
theorem Finished.storesLiteral (h : g.Finished) (hunread : g.OutputsUnread)
    (hself : g.SelfContained) {id : NodeId} (hid : id ∈ g.outputs) : g.StoresLiteral id := by
  have hneeds : g.Needs id := ⟨id, hid, .refl⟩
  obtain ⟨rank, hordered⟩ := h.orderly
  obtain ⟨n, hn, hout⟩ := hordered.outputs id hid
  obtain ⟨channel, source, hop⟩ : ∃ channel source, n.op = .output channel source := by
    unfold Node.isOutput at hout
    split at hout
    · exact ⟨_, _, ‹_›⟩
    · cases hout
  have hsource := (Node.mem_children hop).mpr (List.mem_singleton_self source)
  obtain ⟨m, hm⟩ := exists_node ((hordered.node hn).child source hsource)
  exact ⟨n, channel, source, hn, hop, h.literal hunread hself
    ⟨id, hid, .tail .refl ⟨n, hn, hsource⟩⟩ hm (hunread id n hneeds hn source hsource m hm)⟩

/-- The schedule of a graph that the pipeline leaves is made from a line of nodes. -/
theorem Finished.lines (h : g.Finished) {s : Schedule} (hschedule : Schedule.ofGraph g = .ok s) :
    ∃ order, s.Lines g order := by
  obtain ⟨rank, hordered⟩ := h.orderly
  refine Schedule.lines_of_closed hordered.acyclic (fun _ _ hn => (hordered.node hn).child)
    (fun id hid => ?_) hschedule
  obtain ⟨n, hn, -⟩ := hordered.outputs id hid
  exact lt_size hn

end Graph

/-- If all outputs are literals, nothing else stands in the line. -/
theorem Schedule.Lines.storesLiteral {s : Schedule} {order : List NodeId} (h : s.Lines g order)
    (houtputs : ∀ id ∈ g.outputs, g.StoresLiteral id) : ∀ id ∈ order, g.StoresLiteral id := by
  intro id hid
  obtain ⟨root, hroot, hreach⟩ := (h.reached id).mp hid
  clear hid
  induction hreach with
  | refl => exact houtputs root hroot
  | tail _ hstep ih =>
    -- An output of a literal has no operand that would stand in the line before it.
    obtain ⟨n, channel, source, hn, hop, hliteral⟩ := ih
    obtain ⟨next, hnext, hmem⟩ := hstep
    obtain ⟨m, hm, rfl, -⟩ := scheduledOperands_eq_ok hnext
    rw [hn] at hm
    cases hm
    rw [Graph.readOperands_output hop hliteral] at hmem
    cases hmem

namespace Pipeline

/-- A report of a stage changes nothing. -/
theorem report_any (wanted : Bool) (name : String) :
    Ends (report wanted name) g (fun _ g' => g' = g) fun _ => True := by
  unfold report
  split
  · rw [ends_bind, ends_ask_any]
    exact fun _ _ => rfl
  · exact rfl

/-- A pass that is run and reported leaves the graph that it leaves alone. -/
theorem stage_any {pass : Pass} (post : Graph → Prop)
    (h : Ends pass.run g (fun _ g' => post g') fun _ => True) (wanted : Bool) :
    Ends (stage wanted pass) g (fun _ g' => post g') fun _ => True := by
  unfold stage
  rw [ends_bind]
  exact h.mono fun _ g' h' => (report_any wanted pass.name).mono fun _ _ hsame => hsame ▸ h'

/-- What a pass achieves holds along with the order of the arena. -/
theorem stage_orderly_and {pass : Pass} (hpass : pass ∈ passes) (h : Orderly Streams.all g)
    {post : Graph → Prop} (hpost : Ends pass.run g (fun _ g' => post g') fun _ => True)
    (wanted : Bool) :
    Ends (stage wanted pass) g (fun _ g' => Orderly Streams.all g' ∧ post g') fun _ => True :=
  stage_any (fun g' => Orderly Streams.all g' ∧ post g') ((pass_orderly hpass h).ends.and hpost)
    wanted

/-- Splitting streams and resolving selections leaves scalars. -/
theorem split_slim {S : Semantics} {G : Agreement} {α : Type} {post : α → Graph → Prop}
    {rest : List Stage → List Stage → List Stage → Build α} (horderly : Orderly Streams.all g)
    (hne : made ≠ []) (h : LaneGraph.Stage ((Scalars.rulesOf False False S G False).staged
      Scalars.unmixed) g made) (wanted : Bool)
    (hrest : ∀ inputs outputs swizzles g', Orderly Streams.all g' → g'.Obeys Slim →
      Ends (rest inputs outputs swizzles) g' post fun _ => True) :
    Ends (do
      Scalars.splitInputTable
      let inputs ← stage wanted Scalars.inputPass
      Scalars.splitOutputs
      let outputs ← report wanted "ScalarizeOutputs"
      let swizzles ← stage wanted Scalars.swizzlePass
      rest inputs outputs swizzles) g post fun _ => True := by
  have hmem : Scalars.splitInputTable ∈ transforms := by simp [transforms]
  have htable := (transform_orderly hmem horderly).ends
  rw [ends_bind]
  refine (htable.and (Scalars.splitInputTable_ends h).any).mono ?_
  rintro - g₁ ⟨ho₁, -, h₁⟩
  rw [ends_bind]
  have hinputs := (Scalars.inputPass_ends (fun hf => hf.elim) h₁ hne).any
  refine (stage_orderly_and (by simp [passes]) ho₁ (hinputs.mono fun _ _ h => h.2) wanted).mono ?_
  rintro inputs g₂ ⟨ho₂, h₂⟩
  rw [ends_bind]
  refine ((Scalars.splitOutputs_orderly ho₂).ends.and
    (Scalars.splitOutputs_ends (fun hf => hf.elim) h₂).any).mono ?_
  rintro - g₃ ⟨ho₃, -, -, -, h₃⟩
  rw [ends_bind]
  refine (report_any wanted _).mono ?_
  rintro outputs g₃' rfl
  rw [ends_bind]
  have hslims := Scalars.swizzlePass_slims ho₃ h₃.tapers (h₃.narrow_outputs fun _ hd => count_le_one hd)
  refine (stage_orderly_and (by simp [passes]) ho₃ hslims wanted).mono ?_
  rintro swizzles g₄ ⟨ho₄, h₄⟩
  exact hrest inputs outputs swizzles g₄ ho₄ h₄

/-- A typed graph, in which little may be known of calls, is lowered to scalars. -/
theorem upToLowering_slim (horderly : Orderly Streams.all g) (hne : made ≠ [])
    (h : LaneGraph.Stage (Typing.looseRules False False (.literal fun _ => 0)) g made)
    (wanted : Bool) :
    Ends (upToLowering wanted) g (fun _ g' => Orderly Streams.all g' ∧ g'.Obeys Slim)
      fun _ => True := by
  unfold upToLowering
  rw [ends_bind]
  have hwritten : Ends Vectors.pass.run g (fun _ g' => LaneGraph.Stage
      ((Vectors.rules False False (.literal fun _ => 0) true False).staged fun n _ => !n.mixes)
        g' made) fun _ => True :=
    Vectors.pass_ends (fun hf : False => hf.elim) (fun _ _ _ => trivial) h hne
  refine (stage_orderly_and (by simp [passes]) horderly hwritten wanted).mono ?_
  rintro vectors g₁ ⟨ho₁, h₁⟩
  refine split_slim (G := .equal) ho₁ hne h₁ wanted fun inputs outputs swizzles g₂ ho₂ h₂ => ?_
  rw [ends_bind]
  refine (stage_orderly_and (by simp [passes]) ho₂ (Folding.pass_done ho₂ h₂) wanted).mono ?_
  rintro folding g₃ ⟨ho₃, h₃⟩
  rw [ends_bind]
  have hslim := h₃.imp fun _ _ _ hdone => hdone.slim
  exact stage_orderly_and (by simp [passes]) ho₃ (Lowering.pass_slim ho₃ hslim) wanted

/-- The passes after the lowering leave nothing to fold. -/
theorem afterLowering_finished (horderly : Orderly Streams.all g) (h : g.Obeys Slim)
    (wanted : Bool) :
    Ends (afterLowering wanted) g (fun _ g' => g'.Finished) fun _ => True := by
  unfold afterLowering
  rw [ends_bind]
  refine (stage_orderly_and (by simp [passes]) horderly (Folding.pass_done horderly h) wanted).mono ?_
  rintro folding g₁ ⟨ho₁, h₁⟩
  rw [ends_bind]
  have hmem : forgetRepresentatives ∈ transforms := by simp [transforms]
  have hforget := (transform_orderly hmem ho₁).ends
  have hkept : Ends forgetRepresentatives g₁ (fun _ g' => g'.representatives = [] ∧ g'.Obeys Done)
      fun _ => True := ⟨rfl, h₁⟩
  refine (hforget.and hkept).mono ?_
  rintro - g₂ ⟨ho₂, hnone, h₂⟩
  rw [ends_bind]
  refine (stage_orderly_and (by simp [passes]) ho₂ (Sharing.pass_done hnone ho₂ h₂) wanted).mono ?_
  rintro sharing g₃ ⟨ho₃, h₃⟩
  rw [ends_bind]
  refine (stage_any Graph.Finished ?_ wanted).mono fun _ _ hfinished => hfinished
  refine (Consistency.pass_idle.run rfl).mono ?_
  rintro - g' ⟨rfl, hchecked⟩
  exact ⟨ho₃, h₃, hchecked⟩

/-- A draft that passes the pipeline is finished. -/
theorem run_finished {w : World} (horderly : Orderly Streams.all g) (h : g.Draft False w)
    (hne : g.outputs ≠ []) (wanted : Bool) :
    Ends (run wanted) g (fun _ g' => g'.Finished) fun _ => True := by
  have hmade := h.deliveries_ne_nil hne fun _ => 0
  have htyped := (Typing.pass_ends_loose (fun hf : False => hf.elim) (h.stage False fun _ => 0) hmade).any
  rw [run_eq, ends_bind]
  refine (stage_orderly_and (by simp [passes]) horderly htyped wanted).mono ?_
  rintro typing g₁ ⟨ho₁, h₁⟩
  rw [ends_bind, afterTyping_eq, ends_bind]
  refine (upToLowering_slim ho₁ hmade h₁ wanted).mono ?_
  rintro lowering g₂ ⟨ho₂, h₂⟩
  rw [ends_bind]
  exact afterLowering_finished ho₂ h₂ wanted

end Pipeline

/-- The program has no registers, and all that it does is to store literals. -/
structure Program.StoresOnly (p : Program) : Prop where
  /-- There are no registers. -/
  registers : p.registerCount = 0
  /-- Each instruction stores a literal. -/
  stores : ∀ e ∈ p.instructions, ∃ transfer output constant,
    e.bind Encoded.instruction = .ok (.storeConst transfer output constant)

/-- A line in which nothing stands but outputs of literals has no values. -/
theorem Schedule.Faithful.intervals_eq {order : List NodeId} {s : Schedule}
    (h : Schedule.Faithful g order s) (hsteps : ∀ step ∈ s.steps, g.StoresLiteral step.node) :
    s.intervals = #[] := by
  rw [Array.eq_empty_iff_size_eq_zero]
  by_contra hne
  have hstep := h.step 0 _ (Array.getElem?_eq_getElem (Nat.pos_of_ne_zero hne))
  have hmem := List.mem_of_getElem? hstep
  obtain ⟨n, channel, source, hn, hop, -⟩ := hsteps _ hmem
  obtain ⟨m, hm, hnone⟩ := h.outputs _ hmem
  rw [hn] at hm
  cases hm
  have hout : n.isOutput = true := by
    unfold Node.isOutput
    rw [hop]
  cases hnone.mpr hout

/-- The program of such a line stores literals. -/
theorem Emission.storesOnly {order : List NodeId} {s : Schedule}
    (h : Schedule.Faithful g order s) (hsteps : ∀ step ∈ s.steps, g.StoresLiteral step.node)
    {p : Program} (hp : program (s.source g) = .ok p) : p.StoresOnly := by
  obtain ⟨is, t, hcode, -, -, -, hregisters, -, hcarry⟩ := program_eq_ok hp
  have hstores : ∀ i ∈ is, ∃ transfer output constant, i = .storeConst transfer output constant := by
    intro i hi
    obtain ⟨k, hk⟩ := List.getElem?_of_mem hi
    obtain ⟨step, n, hstep, hn, hreal⟩ := Schedule.Lined.instruction_at hcarry hk
    obtain ⟨n', channel, source, hn', hop, hliteral⟩ := hsteps step (List.mem_of_getElem? hstep)
    rw [hn] at hn'
    cases hn'
    cases hreal with
    | storeConst => exact ⟨_, _, _, rfl⟩
    | store op _ read _ =>
      rw [hop] at op
      cases op
      rw [show (s.source g).graph.readOperands n = [] from
        Graph.readOperands_output hop hliteral] at read
      cases read
    | move op _ | load op _ | apply op _ _ | combine op _ _ _ _ | combineConst op _ _ _ _ _
    | select op _ _ _ | call op _ _ _ =>
      rw [hop] at op
      cases op
  have hread : p.instructions = Instruction.placed 0 is := by
    unfold Program.instructions
    rw [hcode]
    refine Instruction.readAll_encode is fun i hi => ?_
    obtain ⟨transfer, output, constant, rfl⟩ := hstores i hi
    trivial
  constructor
  · rw [hregisters]
    unfold Schedule.source
    rw [h.intervals_eq hsteps]
    simp [Allocation.ofIntervals, Allocation.byStart, Allocation.assign]
  · intro e he
    have hdecoded : e.bind Encoded.instruction ∈ p.instructions.map (·.bind Encoded.instruction) :=
      List.mem_map_of_mem he
    rw [hread, Instruction.map_instruction_placed] at hdecoded
    obtain ⟨i, hi, heq⟩ := List.mem_map.mp hdecoded
    obtain ⟨transfer, output, constant, rfl⟩ := hstores i hi
    exact ⟨transfer, output, constant, heq.symm⟩

/-- A graph that is made by factories and passes the pipeline is in folded form: no
operator that the outputs depend on has literals alone, no choice has a literal as its
condition, and no operand that is a literal stands on the left of one that is none if
they may change places. If it is compiled besides and its outputs depend on no stream
and no call, the program stores literals and does nothing else, without a register. -/
theorem pipeline_folds_constants (config : CompilerConfig) (g : Graph) (h : g.Made)
    (stages : List Pipeline.Stage) (g' : Graph)
    (hrun : (Pipeline.run config.tracePasses).runOn g = (.ok stages, g')) :
    g'.FoldedForm ∧ ∀ p, (Compiler.compile config g).1 = .ok p → g'.SelfContained →
      p.StoresOnly := by
  obtain ⟨w, hdraft⟩ := h.draft
  have houtputs : g.outputs ≠ [] := by
    intro hnone
    obtain ⟨g₁, htyped⟩ := Pipeline.typing_of_run hrun
    rw [Typing.pass.runOn_of_no_outputs hnone] at htyped
    cases htyped
  have hfinished := (Pipeline.run_finished h.orderly hdraft houtputs config.tracePasses).of_runOn hrun
  refine ⟨hfinished.folded.form, fun p hp hself => ?_⟩
  obtain ⟨-, stages', s, hrun', hschedule, hprogram⟩ := Compiler.compile_eq_ok hp
  rw [hrun] at hrun'
  obtain ⟨-, hgraph⟩ := Prod.mk.inj hrun'
  rw [← hgraph] at hschedule hprogram
  obtain ⟨order, hlines⟩ := hfinished.lines hschedule
  have hunread := Emission.unread_of_program hlines hprogram
  have hall := hlines.storesLiteral fun id hid => hfinished.storesLiteral hunread hself hid
  obtain ⟨rfl, hlisted, -⟩ := hlines
  have hfaithful := Schedule.foldl_append_faithful hlisted
  refine Emission.storesOnly hfaithful (fun step hstep => hall _ ?_) hprogram
  rw [← hfaithful.nodes]
  exact List.mem_map_of_mem hstep

/-- A graph is self-contained if none of its nodes reads a stream or calls. -/
theorem Graph.selfContained_of_all
    (h : (g.nodes.all fun n => match n.op with
      | .input _ | .call _ _ => false
      | _ => true) = true) : g.SelfContained := by
  intro id n _ hn
  have hall := Array.all_eq_true_iff_forall_mem.mp h n (Array.mem_of_getElem? hn)
  refine ⟨fun channel hop => ?_, fun candidates arguments hop => ?_⟩
  all_goals
    rw [hop] at hall
    cases hall

namespace Constants

/-- A literal. -/
def one : Graph := ((Build.int 1).runOn {}).2

/-- Another one. -/
def two : Graph := ((Build.int 2).runOn one).2

/-- Their sum. -/
def three : Graph := ((Build.binary .add 0 1).runOn two).2

/-- A vector of the sum and a literal. -/
def vector : Graph := ((Build.construct (Shape.of .int 2) [2, 1]).runOn three).2

/-- The vector is written. -/
def graph : Graph := ((Build.output ⟨"r", .of .int 2⟩ 3).runOn vector).2

/-- The program stores three and two. -/
def program : Program where
  code := [98, 0, 3, 98, 1, 2]
  outputs := [⟨"r.x", .of .int 1⟩, ⟨"r.y", .of .int 1⟩]
  instructionCount := 2
  registerCount := 0

/-- The graph is made by five factories. -/
theorem built : graph.Built := by
  have hone : one.Built := .made .empty (.constant (.ofScalar (.int 1))) rfl
  have htwo : two.Built := .made hone (.constant (.ofScalar (.int 2))) rfl
  have hthree : three.Built := .made htwo (.binary .add (l := 0) (r := 1) (by decide) (by decide)) rfl
  have harguments : ∀ x ∈ [2, 1], x < three.nodes.size := by decide
  have hvector : vector.Built := .made hthree (.construct .int 2 harguments) rfl
  exact .made hvector (.output "r" .int 2 (x := 3) (by decide)) rfl

/-- The graph passes the pipeline. -/
theorem passes : ((Pipeline.run false).runOn graph).1 = .ok [] := by decide +kernel

/-- The graph is compiled. -/
theorem compiled : (Compiler.compile {} graph).1 = .ok program := by
  unfold Compiler.compile Compiler.allocate Allocation.ofIntervals
  rw [Allocation.byStart_eq]
  decide +kernel

/-- No stream is read. -/
theorem selfContained : ((Pipeline.run false).runOn graph).2.SelfContained :=
  Graph.selfContained_of_all (by cbv)

end Constants

/-- The sum is folded behind the vector, and the program stores its components. -/
theorem pipeline_folds_constants_vector :
    (Constants.graph.Made ∧ ((Pipeline.run false).runOn Constants.graph).1 = .ok [] ∧
      (Compiler.compile {} Constants.graph).1 = .ok Constants.program ∧
      ((Pipeline.run false).runOn Constants.graph).2.SelfContained) ∧
    ((Pipeline.run false).runOn Constants.graph).2.FoldedForm ∧ Constants.program.StoresOnly := by
  have hfolds := pipeline_folds_constants {} Constants.graph (.of_built Constants.built) [] _
    (runOn_eq Constants.passes)
  exact ⟨⟨.of_built Constants.built, Constants.passes, Constants.compiled, Constants.selfContained⟩,
    hfolds.1, hfolds.2 _ Constants.compiled Constants.selfContained⟩

end LaneGraph
