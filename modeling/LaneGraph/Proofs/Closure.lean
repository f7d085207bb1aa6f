import LaneGraph.Proofs.Ascent
import LaneGraph.Proofs.Drafts

/-!
# The arena stays closed and acyclic

Whatever factories and transforms do, in any order and also where they stop
half-way, all references lead to nodes of the arena and nothing depends on
itself. Every one of them leaves the arena in order.
-/

namespace LaneGraph

open Build

variable {S : Streams} {g g' : Graph} {rank rank' : NodeId → Nat} {id : NodeId} {n : Node}

/-! ## Outputs of components -/

namespace Scalars

/-- An output is split into others. -/
theorem splitOutput_keeps (h : Ordered S g rank) (hid : id < g.nodes.size) :
    Keeps S g rank (splitOutput id) fun parts g' _ =>
      ∀ x ∈ parts, ∃ n, g'.node? x = some n ∧ n.isOutput = true := by
  obtain ⟨n, hn⟩ := Graph.exists_node hid
  have hnode : g.checkedNode id = .ok n := by
    unfold Graph.checkedNode
    rw [hn]
  unfold splitOutput
  refine .ask hnode ?_
  split
  · rename_i channel source hop
    split
    · refine .pure h fun x hx => ⟨n, ?_, ?_⟩
      · rw [List.mem_singleton.mp hx]
        exact hn
      · unfold Node.isOutput
        rw [hop]
    · rename_i hcount
      have hwrites : S.writes channel := by
        have hadmits := (h.node hn).admits
        rw [hop] at hadmits
        exact hadmits
      have hmem := (Node.mem_children hop).mpr (List.mem_singleton_self source)
      have hsource : Below g rank (rank source) source :=
        ⟨(h.node hn).child source hmem, Nat.le_refl _⟩
      refine Keeps.mapM (P := fun g' _ x => ∃ n, g'.node? x = some n ∧ n.isOutput = true) h ?_ ?_
      · exact fun ho hout => ho.output hout
      · intro c hc g' rank' h' ho'
        refine (h'.swizzle [c] (hsource.onward ho')).bind fun part g₁ rank₁ h₁ _ hpart => ?_
        have hcomponent := S.writes_component hwrites (by omega) (index_lt_of_mem_take hc)
        exact (h₁.unlistedOutput hcomponent hpart).mono fun _ _ _ _ _ hnew => hnew.2
  · exact .throw h rfl

/-- Splitting vector outputs leaves the arena in order. -/
theorem splitOutputs_orderly (h : Orderly S g) :
    Lands splitOutputs g (fun _ g' => Orderly S g') (Declined S) := by
  obtain ⟨rank, h⟩ := h
  have hparts : Keeps S g rank (g.outputs.mapM splitOutput) fun parts g' _ =>
      ∀ ids ∈ parts, ∀ x ∈ ids, ∃ n, g'.node? x = some n ∧ n.isOutput = true := by
    refine Keeps.mapM (P := fun g' _ ids => ∀ x ∈ ids, ∃ n, g'.node? x = some n ∧
      n.isOutput = true) h ?_ ?_
    · exact fun ho hids x hx => ho.output (hids x hx)
    · intro id hid g' rank' h' ho'
      obtain ⟨n, hn, -⟩ := h.outputs id hid
      exact splitOutput_keeps h' (Nat.lt_of_lt_of_le (Graph.lt_size hn) ho'.size)
  unfold splitOutputs
  rw [lands_bind, lands_get, lands_bind]
  refine hparts.lands.mono ?_ fun _ _ he => he
  rintro parts g' ⟨rank', h', -, hall⟩
  refine ⟨rank', h'.withOutputs fun x hx => ?_⟩
  obtain ⟨ids, hids, hx⟩ := List.mem_flatten.mp hx
  exact hall ids hids x hx

end Scalars

/-! ## All transforms -/

namespace Pipeline

/-- Everything that the pipeline does to a graph, one transform at a time. -/
def transforms : List (Build Unit) :=
  passes.map Pass.run ++
    [Scalars.splitInputTable, Scalars.splitOutputs, Build.forgetRepresentatives]

/-- Every pass leaves the arena in order, also where it fails. -/
theorem pass_orderly {pass : Pass} (hpass : pass ∈ passes) (h : Orderly S g) :
    Lands pass.run g (fun _ g' => Orderly S g') (Declined S) := by
  refine Pass.run_orderly h ?_
  simp only [passes, List.mem_cons, List.not_mem_nil, or_false] at hpass
  rcases hpass with rfl | rfl | rfl | rfl | rfl | rfl | rfl | rfl
  · exact Typing.climbs.sweep h
  · exact Vectors.descends.sweep h
  · exact Scalars.climbs.sweep h
  · exact Scalars.descends.sweep h
  · exact Folding.climbs.sweep h
  · exact Lowering.descends.sweep h
  · exact Sharing.sweep h
  · exact Consistency.descends.sweep h

/-- Every transform leaves the arena in order, also where it fails. -/
theorem transform_orderly {transform : Build Unit} (htransform : transform ∈ transforms)
    (h : Orderly S g) : Lands transform g (fun _ g' => Orderly S g') (Declined S) := by
  rcases List.mem_append.mp htransform with hpass | hother
  · obtain ⟨pass, hmem, rfl⟩ := List.mem_map.mp hpass
    exact pass_orderly hmem h
  · simp only [List.mem_cons, List.not_mem_nil, or_false] at hother
    rcases hother with rfl | rfl | rfl
    · obtain ⟨rank, h⟩ := h
      exact ⟨rank, (h.withInputs _).1⟩
    · exact Scalars.splitOutputs_orderly h
    · obtain ⟨rank, h⟩ := h
      exact ⟨rank, (h.withRepresentatives [] fun _ he => (nomatch he)).1⟩

/-- A report changes nothing. -/
theorem report_orderly (h : Orderly S g) (wanted : Bool) (name : String) :
    Lands (report wanted name) g (fun _ g' => Orderly S g') (Declined S) := by
  obtain ⟨rank, hordered⟩ := h
  obtain ⟨order, horder, -⟩ := hordered.postOrder
  have hcount : g.reachableCount = .ok order.size := by
    unfold Graph.reachableCount
    rw [horder]
    rfl
  unfold report
  split
  · rw [lands_bind, lands_of_runOn (runOn_ask hcount)]
    exact ⟨rank, hordered⟩
  · exact ⟨rank, hordered⟩

/-- A reported pass leaves the arena in order. -/
theorem stage_orderly {pass : Pass} (hpass : pass ∈ passes) (h : Orderly S g) (wanted : Bool) :
    Lands (stage wanted pass) g (fun _ g' => Orderly S g') (Declined S) := by
  unfold stage
  rw [lands_bind]
  exact (pass_orderly hpass h).mono (fun _ _ h' => report_orderly h' wanted _) fun _ _ he => he

/-- The pipeline leaves the arena in order, also where it fails. -/
theorem run_orderly (h : Orderly S g) (wanted : Bool) :
    Lands (run wanted) g (fun _ g' => Orderly S g') (Declined S) := by
  -- What follows steps that leave the arena in order starts with it in order.
  have hthen : ∀ {α β : Type} {first : Build α} {next : α → Build β} {g : Graph},
      Lands first g (fun _ g' => Orderly S g') (Declined S) →
      (∀ a g', Orderly S g' → Lands (next a) g' (fun _ g' => Orderly S g') (Declined S)) →
      Lands (first >>= next) g (fun _ g' => Orderly S g') (Declined S) := by
    intro α β first next g hfirst hnext
    rw [lands_bind]
    exact hfirst.mono hnext fun _ _ he => he
  have hstage : ∀ pass ∈ passes, ∀ {g : Graph}, Orderly S g →
      Lands (stage wanted pass) g (fun _ g' => Orderly S g') (Declined S) :=
    fun pass hpass _ h => stage_orderly hpass h wanted
  have htransform : ∀ t ∈ transforms, ∀ {g : Graph}, Orderly S g →
      Lands t g (fun _ g' => Orderly S g') (Declined S) := fun t ht _ h => transform_orderly ht h
  unfold run
  refine hthen (hstage _ (by simp [passes]) h) fun _ _ h => ?_
  refine hthen (hstage _ (by simp [passes]) h) fun _ _ h => ?_
  refine hthen (htransform _ (by simp [transforms]) h) fun _ _ h => ?_
  refine hthen (hstage _ (by simp [passes]) h) fun _ _ h => ?_
  refine hthen (htransform _ (by simp [transforms]) h) fun _ _ h => ?_
  refine hthen (report_orderly h wanted _) fun _ _ h => ?_
  refine hthen (hstage _ (by simp [passes]) h) fun _ _ h => ?_
  refine hthen (hstage _ (by simp [passes]) h) fun _ _ h => ?_
  refine hthen (hstage _ (by simp [passes]) h) fun _ _ h => ?_
  refine hthen (hstage _ (by simp [passes]) h) fun _ _ h => ?_
  refine hthen (htransform _ (by simp [transforms]) h) fun _ _ h => ?_
  refine hthen (hstage _ (by simp [passes]) h) fun _ _ h => ?_
  exact hthen (hstage _ (by simp [passes]) h) fun _ _ h => h

end Pipeline

/-- The graph after transforms, each of which may have failed half-way. -/
def Graph.after (g : Graph) (transforms : List (Build Unit)) : Graph :=
  transforms.foldl (fun g transform => (transform.runOn g).2) g

/-- Steps that land in order leave the arena in order. -/
theorem Build.Lands.orderly {α : Type} {steps : Build α}
    (h : Lands steps g (fun _ g' => Orderly S g') (Declined S)) : Orderly S (steps.runOn g).2 := by
  unfold Lands at h
  cases hrun : steps.runOn g with
  | mk result g' =>
    rw [hrun] at h
    cases result with
    | ok a => exact h
    | error e => exact h.2

/-- Transforms leave the arena in order. -/
theorem Orderly.after (h : Orderly S g) {transforms : List (Build Unit)}
    (htransforms : ∀ t ∈ transforms, t ∈ Pipeline.transforms) : Orderly S (g.after transforms) := by
  induction transforms generalizing g with
  | nil => exact h
  | cons t rest ih =>
    have hfirst := (Pipeline.transform_orderly (htransforms t List.mem_cons_self) h).orderly
    exact ih hfirst fun t' ht' => htransforms t' (List.mem_cons_of_mem _ ht')

/-! ## Factories -/

/-- The graph is made by factories from nothing, each given nodes of the arena. What a
factory leaves counts whether it succeeds or not, and calls may have any
candidates. -/
inductive Graph.Made : Graph → Prop
  | empty : Made Graph.empty
  | factory {g : Graph} {steps : Build NodeId} (h : Made g) (hfactory : Factory g steps) :
    Made (steps.runOn g).2
  | call {g : Graph} (candidates : List Signature) {arguments : List NodeId} (h : Made g)
      (harguments : ∀ x ∈ arguments, x < g.nodes.size) :
    Made ((Build.call candidates arguments).runOn g).2

/-- A graph that factories made without failing is made by factories. -/
theorem Graph.Made.of_built (h : g.Built) : g.Made := by
  induction h with
  | empty => exact .empty
  | made _ hfactory hrun ih =>
    have hmade := Made.factory ih hfactory
    rw [hrun] at hmade
    exact hmade

/-- A graph that is made by factories is a draft, in which calls need not be exact. -/
theorem Graph.Made.draft (h : g.Made) : ∃ w, g.Draft False w := by
  induction h with
  | empty => exact ⟨_, .empty False⟩
  | factory _ hfactory ih =>
    obtain ⟨w, hw⟩ := ih
    obtain ⟨id, g', hrun, hdraft⟩ := (hw.factory hfactory).succeeds
    rw [hrun]
    exact hdraft
  | call candidates _ harguments ih =>
    obtain ⟨w, hw⟩ := ih
    obtain ⟨id, g', hrun, hdraft⟩ := (hw.call (fun h => h.elim) harguments).succeeds
    rw [hrun]
    exact hdraft

namespace Ordered

/-- The rank of no node is above that of the highest of some. -/
theorem below_top (ids : List NodeId) (hids : ∀ x ∈ ids, x < g.nodes.size) :
    ∀ x ∈ ids, Below g rank ((ids.map rank).foldl max 0) x :=
  fun x hx => ⟨hids x hx, le_foldl_max (List.mem_map_of_mem hx) 0⟩

/-- Looking up a function leaves the arena in order. -/
theorem function (h : Ordered S g rank) (s : Signature) :
    Keeps S g rank (Build.function s) fun _ _ _ => True := by
  unfold Build.function
  refine .get ?_
  split
  · exact .pure h trivial
  · exact ⟨rank, h.of_nodes rfl h.outputs h.representatives, .of_nodes rfl rfl, trivial⟩

/-- A call leaves the arena in order. -/
theorem call (h : Ordered S g rank) (candidates : List Signature) {arguments : List NodeId}
    (harguments : ∀ x ∈ arguments, x < g.nodes.size) :
    Keeps S g rank (Build.call candidates arguments) fun _ _ _ => True := by
  have hfunctions : Keeps S g rank (candidates.mapM Build.function) fun _ _ _ => True :=
    (Keeps.mapM (P := fun _ _ _ => True) h (fun _ _ => trivial)
      fun s _ _ _ h' _ => h'.function s).mono fun _ _ _ _ _ _ => trivial
  unfold Build.call
  refine hfunctions.bind fun ids g₁ rank₁ h₁ ho₁ _ => ?_
  have hchildren : ∀ c ∈ (Operation.call ids arguments).children,
      Below g₁ rank₁ ((arguments.map rank).foldl max 0) c :=
    fun c hc => (below_top arguments harguments c hc).onward ho₁
  exact (h₁.apply Shape.unknown hchildren trivial (Nat.zero_le 4)).mono fun _ _ _ _ _ _ => trivial

end Ordered

/-- Every factory leaves the arena in order. -/
theorem Factory.orderly {steps : Build NodeId} (hfactory : Factory g steps)
    (h : Orderly Streams.all g) :
    Lands steps g (fun _ g' => Orderly Streams.all g') (Declined Streams.all) := by
  obtain ⟨rank, h⟩ := h
  have htop := @Ordered.below_top g rank
  have hkeeps : ∀ {α : Type} {steps : Build α} {post : α → Graph → (NodeId → Nat) → Prop},
      Keeps Streams.all g rank steps post →
      Lands steps g (fun _ g' => Orderly Streams.all g') (Declined Streams.all) :=
    fun hsteps => hsteps.lands.mono (fun _ _ ⟨rank', h', _⟩ => ⟨rank', h'⟩) fun _ _ he => he
  cases hfactory with
  | unary op hx => exact hkeeps (h.unary op (htop [_] (by simpa using hx) _ (by simp)))
  | convert hx target => exact hkeeps (h.convert target (htop [_] (by simpa using hx) _ (by simp)))
  | @binary op l r hl hr =>
    have hbelow := htop [l, r] (by simp [hl, hr])
    exact hkeeps (h.binary op (hbelow l (by simp)) (hbelow r (by simp)))
  | @ternary op a b c ha hb hc =>
    have hbelow := htop [a, b, c] (by simp [ha, hb, hc])
    exact hkeeps (h.ternary op (hbelow a (by simp)) (hbelow b (by simp)) (hbelow c (by simp)))
  | constant value =>
    exact hkeeps (h.leaf (.constant value) value.shape rfl trivial value.width_le)
  | swizzle components hx =>
    exact hkeeps (h.swizzle components (htop [_] (by simpa using hx) _ (by simp)))
  | input name encoding count => exact hkeeps (h.input trivial)
  | @output name encoding count x hx =>
    have hx' := htop [x] (by simpa using hx) x (by simp)
    unfold Build.output
    rw [lands_bind]
    refine (h.unlistedOutput trivial hx').lands.mono ?_ fun _ _ he => he
    rintro new g' ⟨rank', h', -, -, hnew⟩
    refine ⟨rank', h'.withOutputs fun y hy => ?_⟩
    rcases List.mem_append.mp hy with hy | hy
    · exact h'.outputs y hy
    · rw [List.mem_singleton.mp hy]
      exact hnew
  | call _ _ harguments => exact hkeeps (h.call _ harguments)
  | construct kind width harguments =>
    exact hkeeps (h.construct (Shape.width_of_le kind width) (htop _ harguments))

/-- What factories make is in order. -/
theorem Graph.Made.orderly (h : g.Made) : Orderly Streams.all g := by
  induction h with
  | empty => exact ⟨fun _ => 0, fun hn => (nomatch hn), fun _ hid => (nomatch hid),
      fun _ he => (nomatch he)⟩
  | factory _ hfactory ih => exact (hfactory.orderly ih).orderly
  | call candidates _ harguments ih =>
    obtain ⟨rank, h⟩ := ih
    have hlands := (h.call candidates harguments).lands
    exact (hlands.mono (fun _ _ ⟨rank', h', _⟩ => ⟨rank', h'⟩) fun _ _ he => he).orderly

/-- However factories are called on nodes of the arena and whichever transforms follow,
each of which may fail half-way, every operand of every node is in the arena, every
output is a node that writes a stream, and no node of the arena depends on itself. -/
theorem arena_stays_closed (g : Graph) (h : g.Made) (transforms : List (Build Unit))
    (htransforms : ∀ t ∈ transforms, t ∈ Pipeline.transforms) :
    (∀ id n, (g.after transforms).node? id = some n →
      ∀ c ∈ n.children, c < (g.after transforms).nodes.size) ∧
    (∀ id ∈ (g.after transforms).outputs,
      ∃ n, (g.after transforms).node? id = some n ∧ n.isOutput = true) ∧
    (g.after transforms).Acyclic := by
  obtain ⟨rank, hordered⟩ := h.orderly.after htransforms
  refine ⟨?_, hordered.outputs, hordered.acyclic⟩
  intro id n hn c hc
  exact (hordered.node hn).child c hc

namespace Norm

/-- A stream with three components is read. -/
def reading : Graph := ((Build.input ⟨"a", .of .float 3⟩).runOn {}).2

/-- Its length is taken. -/
def measured : Graph := ((Build.unary .length 0).runOn reading).2

/-- The length is written. -/
def graph : Graph := ((Build.output ⟨"r", .of .float 1⟩ 1).runOn measured).2

/-- The graph is made by three factories. -/
theorem made : graph.Made := by
  have hreading : reading.Made := .factory .empty (.input "a" .float 3)
  have hmeasured : measured.Made := .factory hreading (.unary .length (x := 0) (by decide))
  exact .factory hmeasured (.output "r" .float 1 (x := 1) (by decide))

end Norm

/-- A length is written out in an arena that grows by this, and that stays closed and
acyclic. -/
theorem arena_stays_closed_norm :
    (Norm.graph.Made ∧ ∀ t ∈ [Typing.pass.run, Vectors.pass.run], t ∈ Pipeline.transforms) ∧
    Norm.graph.nodes.size < (Norm.graph.after [Typing.pass.run, Vectors.pass.run]).nodes.size ∧
    (∀ id n, (Norm.graph.after [Typing.pass.run, Vectors.pass.run]).node? id = some n →
      ∀ c ∈ n.children, c < (Norm.graph.after [Typing.pass.run, Vectors.pass.run]).nodes.size) ∧
    (∀ id ∈ (Norm.graph.after [Typing.pass.run, Vectors.pass.run]).outputs,
      ∃ n, (Norm.graph.after [Typing.pass.run, Vectors.pass.run]).node? id = some n ∧
        n.isOutput = true) ∧
    (Norm.graph.after [Typing.pass.run, Vectors.pass.run]).Acyclic := by
  have hmem : ∀ t ∈ [Typing.pass.run, Vectors.pass.run], t ∈ Pipeline.transforms := by
    simp [Pipeline.transforms, Pipeline.passes]
  exact ⟨⟨Norm.made, hmem⟩, by decide +kernel, arena_stays_closed Norm.graph Norm.made _ hmem⟩

end LaneGraph
