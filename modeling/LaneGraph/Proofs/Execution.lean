import LaneGraph.Proofs.Allocation
import LaneGraph.Proofs.Emission
import LaneGraph.Proofs.Encoding
import LaneGraph.Proofs.Stores

/-!
# Programs compute what their graphs say

Before each step, every value that is still needed stands in its register, and
every output written so far holds the value of its source. A step reads values
that are needed at it and writes a register that no needed value shares, so both
facts are kept along the whole program. A register whose value is read for the
last time may be the one that is written: the read comes first.
-/

namespace LaneGraph

open Emission

/-- The operations of instructions are those that operators stand for. -/
theorem UnaryOp.pattern?_of_laneFunction? {op : UnaryOp} {operand result : Kind}
    {f : LaneFunction} (h : op.laneFunction? operand result = some f) :
    op.pattern? operand result = some f.eval := by
  cases op with
  | convert => cases operand <;> cases result <;> cases h <;> rfl
  | _ => cases operand <;> cases h <;> rfl

/-- The operations of instructions are those that operators stand for. -/
theorem BinaryOp.pattern?_of_laneOperation? {op : BinaryOp} {left : Kind} {o : LaneOperation}
    (h : op.laneOperation? left = some o) : op.pattern? left = some o.eval := by
  cases op <;> cases left <;> cases h <;> rfl

namespace Schedule

/-- What an emission reads when registers are given by the scan. -/
def source (g : Graph) (s : Schedule) : Source :=
  ⟨g, s, Allocation.ofIntervals s.intervals.toList⟩

/-- The graph of a source is the one it was made from. -/
theorem source_graph (g : Graph) (s : Schedule) : (s.source g).graph = g := rfl

/-- A faithful schedule of a line of nodes that are all in the arena, whose
positions are words. -/
structure Lined (g : Graph) (order : List NodeId) (s : Schedule) : Prop where
  listed : Listed g.scheduledOperands order
  faithful : Faithful g order s
  words : g.nodes.size ≤ 2 ^ 32

namespace Lined

variable {g : Graph} {order : List NodeId} {s : Schedule}

/-- There are no more steps than nodes. -/
theorem length_le (h : Lined g order s) : s.steps.length ≤ g.nodes.size := by
  have hsub : order ⊆ List.range g.nodes.size := by
    intro id hid
    obtain ⟨next, hnext, -⟩ := h.listed.closed hid
    obtain ⟨n, hn, -⟩ := scheduledOperands_eq_ok hnext
    exact List.mem_range.mpr (Array.getElem?_eq_some_iff.mp hn).1
  have hle := (h.listed.nodup.subperm hsub).length_le
  rw [List.length_range] at hle
  rw [h.faithful.length_steps]
  exact hle

/-- There are no more values than steps. -/
theorem size_intervals_le (h : Lined g order s) : s.intervals.size ≤ s.steps.length := by
  have hsub : s.owners ⊆ order := fun id hid => h.faithful.owner_mem hid
  have hle := (h.faithful.owners.subperm hsub).length_le
  unfold owners at hle
  rw [List.length_map, Array.length_toList] at hle
  rw [h.faithful.length_steps]
  exact hle

/-- The register of a value as a word stands for the register that the scan
gives. -/
theorem registerOfValue_toNat (h : Lined g order s) {v : Nat} {i : Interval}
    (hi : s.intervals[v]? = some i) :
    (Allocation.ofIntervals s.intervals.toList).registers[v]? =
      some ((s.source g).registerOfValue v).toNat := by
  rw [← Array.getElem?_toList] at hi
  obtain ⟨r, hr⟩ := Allocation.exists_register hi
  have hlt := Allocation.register_lt hr
  rw [Array.length_toList] at hlt
  have hsteps := h.size_intervals_le
  have hnodes := h.length_le
  have hwords := h.words
  unfold Source.registerOfValue Schedule.source
  rw [hr, Option.getD_some, UInt32.toNat_ofNat_of_lt' (by rw [UInt32.size]; omega)]

/-- Two values that are needed at once are in different registers. -/
theorem registerOfValue_ne (h : Lined g order s) {v w : Nat} {i j : Interval}
    (hi : s.intervals[v]? = some i) (hj : s.intervals[w]? = some j) (hvw : v ≠ w)
    (hij : i.start < j.stop) (hji : j.start < i.stop) :
    ((s.source g).registerOfValue v).toNat ≠ ((s.source g).registerOfValue w).toNat := by
  intro heq
  have hregisters : (Allocation.ofIntervals s.intervals.toList).registers[v]? =
      (Allocation.ofIntervals s.intervals.toList).registers[w]? := by
    rw [h.registerOfValue_toNat hi, h.registerOfValue_toNat hj, heq]
  rw [← Array.getElem?_toList] at hi hj
  exact Allocation.registers_ne_of_overlaps hi hj hvw (by simp [Interval.overlaps, hij, hji])
    hregisters

/-- A node whose value is read at a step was made before and is needed there. -/
theorem needed_at (h : Lined g order s) {t v : Nat} {step : Step} {n : Node} {c : NodeId}
    (hstep : s.steps[t]? = some step) (hn : g.node? step.node = some n)
    (hc : c ∈ g.readOperands n) (hv : s.valueOf? c = some v) :
    ∃ i, s.intervals[v]? = some i ∧ i.node = c ∧ i.start < t ∧ t ≤ i.stop := by
  obtain ⟨i, hi, hnode⟩ := interval_of_valueOf? hv
  refine ⟨i, hi, hnode, ?_, h.faithful.reads t step n c v i hstep hn hc hv hi⟩
  -- The operand stands before the step, and it stands nowhere else.
  obtain ⟨u, hu, earlier, hearlier, rfl⟩ := h.faithful.operand_before h.listed hstep hn hc
  have hplace : ∀ {k : Nat} {other : Step}, s.steps[k]? = some other →
      order[k]? = some other.node := by
    intro k other hk
    rw [← h.faithful.nodes, List.getElem?_map, hk]
    rfl
  have hown := hplace (h.faithful.step v i hi)
  dsimp only at hown
  rw [hnode, ← hplace hearlier] at hown
  have hlt := (List.getElem?_eq_some_iff.mp (hplace hearlier)).1
  have hsame := (List.getElem?_inj hlt h.listed.nodup).mp hown.symm
  omega

end Lined

end Schedule

/-- What an execution works with agrees with what the nodes of a graph refer
to. -/
structure Setting.Fits {batches : Nat} (world : Setting batches) (t : Tables) (c : Context) :
    Prop where
  input : ∀ (name : String) (k : Nat), slotOf? Channel.name t.inputs name = some k →
    world.input name = (c.inputs[k]?).map (loadColumn batches c.instances)
  native : ∀ (f : Signature) (k : Nat), slotOf? Signature.symbol t.functions f.symbol = some k →
    world.native f = c.functions[k]?
  globals : world.globals = c.globals

/-- A graph in a line with registers, the tables of its program and the values
of its nodes. -/
structure Simulation (batches : Nat) where
  /-- The graph. -/
  graph : Graph
  /-- Its nodes in a line. -/
  order : List NodeId
  /-- The schedule of the line. -/
  schedule : Schedule
  /-- The finished tables. -/
  tables : Tables
  /-- What nodes refer to. -/
  world : Setting batches
  /-- What the execution works with. -/
  context : Context
  lined : Schedule.Lined graph order schedule
  sparse : tables.Sparse (schedule.source graph)
  fits : world.Fits tables context
  apart : context.OutputsApart
  batches_eq : batches = batchCount context.instances
  /-- A scheduled node has the value of its operation. -/
  value : ∀ id ∈ order, ∀ n, graph.node? id = some n →
    graph.column? world id = graph.nodeColumn? world (graph.column? world) n
  /-- Two output nodes in the line have different names. -/
  names : ∀ a ∈ order, ∀ b ∈ order, ∀ (m n : Node) (p q : Channel) (x y : NodeId),
    graph.node? a = some m → graph.node? b = some n → m.op = .output p x → n.op = .output q y →
    p.name = q.name → a = b

namespace Simulation

variable {batches : Nat} (σ : Simulation batches)

/-- The value of a node by direct evaluation. -/
abbrev column? (id : NodeId) : Option (Column batches) := σ.graph.column? σ.world id

/-- The register that a value is given. -/
abbrev registerOf (v : Nat) : Nat := ((σ.schedule.source σ.graph).registerOfValue v).toNat

/-- What holds before the step at a position: the values needed from there on are
in their registers, and the outputs of earlier steps are in their streams. -/
structure Agrees (t : Nat) (st : State batches) : Prop where
  registers : ∀ (v : Nat) (i : Interval), σ.schedule.intervals[v]? = some i → i.start < t →
    t ≤ i.stop → ∃ x, σ.column? i.node = some x ∧ st.registers[σ.registerOf v]? = some x
  stores : ∀ (t' : Nat) (step : Step) (n : Node) (channel : Channel) (source : NodeId), t' < t →
    σ.schedule.steps[t']? = some step → σ.graph.node? step.node = some n →
    n.op = .output channel source →
    ∃ k x, slotOf? Channel.name σ.tables.outputs channel.name = some k ∧
      σ.column? source = some x ∧ ∀ b, σ.context.outputs[k]? = some (some b) →
        ∀ i < σ.context.instances, b.Holds st.outputs.toList i (instanceBits x i)

variable {σ} {t : Nat} {st st' : State batches} {step : Step} {n : Node}

/-- Nothing is needed before the first step. -/
theorem Agrees.start (st : State batches) : σ.Agrees 0 st where
  registers _ _ _ h := by omega
  stores _ _ _ _ _ h := by omega

/-- A literal is its own value. -/
theorem column?_constant {id : NodeId} {c : Constant} {v : Scalar}
    (hn : σ.graph.node? id = some n) (hop : n.op = .constant c) (hv : c.scalar? = some v) :
    σ.column? id = some (Vector.replicate batches (Lanes.splat v.bits)) := by
  unfold column? Graph.column? Graph.walkDepth Graph.columnTo?
  rw [hn, Option.bind_some, Graph.nodeColumn?, hop]
  dsimp only
  rw [hv]
  rfl

/-- The slots of tables are words. -/
theorem slot_toNat {α : Type} {key : α → String} {name? : Node → Option String} {table : List α}
    {name : String} {k : Nat}
    (h : Keyed key ((σ.schedule.source σ.graph).mentioned name?) table)
    (hk : slotOf? key table name = some k) : (UInt32.ofNat k).toNat = k := by
  have hlt : k < σ.schedule.steps.length := h.slot_lt hk
  have hnodes := σ.lined.length_le
  have hwords := σ.lined.words
  exact UInt32.toNat_ofNat_of_lt' (by rw [UInt32.size]; omega)

/-- The node of a step is listed. -/
theorem mem_order (hstep : σ.schedule.steps[t]? = some step) : step.node ∈ σ.order := by
  rw [← σ.lined.faithful.nodes]
  exact List.mem_map_of_mem (List.mem_of_getElem? hstep)

/-- A register that a step reads holds the value of the operand. -/
theorem Agrees.operand (h : σ.Agrees t st) (hstep : σ.schedule.steps[t]? = some step)
    (hn : σ.graph.node? step.node = some n) {c : NodeId} {a : UInt32} {offset : Nat}
    {x : Column batches} (hc : c ∈ σ.graph.readOperands n)
    (ha : (σ.schedule.source σ.graph).register c = .ok a) (hx : st.register offset a = .ok x) :
    σ.column? c = some x := by
  unfold Source.register at ha
  cases hv : (σ.schedule.source σ.graph).schedule.valueOf? c with
  | none => rw [hv] at ha; cases ha
  | some v =>
    rw [hv] at ha
    cases ha
    obtain ⟨i, hi, rfl, hstart, hstop⟩ := σ.lined.needed_at hstep hn hc hv
    obtain ⟨y, hy, hregister⟩ := h.registers v i hi hstart hstop
    unfold State.register at hx
    rw [hregister] at hx
    cases hx
    exact hy

/-- A step that writes the value of its node into the register of that value
keeps the agreement. -/
theorem Agrees.write (h : σ.Agrees t st) {v : Nat}
    (hstep : σ.schedule.steps[t]? = some step) (hv : step.value = some v) {x y : Column batches}
    {offset : Nat} {r : UInt32} (hr : r = (σ.schedule.source σ.graph).registerOfValue v)
    (hbound : st.register offset r = .ok y) (hx : σ.column? step.node = some x) :
    σ.Agrees (t + 1) (st.setRegister r x) where
  registers w j hj hstart hstop := by
    obtain ⟨i, hi, hit, hnode⟩ := σ.lined.faithful.starts t step v hstep hv
    have hlasts := σ.lined.faithful.lasts v i hi
    have hsize : r.toNat < st.registers.size := by
      unfold State.register at hbound
      split at hbound
      · rename_i hget
        exact (Array.getElem?_eq_some_iff.mp hget).1
      · cases hbound
    by_cases hwv : w = v
    · subst hwv
      rw [hi] at hj
      cases hj
      refine ⟨x, hnode ▸ hx, ?_⟩
      unfold State.setRegister
      dsimp only
      rw [Array.getElem?_setIfInBounds, if_pos (by rw [hr]), if_pos hsize]
    · have hne : j.start ≠ t := by
        intro heq
        have hstep' := σ.lined.faithful.step w j hj
        rw [heq, hstep] at hstep'
        cases hstep'
        exact hwv (Option.some.inj hv)
      obtain ⟨z, hz, hget⟩ := h.registers w j hj (by omega) (by omega)
      refine ⟨z, hz, ?_⟩
      have hregister := σ.lined.registerOfValue_ne hi hj (Ne.symm hwv) (by omega) (by omega)
      unfold State.setRegister
      dsimp only
      rw [Array.getElem?_setIfInBounds, if_neg (by rw [hr]; exact hregister)]
      exact hget
  stores t' step' m channel source ht' hstep' hm hop := by
    have hlt : t' < t := by
      rcases Nat.lt_succ_iff_lt_or_eq.mp ht' with hlt | rfl
      · exact hlt
      · rw [hstep] at hstep'
        cases hstep'
        obtain ⟨m', hm', hnone⟩ := σ.lined.faithful.outputs step (List.mem_of_getElem? hstep)
        rw [hm] at hm'
        cases hm'
        rw [hnone.mpr (by rw [Node.isOutput, hop])] at hv
        cases hv
    exact h.stores t' step' m channel source hlt hstep' hm hop

/-- A step that stores the value of its source into the slot of its stream keeps
the agreement. -/
theorem Agrees.store (h : σ.Agrees t st) (hstep : σ.schedule.steps[t]? = some step)
    (hn : σ.graph.node? step.node = some n) {channel : Channel} {source : NodeId}
    (hop : n.op = .output channel source) {k offset : Nat}
    (hk : slotOf? Channel.name σ.tables.outputs channel.name = some k) {x : Column batches}
    (hx : σ.column? source = some x)
    {bits : Nat → UInt32} (hbits : ∀ i < σ.context.instances, bits i = instanceBits x i)
    (hstore : σ.context.store st offset (UInt32.ofNat k) bits = .ok st') :
    σ.Agrees (t + 1) st' where
  registers w j hj hstart hstop := by
    have hne : j.start ≠ t := by
      intro heq
      have hstep' := σ.lined.faithful.step w j hj
      rw [heq, hstep] at hstep'
      cases hstep'
      obtain ⟨m, hm, hnone⟩ := σ.lined.faithful.outputs _ (List.mem_of_getElem? hstep)
      rw [hn] at hm
      cases hm
      cases hnone.mpr (by rw [Node.isOutput, hop])
    rw [Context.registers_store hstore]
    exact h.registers w j hj (by omega) (by omega)
  stores t' step' m channel' source' ht' hstep' hm hop' := by
    have hslot := σ.slot_toNat σ.sparse.outputs hk
    rcases Nat.lt_succ_iff_lt_or_eq.mp ht' with hlt | rfl
    · obtain ⟨k', x', hk', hx', hholds⟩ :=
        h.stores t' step' m channel' source' hlt hstep' hm hop'
      refine ⟨k', x', hk', hx', fun b hb i hi => ?_⟩
      refine Context.store_keeps hstore ?_ (hholds b hb i hi)
      intro b' hb' j hj
      rw [hslot] at hb'
      refine σ.apart k' k b b' i j hb hb' hi hj ?_
      -- Two steps that store to one slot would be two nodes of one name.
      rintro ⟨rfl, -⟩
      have hname : channel'.name = channel.name := by
        obtain ⟨hlt₁, hkey₁, -⟩ := List.findIdx?_eq_some_iff_getElem.mp hk
        obtain ⟨hlt₂, hkey₂, -⟩ := List.findIdx?_eq_some_iff_getElem.mp hk'
        rw [beq_iff_eq] at hkey₁ hkey₂
        exact hkey₂.symm.trans hkey₁
      have hsame := σ.names _ (mem_order hstep') _ (mem_order hstep) m n channel' channel source'
        source hm hn hop' hop hname
      have horder : ∀ (u : Nat) (a : Step), σ.schedule.steps[u]? = some a →
          σ.order[u]? = some a.node := by
        intro u a ha
        rw [← σ.lined.faithful.nodes, List.getElem?_map, ha]
        rfl
      obtain ⟨h₁, hget₁⟩ := List.getElem?_eq_some_iff.mp (horder t' step' hstep')
      obtain ⟨h₂, hget₂⟩ := List.getElem?_eq_some_iff.mp (horder t step hstep)
      have heq := (List.Nodup.getElem_inj_iff σ.lined.listed.nodup).mp
        (hget₁.trans (hsame.trans hget₂.symm))
      omega
    · rw [hstep] at hstep'
      cases hstep'
      rw [hn] at hm
      cases hm
      rw [hop] at hop'
      cases hop'
      refine ⟨k, x, hk, hx, fun b hb i hi => ?_⟩
      rw [← hslot] at hb
      have := Context.store_holds hstore hb σ.apart i hi
      rwa [hbits i hi] at this

/-- A node that writes no stream has a value. -/
theorem exists_value (hstep : σ.schedule.steps[t]? = some step)
    (hn : σ.graph.node? step.node = some n) (hout : n.isOutput = false) :
    ∃ v, step.value = some v := by
  obtain ⟨m, hm, hnone⟩ := σ.lined.faithful.outputs step (List.mem_of_getElem? hstep)
  rw [hn] at hm
  cases hm
  cases hv : step.value with
  | some v => exact ⟨v, rfl⟩
  | none =>
    rw [hnone.mp hv] at hout
    cases hout

/-- Columns that are all one pattern show it for every instance. -/
theorem instanceBits_replicate (σ : Simulation batches) (w : UInt32) {i : Nat}
    (hi : i < σ.context.instances) :
    instanceBits (Vector.replicate batches (Lanes.splat w)) i = w := by
  have hlt : i / 4 < batches := by
    rw [σ.batches_eq, batchCount]
    omega
  unfold instanceBits
  rw [Vector.getElem?_eq_getElem hlt, Vector.getElem_replicate]
  simp [Lanes.get, Lanes.splat]

/-- Combining with a constant is combining with a column of it. -/
theorem map_zip_splat (f : UInt32 → UInt32 → UInt32) (x : Column batches) (w : UInt32) :
    x.map (fun lanes => Lanes.zip f lanes (Lanes.splat w)) =
      zipColumns (Lanes.zip f) x (Vector.replicate batches (Lanes.splat w)) := by
  unfold zipColumns
  ext i hi : 1
  simp only [Vector.getElem_map, Vector.getElem_zipWith, Vector.getElem_replicate]

/-- The values of all arguments are in their registers. -/
theorem Agrees.arguments (h : σ.Agrees t st) (hstep : σ.schedule.steps[t]? = some step)
    (hn : σ.graph.node? step.node = some n) {offset : Nat} {ids : List NodeId}
    (hids : ∀ c ∈ ids, c ∈ σ.graph.readOperands n) {registers : List UInt32}
    {columns : List (Column batches)}
    (hregisters : ids.mapM (σ.schedule.source σ.graph).register = .ok registers)
    (hcolumns : registers.mapM (st.register offset) = .ok columns) :
    ids.mapM σ.column? = some columns := by
  induction ids generalizing registers columns with
  | nil =>
    cases hregisters
    cases hcolumns
    rfl
  | cons id rest ih =>
    rw [List.mapM_cons] at hregisters
    obtain ⟨a, ha, hregisters⟩ := bind_eq_ok.mp hregisters
    obtain ⟨as, has, hregisters⟩ := bind_eq_ok.mp hregisters
    cases hregisters
    rw [List.mapM_cons] at hcolumns
    obtain ⟨x, hx, hcolumns⟩ := bind_eq_ok.mp hcolumns
    obtain ⟨xs, hxs, hcolumns⟩ := bind_eq_ok.mp hcolumns
    cases hcolumns
    have hfirst := h.operand hstep hn (hids id List.mem_cons_self) ha hx
    have hrest := ih (fun c hc => hids c (List.mem_cons_of_mem _ hc)) has hxs
    rw [List.mapM_cons, hfirst, hrest]
    rfl

/-- A step that succeeds keeps the agreement. -/
theorem Agrees.next (h : σ.Agrees t st) (hstep : σ.schedule.steps[t]? = some step)
    (hn : σ.graph.node? step.node = some n) {i : Instruction} {offset : Nat}
    (hreal : Realizes (σ.schedule.source σ.graph) σ.tables
      ((step.value.map (σ.schedule.source σ.graph).registerOfValue).getD 0) n i)
    (hrun : σ.context.step st offset i = .ok st') : σ.Agrees (t + 1) st' := by
  have hvalue : σ.column? step.node = σ.graph.nodeColumn? σ.world σ.column? n :=
    σ.value step.node (mem_order hstep) n hn
  unfold Graph.nodeColumn? at hvalue
  -- The value that a step makes is put into the register of its node.
  have hwrite : ∀ {x y : Column batches} {r : UInt32}, n.isOutput = false →
      r = (step.value.map (σ.schedule.source σ.graph).registerOfValue).getD 0 →
      st.register offset r = .ok y → σ.column? step.node = some x →
      σ.Agrees (t + 1) (st.setRegister r x) := by
    intro x y r hout hr hy hx
    obtain ⟨v, hv⟩ := exists_value hstep hn hout
    rw [hv] at hr
    exact h.write hstep hv hr hy hx
  cases hreal with
  | move op literal =>
    obtain ⟨y, hy, hrun⟩ := bind_eq_ok.mp hrun
    cases hrun
    rw [op] at hvalue
    dsimp only at hvalue
    rw [literal] at hvalue
    exact hwrite (by rw [Node.isOutput, op]) rfl hy hvalue
  | load op slot =>
    obtain ⟨y, hy, hrun⟩ := bind_eq_ok.mp hrun
    rw [σ.slot_toNat σ.sparse.inputs slot] at hrun
    rw [op] at hvalue
    dsimp only at hvalue
    rw [σ.fits.input _ _ slot] at hvalue
    split at hrun
    · cases hrun
    · rename_i input hinput
      rw [hinput] at hvalue
      split at hrun
      · cases hrun
      · split at hrun
        · cases hrun
          exact hwrite (by rw [Node.isOutput, op]) rfl hy hvalue
        · cases hrun
  | storeConst op slot held constant literal =>
    exact h.store hstep hn op slot (column?_constant held constant literal)
      (fun i hi => (σ.instanceBits_replicate _ hi).symm) hrun
  | store op slot read register =>
    obtain ⟨x, hx, hrun⟩ := bind_eq_ok.mp hrun
    exact h.store hstep hn op slot (h.operand hstep hn read register hx) (fun _ _ => rfl) hrun
  | apply op function register =>
    obtain ⟨y, hy, hrun⟩ := bind_eq_ok.mp hrun
    obtain ⟨x, hx, hrun⟩ := bind_eq_ok.mp hrun
    cases hrun
    have hread := mem_readOperands 0 (g := σ.graph) (n := n) (by rw [Node.children, op]; rfl)
      (by rw [op]; rfl)
    have hcolumn := h.operand hstep hn hread register hx
    rw [op] at hvalue
    dsimp only at hvalue
    rw [Schedule.source_graph] at function
    rw [UnaryOp.pattern?_of_laneFunction? function, hcolumn] at hvalue
    exact hwrite (by rw [Node.isOutput, op]) rfl hy hvalue
  | combine op operation leftRegister read rightRegister =>
    obtain ⟨z, hz, hrun⟩ := bind_eq_ok.mp hrun
    obtain ⟨x, hx, hrun⟩ := bind_eq_ok.mp hrun
    obtain ⟨y, hy, hrun⟩ := bind_eq_ok.mp hrun
    cases hrun
    have hread := mem_readOperands 0 (g := σ.graph) (n := n) (by rw [Node.children, op]; rfl)
      (by rw [op]; simp [Graph.holdsOperand])
    have hleft := h.operand hstep hn hread leftRegister hx
    have hright := h.operand hstep hn read rightRegister hy
    rw [op] at hvalue
    dsimp only at hvalue
    rw [Schedule.source_graph] at operation
    rw [BinaryOp.pattern?_of_laneOperation? operation, hleft, hright] at hvalue
    exact hwrite (by rw [Node.isOutput, op]) rfl hz hvalue
  | combineConst op operation leftRegister held constant literal =>
    obtain ⟨z, hz, hrun⟩ := bind_eq_ok.mp hrun
    obtain ⟨x, hx, hrun⟩ := bind_eq_ok.mp hrun
    cases hrun
    have hread := mem_readOperands 0 (g := σ.graph) (n := n) (by rw [Node.children, op]; rfl)
      (by rw [op]; simp [Graph.holdsOperand])
    have hleft := h.operand hstep hn hread leftRegister hx
    rw [op] at hvalue
    dsimp only at hvalue
    rw [Schedule.source_graph] at operation
    rw [BinaryOp.pattern?_of_laneOperation? operation, hleft,
      column?_constant held constant literal] at hvalue
    rw [map_zip_splat]
    exact hwrite (by rw [Node.isOutput, op]) rfl hz hvalue
  | select op conditionRegister trueRegister falseRegister =>
    obtain ⟨z, hz, hrun⟩ := bind_eq_ok.mp hrun
    obtain ⟨m, hm, hrun⟩ := bind_eq_ok.mp hrun
    obtain ⟨x, hx, hrun⟩ := bind_eq_ok.mp hrun
    obtain ⟨y, hy, hrun⟩ := bind_eq_ok.mp hrun
    cases hrun
    have hread := children_subset_readOperands (g := σ.graph) op fun _ _ => rfl
    have hmask := h.operand hstep hn (hread (by simp [Operation.children])) conditionRegister hm
    have htrue := h.operand hstep hn (hread (by simp [Operation.children])) trueRegister hx
    have hfalse := h.operand hstep hn (hread (by simp [Operation.children])) falseRegister hy
    rw [op] at hvalue
    dsimp only at hvalue
    rw [hmask, htrue, hfalse] at hvalue
    exact hwrite (by rw [Node.isOutput, op]) rfl hz hvalue
  | call op chosen slot argumentRegisters =>
    unfold Context.step at hrun
    dsimp only at hrun
    rw [σ.slot_toNat σ.sparse.functions slot] at hrun
    split at hrun
    · cases hrun
    · rename_i native hnative
      obtain ⟨z, hz, hrun⟩ := bind_eq_ok.mp hrun
      obtain ⟨columns, hcolumns, hrun⟩ := bind_eq_ok.mp hrun
      cases hrun
      have hread := children_subset_readOperands (g := σ.graph) op fun _ _ => rfl
      dsimp only [Operation.children] at hread
      have harguments := h.arguments hstep hn (fun _ hc => hread hc) argumentRegisters hcolumns
      rw [op] at hvalue
      dsimp only at hvalue
      rw [Schedule.source_graph] at chosen
      rw [chosen, Option.bind_eq_bind, Option.bind_some, σ.fits.native _ _ slot, hnative,
        harguments, σ.fits.globals] at hvalue
      exact hwrite (by rw [Node.isOutput, op]) rfl hz hvalue

/-- Instructions that all succeed keep the agreement from the first step that
they carry out to the end. -/
theorem Agrees.run {later : List Step} {is : List Instruction} {final : State batches}
    (hsteps : σ.schedule.steps.drop t = later) (h : σ.Agrees t st)
    (hreal : CarryOut (σ.schedule.source σ.graph) σ.tables later is)
    (hrun : σ.context.Executes st is final) : σ.Agrees (t + later.length) final := by
  induction hreal generalizing t st with
  | nil =>
    cases hrun
    exact h
  | @cons first i later is hfirst hrest ih =>
    cases hrun with
    | cons offset hstep hlater =>
      obtain ⟨n, hn, hreal⟩ := hfirst
      have hget : σ.schedule.steps[t]? = some first := by
        have := congrArg (·[0]?) hsteps
        simpa only [List.getElem?_drop, Nat.add_zero, List.getElem?_cons_zero] using this
      have hdrop : σ.schedule.steps.drop (t + 1) = later := by
        rw [← List.drop_drop, hsteps]
        rfl
      have hend := ih hdrop (h.next hget hn hreal hstep) hlater
      rwa [List.length_cons, Nat.add_comm later.length 1, ← Nat.add_assoc]

end Simulation

end LaneGraph
