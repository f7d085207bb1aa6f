import LaneGraph.Proofs.Evaluation
import LaneGraph.Proofs.Results
import LaneGraph.Proofs.Schedule
import LaneGraph.Schedule.Emission

/-!
# What emission makes of nodes

Every step becomes one instruction, and which one depends on its node alone:
registers come from the allocation, and slots are found by name in the finished
tables. A table has at most one entry per step, so its slots are words whenever
the positions of nodes are.
-/

namespace LaneGraph

namespace Emission

section Slots

variable {α : Type} {key : α → String}

/-- An entry is found in a table that has grown where it was found before. -/
theorem findIdx?_of_isPrefix {table table' : List α} (h : table <+: table') {p : α → Bool}
    {i : Nat} (hi : table.findIdx? p = some i) : table'.findIdx? p = some i := by
  obtain ⟨rest, rfl⟩ := h
  rw [List.findIdx?_append, hi]
  rfl

/-- The slot of an entry is where its key is found, and tables only grow. -/
theorem slot_found (key : α → String) (table : List α) (entry : α) :
    (slot key table entry).2.findIdx? (fun other => key other == key entry) =
      some (slot key table entry).1 ∧ table <+: (slot key table entry).2 := by
  unfold slot
  cases h : table.findIdx? fun other => key other == key entry with
  | some i => exact ⟨h, List.prefix_refl _⟩
  | none =>
    refine ⟨?_, List.prefix_append _ _⟩
    dsimp only
    rw [List.findIdx?_append, h]
    simp

/-- A table has one entry per key, and every key is among those mentioned. -/
structure Keyed (key : α → String) (mentioned : List String) (table : List α) : Prop where
  nodup : (table.map key).Nodup
  known : ∀ entry ∈ table, key entry ∈ mentioned

/-- Looking for the slot of a mentioned key keeps one entry per key. -/
theorem Keyed.slot {mentioned : List String} {table : List α} {entry : α}
    (h : Keyed key mentioned table) (hentry : key entry ∈ mentioned) :
    Keyed key mentioned (slot key table entry).2 := by
  unfold Emission.slot
  cases hfind : table.findIdx? fun other => key other == key entry with
  | some i => exact h
  | none =>
    constructor
    · dsimp only
      rw [List.map_append, List.nodup_append]
      refine ⟨h.nodup, List.nodup_singleton _, ?_⟩
      intro a ha b hb heq
      obtain ⟨other, hother, rfl⟩ := List.mem_map.mp ha
      rw [List.map_cons, List.map_nil, List.mem_singleton] at hb
      have hne := List.findIdx?_eq_none_iff.mp hfind other hother
      rw [beq_eq_false_iff_ne] at hne
      exact hne (heq.trans hb)
    · intro e he
      rcases List.mem_append.mp he with he | he
      · exact h.known e he
      · rw [List.mem_singleton] at he
        exact he ▸ hentry

/-- A table is no longer than the list of its keys. -/
theorem Keyed.length_le {mentioned : List String} {table : List α}
    (h : Keyed key mentioned table) : table.length ≤ mentioned.length := by
  have hsub : table.map key ⊆ mentioned := by
    intro k hk
    obtain ⟨e, he, rfl⟩ := List.mem_map.mp hk
    exact h.known e he
  simpa only [List.length_map] using (h.nodup.subperm hsub).length_le

end Slots

/-- The second tables are the first with entries added at their ends. -/
structure Tables.Grow (t t' : Tables) : Prop where
  inputs : t.inputs <+: t'.inputs
  outputs : t.outputs <+: t'.outputs
  functions : t.functions <+: t'.functions

/-- Tables that are left alone grow. -/
theorem Tables.Grow.refl (t : Tables) : t.Grow t :=
  ⟨List.prefix_refl _, List.prefix_refl _, List.prefix_refl _⟩

/-- Tables that grow twice grow. -/
theorem Tables.Grow.trans {t t' t'' : Tables} (h : t.Grow t') (h' : t'.Grow t'') : t.Grow t'' :=
  ⟨h.inputs.trans h'.inputs, h.outputs.trans h'.outputs, h.functions.trans h'.functions⟩

/-- The tables with the entry that a node mentions. -/
def Tables.mention (g : Graph) (t : Tables) (n : Node) : Tables :=
  match n.op with
  | .input channel => (t.input channel).2
  | .output channel _ => (t.output channel).2
  | .call _ _ =>
    match g.chosen? n with
    | some f => (t.function f).2
    | none => t
  | _ => t

/-- What a node mentions is added at the end. -/
theorem Tables.grow_mention (g : Graph) (t : Tables) (n : Node) : t.Grow (t.mention g n) := by
  unfold Tables.mention
  split
  · exact ⟨(slot_found _ _ _).2, List.prefix_refl _, List.prefix_refl _⟩
  · exact ⟨List.prefix_refl _, (slot_found _ _ _).2, List.prefix_refl _⟩
  · split
    · exact ⟨List.prefix_refl _, List.prefix_refl _, (slot_found _ _ _).2⟩
    · exact .refl t
  · exact .refl t

/-- The slot of a key in a table. -/
abbrev slotOf? {α : Type} (key : α → String) (table : List α) (name : String) : Option Nat :=
  table.findIdx? fun other => key other == name

/-- The instruction that carries out a node with result register `r`, given the
finished tables. -/
inductive Realizes (s : Source) (t : Tables) (r : UInt32) (n : Node) : Instruction → Prop
  | move {c : Constant} {v : Scalar} (op : n.op = .constant c) (literal : c.scalar? = some v) :
      Realizes s t r n (.move r v.bits)
  | load {channel : Channel} {k : Nat} (op : n.op = .input channel)
      (slot : slotOf? Channel.name t.inputs channel.name = some k) :
      Realizes s t r n (.load (loadTransfer channel) r (UInt32.ofNat k))
  | storeConst {channel : Channel} {source : NodeId} {k : Nat} {m : Node} {c : Constant}
      {v : Scalar} (op : n.op = .output channel source)
      (slot : slotOf? Channel.name t.outputs channel.name = some k)
      (held : s.graph.node? source = some m) (constant : m.op = .constant c)
      (literal : c.scalar? = some v) :
      Realizes s t r n (.storeConst (storeTransfer channel) (UInt32.ofNat k) v.bits)
  | store {channel : Channel} {source : NodeId} {k : Nat} {a : UInt32}
      (op : n.op = .output channel source)
      (slot : slotOf? Channel.name t.outputs channel.name = some k)
      (read : source ∈ s.graph.readOperands n) (register : s.register source = .ok a) :
      Realizes s t r n (.store (storeTransfer channel) (UInt32.ofNat k) a)
  | apply {op : UnaryOp} {operand : NodeId} {f : LaneFunction} {a : UInt32}
      (op_eq : n.op = .unary op operand)
      (function : op.laneFunction? (s.graph.kindAt operand) n.shape.kind = some f)
      (register : s.register operand = .ok a) : Realizes s t r n (.apply f r a)
  | combine {op : BinaryOp} {left right : NodeId} {o : LaneOperation} {a b : UInt32}
      (op_eq : n.op = .binary op left right)
      (operation : op.laneOperation? (s.graph.kindAt left) = some o)
      (leftRegister : s.register left = .ok a) (read : right ∈ s.graph.readOperands n)
      (rightRegister : s.register right = .ok b) : Realizes s t r n (.combine o r a b)
  | combineConst {op : BinaryOp} {left right : NodeId} {o : LaneOperation} {a : UInt32}
      {m : Node} {c : Constant} {v : Scalar} (op_eq : n.op = .binary op left right)
      (operation : op.laneOperation? (s.graph.kindAt left) = some o)
      (leftRegister : s.register left = .ok a) (held : s.graph.node? right = some m)
      (constant : m.op = .constant c) (literal : c.scalar? = some v) :
      Realizes s t r n (.combineConst o r a v.bits)
  | select {condition ifTrue ifFalse : NodeId} {c : Choice} {m a b : UInt32}
      (op : n.op = .ternary .select condition ifTrue ifFalse)
      (conditionRegister : s.register condition = .ok m)
      (trueRegister : s.register ifTrue = .ok a) (falseRegister : s.register ifFalse = .ok b) :
      Realizes s t r n (.select c r m a b)
  | call {candidates : List FunctionId} {arguments : List NodeId} {f : Signature} {k : Nat}
      {registers : List UInt32} (op : n.op = .call candidates arguments)
      (chosen : s.graph.chosen? n = some f)
      (slot : slotOf? Signature.symbol t.functions f.symbol = some k)
      (argumentRegisters : arguments.mapM s.register = .ok registers) :
      Realizes s t r n (.call (UInt32.ofNat k) r registers)

/-- Instructions that carry out steps, one for each. -/
abbrev CarryOut (s : Source) (t : Tables) (steps : List Step) (is : List Instruction) : Prop :=
  List.Forall₂ (fun step i => ∃ n, s.graph.node? step.node = some n ∧
    Realizes s t ((step.value.map s.registerOfValue).getD 0) n i) steps is

/-- A node of the source is a node of its graph. -/
theorem Source.node_eq_ok {s : Source} {id : NodeId} {n : Node} (h : s.node id = .ok n) :
    s.graph.node? id = some n := by
  unfold Source.node Graph.node at h
  cases hn : s.graph.node? id with
  | none => rw [hn] at h; cases h
  | some m =>
    rw [hn] at h
    cases h
    rfl

/-- The known kind of a node is the kind of its shape. -/
theorem kindOf_eq_ok {n : Node} {k : Kind} (h : kindOf n = .ok k) : n.shape.kind = k := by
  unfold kindOf at h
  split at h <;> cases h
  rfl

/-- What there is an instruction for is there. -/
theorem orNoEncoding_eq_ok {α : Type} {n : Node} {x : Option α} {a : α}
    (h : orNoEncoding n x = .ok a) : x = some a := by
  cases x <;> cases h
  rfl

/-- The pattern of a literal is that of its scalar. -/
theorem literalBits_eq_ok {n : Node} {w : UInt32} (h : literalBits n = .ok w) :
    ∃ c v, n.op = .constant c ∧ c.scalar? = some v ∧ w = v.bits := by
  unfold literalBits Node.constant? at h
  cases hop : n.op with
  | constant c =>
    rw [hop] at h
    dsimp only at h
    split at h
    · cases h
    · split at h
      · rename_i v hv
        cases h
        exact ⟨c, v, rfl, hv, rfl⟩
      · cases h
  | _ => rw [hop] at h; cases h

/-- An operand that is not held by the instruction is read from a register. -/
theorem mem_readOperands {g : Graph} {n : Node} (index : Nat) {child : NodeId}
    (hchild : n.children[index]? = some child) (h : g.holdsOperand n.op index child = false) :
    child ∈ g.readOperands n := by
  unfold Graph.readOperands
  rw [List.mem_map]
  refine ⟨(child, index), List.mem_filter.mpr ⟨?_, by simp [h]⟩, rfl⟩
  rw [List.mem_zipIdx_iff_getElem?]
  exact hchild

/-- An operation that holds none of its operands reads all of them. -/
theorem children_subset_readOperands {g : Graph} {n : Node} {op : Operation} (hop : n.op = op)
    (h : ∀ index child, g.holdsOperand op index child = false) :
    op.children ⊆ g.readOperands n := by
  subst hop
  intro child hchild
  obtain ⟨index, hindex⟩ := List.getElem?_of_mem hchild
  exact mem_readOperands index hindex (h index child)

/-- An operand that is read from a register stands where the instruction does not
hold it. -/
theorem exists_index_of_readOperands {g : Graph} {n : Node} {c : NodeId}
    (h : c ∈ g.readOperands n) :
    ∃ index : Nat, n.children[index]? = some c ∧ g.holdsOperand n.op index c = false := by
  unfold Graph.readOperands at h
  rw [List.mem_map] at h
  obtain ⟨⟨child, index⟩, hfilter, rfl⟩ := h
  obtain ⟨hmem, hheld⟩ := List.mem_filter.mp hfilter
  rw [List.mem_zipIdx_iff_getElem?] at hmem
  exact ⟨index, hmem, by simpa using hheld⟩

/-- Operands that are read from registers are operands. -/
theorem mem_children_of_readOperands {g : Graph} {n : Node} {c : NodeId}
    (h : c ∈ g.readOperands n) : c ∈ n.children := by
  obtain ⟨index, hindex, -⟩ := exists_index_of_readOperands h
  exact List.mem_of_getElem? hindex

/-- The instruction of a node has registers for all operands that it reads. -/
theorem Realizes.register {s : Source} {t : Tables} {r : UInt32} {n : Node}
    {i : Instruction} (h : Realizes s t r n i) {c : NodeId} (hc : c ∈ s.graph.readOperands n) :
    ∃ a, s.register c = .ok a := by
  obtain ⟨index, hindex, hheld⟩ := exists_index_of_readOperands hc
  have hmem := List.mem_of_getElem? hindex
  unfold Node.children at hindex hmem
  cases h with
  | move op _ | load op _ =>
    rw [op] at hmem
    cases hmem
  | storeConst op _ held constant _ =>
    rw [op] at hmem hheld
    simp only [Operation.children, List.mem_singleton] at hmem
    subst hmem
    simp [Graph.holdsOperand, held, Node.constant?, constant] at hheld
  | store op _ _ register | apply op _ register =>
    rw [op] at hmem
    simp only [Operation.children, List.mem_singleton] at hmem
    exact ⟨_, hmem ▸ register⟩
  | combine op _ left _ right =>
    rw [op] at hmem
    simp only [Operation.children, List.mem_cons, List.not_mem_nil, or_false] at hmem
    rcases hmem with rfl | rfl
    · exact ⟨_, left⟩
    · exact ⟨_, right⟩
  | combineConst op _ left held constant _ =>
    rw [op] at hindex hheld
    rcases index with _ | _ | index
    · cases hindex
      exact ⟨_, left⟩
    · cases hindex
      simp [Graph.holdsOperand, held, Node.constant?, constant] at hheld
    · cases hindex
  | select op condition ifTrue ifFalse =>
    rw [op] at hmem
    simp only [Operation.children, List.mem_cons, List.not_mem_nil, or_false] at hmem
    rcases hmem with rfl | rfl | rfl
    · exact ⟨_, condition⟩
    · exact ⟨_, ifTrue⟩
    · exact ⟨_, ifFalse⟩
  | call op _ _ arguments =>
    rw [op] at hindex
    obtain ⟨a, ha, -⟩ := mapM_eq_ok_get arguments hindex
    exact ⟨a, ha⟩

/-- An instruction adds what its node mentions to the tables, and in all tables
that grow from these it carries out its node. -/
theorem instruction_realizes {s : Source} {t t' : Tables} {n : Node} {r : UInt32}
    {i : Instruction} (h : instruction s t n r = .ok (i, t')) :
    t' = t.mention s.graph n ∧ ∀ final, t'.Grow final → Realizes s final r n i := by
  unfold instruction at h
  unfold Tables.mention
  cases hop : n.op with
  | constant c =>
    rw [hop] at h
    obtain ⟨w, hw, h⟩ := bind_eq_ok.mp h
    cases h
    obtain ⟨c, v, hc, hv, rfl⟩ := literalBits_eq_ok hw
    exact ⟨rfl, fun final _ => .move hc hv⟩
  | input channel =>
    rw [hop] at h
    cases h
    have hfound := (slot_found Channel.name t.inputs channel).1
    exact ⟨rfl, fun final hfinal =>
      .load hop (findIdx?_of_isPrefix hfinal.inputs hfound)⟩
  | output channel source =>
    rw [hop] at h
    dsimp only at h
    have hfound := (slot_found Channel.name t.outputs channel).1
    split at h
    · obtain ⟨m, hm, h⟩ := bind_eq_ok.mp h
      obtain ⟨w, hw, h⟩ := bind_eq_ok.mp h
      cases h
      obtain ⟨c, v, hc, hv, rfl⟩ := literalBits_eq_ok hw
      exact ⟨rfl, fun final hfinal =>
        .storeConst hop (findIdx?_of_isPrefix hfinal.outputs hfound) (Source.node_eq_ok hm) hc hv⟩
    · rename_i hheld
      obtain ⟨a, ha, h⟩ := bind_eq_ok.mp h
      cases h
      have hread : source ∈ s.graph.readOperands n :=
        mem_readOperands 0 (by rw [Node.children, hop]; rfl)
          (by rw [hop]; simpa using hheld)
      exact ⟨rfl, fun final hfinal =>
        .store hop (findIdx?_of_isPrefix hfinal.outputs hfound) hread ha⟩
  | unary op operand =>
    rw [hop] at h
    obtain ⟨m, hm, h⟩ := bind_eq_ok.mp h
    obtain ⟨k, hk, h⟩ := bind_eq_ok.mp h
    obtain ⟨k', hk', h⟩ := bind_eq_ok.mp h
    obtain ⟨f, hf, h⟩ := bind_eq_ok.mp h
    obtain ⟨a, ha, h⟩ := bind_eq_ok.mp h
    cases h
    refine ⟨rfl, fun final _ => .apply hop ?_ ha⟩
    rw [Graph.kindAt, Source.node_eq_ok hm]
    dsimp only
    rw [kindOf_eq_ok hk, kindOf_eq_ok hk']
    exact orNoEncoding_eq_ok hf
  | binary op left right =>
    rw [hop] at h
    obtain ⟨m, hm, h⟩ := bind_eq_ok.mp h
    obtain ⟨k, hk, h⟩ := bind_eq_ok.mp h
    obtain ⟨o, ho, h⟩ := bind_eq_ok.mp h
    obtain ⟨a, ha, h⟩ := bind_eq_ok.mp h
    have hoperation : op.laneOperation? (s.graph.kindAt left) = some o := by
      rw [Graph.kindAt, Source.node_eq_ok hm]
      dsimp only
      rw [kindOf_eq_ok hk]
      exact orNoEncoding_eq_ok ho
    split at h
    · obtain ⟨m', hm', h⟩ := bind_eq_ok.mp h
      obtain ⟨w, hw, h⟩ := bind_eq_ok.mp h
      cases h
      obtain ⟨c, v, hc, hv, rfl⟩ := literalBits_eq_ok hw
      exact ⟨rfl, fun final _ =>
        .combineConst hop hoperation ha (Source.node_eq_ok hm') hc hv⟩
    · rename_i hheld
      obtain ⟨b, hb, h⟩ := bind_eq_ok.mp h
      cases h
      have hread : right ∈ s.graph.readOperands n :=
        mem_readOperands 1 (by rw [Node.children, hop]; rfl)
          (by rw [hop]; simpa using hheld)
      exact ⟨rfl, fun final _ => .combine hop hoperation ha hread hb⟩
  | ternary op a b c =>
    rw [hop] at h
    cases op with
    | select =>
      obtain ⟨k, hk, h⟩ := bind_eq_ok.mp h
      obtain ⟨choice, hchoice, h⟩ := bind_eq_ok.mp h
      obtain ⟨x, hx, h⟩ := bind_eq_ok.mp h
      obtain ⟨y, hy, h⟩ := bind_eq_ok.mp h
      obtain ⟨z, hz, h⟩ := bind_eq_ok.mp h
      cases h
      exact ⟨rfl, fun final _ => .select hop hx hy hz⟩
    | _ => cases h
  | call candidates arguments =>
    rw [hop] at h
    dsimp only at h
    cases hchosen : s.graph.chosen? n with
    | none => rw [hchosen] at h; cases h
    | some f =>
      rw [hchosen] at h
      obtain ⟨registers, hregisters, h⟩ := bind_eq_ok.mp h
      cases h
      have hfound := (slot_found Signature.symbol t.functions f).1
      exact ⟨rfl, fun final hfinal =>
        .call hop hchosen (findIdx?_of_isPrefix hfinal.functions hfound) hregisters⟩
  | swizzle _ _ => rw [hop] at h; cases h
  | construct _ => rw [hop] at h; cases h

/-- The steps become one instruction each, which carries out the node of its
step in the finished tables. -/
theorem instructions_realizes {s : Source} {steps : List Step} {t t' : Tables}
    {is : List Instruction} (h : instructions s t steps = .ok (is, t')) :
    t.Grow t' ∧ CarryOut s t' steps is := by
  induction steps generalizing t is with
  | nil =>
    cases h
    exact ⟨.refl _, .nil⟩
  | cons step rest ih =>
    rw [instructions] at h
    obtain ⟨n, hn, h⟩ := bind_eq_ok.mp h
    obtain ⟨⟨i, mid⟩, hi, h⟩ := bind_eq_ok.mp h
    obtain ⟨⟨later, final⟩, hlater, h⟩ := bind_eq_ok.mp h
    cases h
    obtain ⟨rfl, hreal⟩ := instruction_realizes hi
    obtain ⟨hgrow, hrest⟩ := ih hlater
    exact ⟨(t.grow_mention s.graph n).trans hgrow, .cons ⟨n, Source.node_eq_ok hn, hreal _ hgrow⟩ hrest⟩

/-- A step of a line has the instruction that carries it out. -/
theorem CarryOut.exists_instruction {s : Source} {t : Tables} {steps : List Step}
    {is : List Instruction} (h : CarryOut s t steps is) {step : Step} (hstep : step ∈ steps) :
    ∃ n r i, s.graph.node? step.node = some n ∧ Realizes s t r n i := by
  induction h with
  | nil => cases hstep
  | cons hfirst _ ih =>
    rcases List.mem_cons.mp hstep with rfl | hrest
    · obtain ⟨n, hn, hreal⟩ := hfirst
      exact ⟨n, _, _, hn, hreal⟩
    · exact ih hrest

/-- The name of the stream that a node reads. -/
def inputName? (n : Node) : Option String :=
  match n.op with
  | .input channel => some channel.name
  | _ => none

/-- The name of the stream that a node writes. -/
def outputName? (n : Node) : Option String :=
  match n.op with
  | .output channel _ => some channel.name
  | _ => none

/-- The symbol of the function that a node calls. -/
def symbol? (g : Graph) (n : Node) : Option String := (g.chosen? n).map Signature.symbol

/-- The names that the nodes of a source mention, one per step at most. -/
def Source.mentioned (s : Source) (name? : Node → Option String) : List String :=
  s.schedule.steps.filterMap fun step => (s.graph.node? step.node).bind name?

/-- A name mentioned by the node of a step. -/
theorem Source.mem_mentioned {s : Source} {name? : Node → Option String} {step : Step}
    {n : Node} {name : String} (hstep : step ∈ s.schedule.steps)
    (hn : s.graph.node? step.node = some n) (hname : name? n = some name) :
    name ∈ s.mentioned name? := by
  unfold Source.mentioned
  rw [List.mem_filterMap]
  exact ⟨step, hstep, by rw [hn]; exact hname⟩

/-- Tables with one entry for each name or symbol that the steps mention. -/
structure Tables.Sparse (s : Source) (t : Tables) : Prop where
  inputs : Keyed Channel.name (s.mentioned inputName?) t.inputs
  outputs : Keyed Channel.name (s.mentioned outputName?) t.outputs
  functions : Keyed Signature.symbol (s.mentioned (symbol? s.graph)) t.functions

/-- What the node of a step mentions keeps one entry for each name or symbol. -/
theorem Tables.Sparse.mention {s : Source} {t : Tables} (h : t.Sparse s) {step : Step} {n : Node}
    (hstep : step ∈ s.schedule.steps) (hn : s.graph.node? step.node = some n) :
    (t.mention s.graph n).Sparse s := by
  unfold Tables.mention
  split
  · rename_i channel hop
    have hname : inputName? n = some channel.name := by rw [inputName?, hop]
    exact ⟨h.inputs.slot (Source.mem_mentioned hstep hn hname), h.outputs, h.functions⟩
  · rename_i channel source hop
    have hname : outputName? n = some channel.name := by rw [outputName?, hop]
    exact ⟨h.inputs, h.outputs.slot (Source.mem_mentioned hstep hn hname), h.functions⟩
  · split
    · rename_i f hchosen
      have hname : symbol? s.graph n = some f.symbol := by rw [symbol?, hchosen]; rfl
      exact ⟨h.inputs, h.outputs, h.functions.slot (Source.mem_mentioned hstep hn hname)⟩
    · exact h
  · exact h

/-- The finished tables have one entry for each name or symbol. -/
theorem instructions_sparse {s : Source} {steps : List Step}
    (hsteps : ∀ step ∈ steps, step ∈ s.schedule.steps) {t t' : Tables} {is : List Instruction}
    (ht : t.Sparse s) (h : instructions s t steps = .ok (is, t')) : t'.Sparse s := by
  induction steps generalizing t is with
  | nil =>
    cases h
    exact ht
  | cons step rest ih =>
    rw [instructions] at h
    obtain ⟨n, hn, h⟩ := bind_eq_ok.mp h
    obtain ⟨⟨i, mid⟩, hi, h⟩ := bind_eq_ok.mp h
    obtain ⟨⟨later, final⟩, hlater, h⟩ := bind_eq_ok.mp h
    cases h
    obtain ⟨rfl, -⟩ := instruction_realizes hi
    exact ih (fun x hx => hsteps x (List.mem_cons_of_mem _ hx))
      (ht.mention (hsteps step List.mem_cons_self) (Source.node_eq_ok hn)) hlater

/-- A stream that is read is mentioned. -/
theorem Source.mentioned_of_reads {s : Source} {name : String} (h : s.reads name = true) :
    name ∈ s.mentioned inputName? := by
  unfold Source.reads at h
  rw [List.any_eq_true] at h
  obtain ⟨step, hstep, h⟩ := h
  cases hn : s.graph.node? step.node with
  | none => rw [hn] at h; cases h
  | some n =>
    rw [hn] at h
    dsimp only at h
    split at h
    · rename_i channel hop
      rw [beq_iff_eq] at h
      have hname : inputName? n = some name := by
        rw [inputName?, hop]
        exact congrArg some h
      exact Source.mem_mentioned hstep hn hname
    · cases h

/-- The declared inputs that are read have one entry per name. -/
theorem declaredInputs_sparse (s : Source) : (declaredInputs s).Sparse s := by
  have hfold : ∀ (channels : List Channel) (t : Tables), t.Sparse s →
      (∀ channel ∈ channels, channel.name ∈ s.mentioned inputName?) →
      (channels.foldl (fun t channel => (t.input channel).2) t).Sparse s := by
    intro channels
    induction channels with
    | nil => exact fun t ht _ => ht
    | cons channel rest ih =>
      intro t ht hnames
      exact ih _ ⟨ht.inputs.slot (hnames channel List.mem_cons_self), ht.outputs, ht.functions⟩
        fun other hother => hnames other (List.mem_cons_of_mem _ hother)
  refine hfold _ {} ⟨⟨List.nodup_nil, fun _ h => (nomatch h)⟩, ⟨List.nodup_nil, fun _ h =>
    (nomatch h)⟩, ⟨List.nodup_nil, fun _ h => (nomatch h)⟩⟩ ?_
  intro channel hchannel
  exact Source.mentioned_of_reads (List.mem_filter.mp hchannel).2

/-- A program is made of the instructions that carry out the steps, with tables
that have no more entries than there are steps. -/
theorem program_eq_ok {s : Source} {p : Program} (h : program s = .ok p) :
    ∃ (is : List Instruction) (t : Tables), p.code = is.flatMap Instruction.encode ∧
      p.inputs = t.inputs ∧ p.outputs = t.outputs ∧ p.functions = t.functions ∧
      p.registerCount = s.allocation.count ∧ t.Sparse s ∧ CarryOut s t s.schedule.steps is := by
  unfold program at h
  obtain ⟨⟨is, t⟩, hrun, h⟩ := bind_eq_ok.mp h
  cases h
  exact ⟨is, t, rfl, rfl, rfl, rfl, rfl,
    instructions_sparse (fun _ hstep => hstep) (declaredInputs_sparse s) hrun,
    (instructions_realizes hrun).2⟩

/-- A slot of a table is below the number of steps. -/
theorem Keyed.slot_lt {α : Type} {key : α → String} {s : Source} {name? : Node → Option String}
    {table : List α} (h : Keyed key (s.mentioned name?) table) {name : String} {k : Nat}
    (hk : slotOf? key table name = some k) : k < s.schedule.steps.length := by
  have hlt : k < table.length := (List.findIdx?_eq_some_iff_getElem.mp hk).1
  have hlen := h.length_le
  have hsteps : (s.mentioned name?).length ≤ s.schedule.steps.length :=
    List.length_filterMap_le _ _
  omega

end Emission

end LaneGraph
