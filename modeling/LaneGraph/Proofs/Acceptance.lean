import LaneGraph.Proofs.Compilation
import LaneGraph.Proofs.Lifetimes

/-!
# What the compiler accepts

A graph that passes the pipeline has an instruction for every node, a literal for
every operand that an instruction holds and, with one exception, a register for
every operand that it reads. The exception is an output that is used as an
operand: it passes the pipeline, but it has no value. So a graph that passes is
compiled if and only if no output is an operand.
-/

namespace LaneGraph

open Build Emission

namespace Graph

/-- No output is an operand of a node that the outputs depend on. -/
def OutputsUnread (g : Graph) : Prop :=
  ∀ (id : NodeId) (n : Node), g.Needs id → g.node? id = some n →
    ∀ c ∈ n.children, ∀ m, g.node? c = some m → m.isOutput = false

/-- A node that can be put into a line is one that the outputs depend on. -/
theorem needs_of_fromOutputs {g : Graph} {id : NodeId}
    (h : g.FromOutputs g.scheduledOperands id) : g.Needs id := by
  obtain ⟨output, houtput, hreach⟩ := h
  refine ⟨output, houtput, ?_⟩
  induction hreach with
  | refl => exact .refl
  | tail _ hstep ih =>
    obtain ⟨next, hnext, hmem⟩ := hstep
    obtain ⟨n, hn, rfl, -⟩ := Schedule.scheduledOperands_eq_ok hnext
    exact ih.tail ⟨n, hn, mem_children_of_readOperands hmem⟩

/-- An operand that an instruction holds is a literal. -/
theorem constant_of_held {g : Graph} {op : Operation} {index : Nat} {c : NodeId}
    (h : g.holdsOperand op index c = true) :
    ∃ m, g.node? c = some m ∧ m.constant?.isSome = true := by
  have hliteral : ((g.node? c).bind Node.constant?).isSome = true := by
    unfold holdsOperand at h
    dsimp only at h
    split at h
    · exact (Bool.and_eq_true_iff.mp h).1
    · exact h
    · cases h
  cases hm : g.node? c with
  | none =>
    rw [hm] at hliteral
    cases hliteral
  | some m =>
    rw [hm] at hliteral
    exact ⟨m, rfl, hliteral⟩

/-- What an instruction does not read from a register is a literal. -/
theorem constant_of_not_read {g : Graph} {n : Node} {c : NodeId} (hc : c ∈ n.children)
    (h : c ∉ g.readOperands n) : ∃ m, g.node? c = some m ∧ m.constant?.isSome = true := by
  obtain ⟨index, hindex⟩ := List.getElem?_of_mem hc
  have hheld : g.holdsOperand n.op index c = true := by
    by_contra hnot
    exact h (mem_readOperands index hindex (Bool.eq_false_iff.mpr hnot))
  exact constant_of_held hheld

/-- A literal has no operands. -/
theorem children_of_constant {n : Node} (h : n.constant?.isSome = true) : n.children = [] := by
  unfold Node.constant? at h
  unfold Node.children
  cases hop : n.op with
  | constant c => rfl
  | _ =>
    rw [hop] at h
    cases h

end Graph

/-- A node that the outputs depend on is in the line, or it is a literal. -/
theorem Listed.mem_or_constant {g : Graph} {order : List NodeId}
    (h : Listed g.scheduledOperands order) (houtputs : ∀ id ∈ g.outputs, id ∈ order) {id : NodeId}
    (hid : g.Needs id) :
    id ∈ order ∨ ∃ n, g.node? id = some n ∧ n.constant?.isSome = true := by
  obtain ⟨output, houtput, hpath⟩ := hid
  induction hpath with
  | refl => exact .inl (houtputs output houtput)
  | @tail user c _ huse ih =>
    obtain ⟨n, hn, hc⟩ := huse
    rcases ih with hlined | ⟨n', hn', hconstant⟩
    · obtain ⟨next, hnext, hclosed⟩ := h.closed hlined
      obtain ⟨n', hn', rfl, -⟩ := Schedule.scheduledOperands_eq_ok hnext
      rw [hn] at hn'
      cases hn'
      by_cases hread : c ∈ g.readOperands n
      · exact .inl (hclosed c hread)
      · exact .inr (Graph.constant_of_not_read hc hread)
    · rw [hn] at hn'
      cases hn'
      rw [Graph.children_of_constant hconstant] at hc
      cases hc

/-! ## Every node has an instruction -/

namespace Emission

variable {s : Source} {n : Node}

/-- A node of the graph is found. -/
theorem Source.node_ok {id : NodeId} (h : s.graph.node? id = some n) : s.node id = .ok n := by
  unfold Source.node Graph.node
  rw [h]

/-- The kind of a sized node is known. -/
theorem kindOf_ok (h : n.shape.Sized) : kindOf n = .ok n.shape.kind := if_neg h.known

/-- A literal with one component has a pattern. -/
theorem literalBits_total {functions : List Signature} {shapes : List Shape}
    (htyped : n.Typed functions shapes) (hwidth : n.shape.width = 1)
    (hconstant : n.constant?.isSome = true) : ∃ w, literalBits n = .ok w := by
  have hsized := htyped.sized
  unfold Node.constant? at hconstant
  unfold Node.Typed at htyped
  unfold literalBits Node.constant?
  cases hop : n.op with
  | constant c =>
    rw [hop] at htyped
    obtain ⟨-, hvalid, hshape⟩ := htyped
    rw [hshape, (Constant.shape_eq hvalid).1] at hwidth hsized
    obtain ⟨b, hb⟩ := List.length_eq_one_iff.mp hwidth
    obtain ⟨v, hv, -⟩ := Scalar.ofBits?_total hsized.known b
    refine ⟨v.bits, ?_⟩
    dsimp only
    rw [if_neg hsized.known]
    unfold Constant.scalar?
    rw [hb]
    dsimp only
    rw [hv]
  | _ =>
    rw [hop] at hconstant
    cases hconstant

/-- What is known of the operands of a node whose instruction is emitted. -/
structure Ready (s : Source) (n : Node) : Prop where
  /-- They are in the arena, and their kinds are known. -/
  nodes : ∀ c ∈ n.children, ∃ m, s.graph.node? c = some m ∧ m.shape.Sized
  /-- Literals have patterns. -/
  literals : ∀ c ∈ n.children, ∀ m, s.graph.node? c = some m → m.constant?.isSome = true →
    ∃ w, literalBits m = .ok w
  /-- Those that are read have registers. -/
  registers : ∀ c ∈ s.graph.readOperands n, ∃ a, s.register c = .ok a

/-- An operand that an instruction holds is a literal with a pattern. -/
theorem Ready.held (h : Ready s n) {index : Nat} {c : NodeId} (hc : c ∈ n.children)
    (hheld : s.graph.holdsOperand n.op index c = true) :
    ∃ m w, s.node c = .ok m ∧ literalBits m = .ok w := by
  obtain ⟨m, hm, hliteral⟩ := Graph.constant_of_held hheld
  obtain ⟨w, hw⟩ := h.literals c hc m hm hliteral
  exact ⟨m, w, Source.node_ok hm, hw⟩

/-- An operand that an instruction does not hold has a register. -/
theorem Ready.read (h : Ready s n) (index : Nat) {c : NodeId} (hc : n.children[index]? = some c)
    (hheld : s.graph.holdsOperand n.op index c = false) : ∃ a, s.register c = .ok a :=
  h.registers c (mem_readOperands index hc hheld)

/-- An operator with one operand is carried out if there is an instruction for the
kind of the operand. -/
theorem instruction_unary {op : UnaryOp} {a : NodeId} (hop : n.op = .unary op a) (h : Ready s n)
    (hsized : n.shape.Sized)
    (hencodable : (op.laneFunction? (s.graph.shapeAt a).kind n.shape.kind).isSome = true)
    (t : Tables) (r : UInt32) : ∃ i t', instruction s t n r = .ok (i, t') := by
  have hchild : n.children[0]? = some a := by
    unfold Node.children
    rw [hop]
    rfl
  obtain ⟨m, hm, hmsized⟩ := h.nodes a (List.mem_of_getElem? hchild)
  obtain ⟨x, hx⟩ := h.read 0 hchild (by rw [hop]; rfl)
  rw [Graph.shapeAt_eq hm] at hencodable
  obtain ⟨f, hf⟩ := Option.isSome_iff_exists.mp hencodable
  have hfunction : orNoEncoding n (op.laneFunction? m.shape.kind n.shape.kind) = .ok f := by
    rw [hf]
    rfl
  unfold instruction
  rw [hop]
  exact ⟨_, _, bind_eq_ok.mpr ⟨m, Source.node_ok hm, bind_eq_ok.mpr ⟨_, kindOf_ok hmsized,
    bind_eq_ok.mpr ⟨_, kindOf_ok hsized, bind_eq_ok.mpr ⟨f, hfunction, bind_eq_ok.mpr
      ⟨x, hx, rfl⟩⟩⟩⟩⟩⟩

/-- An operator with two operands is carried out if there is an instruction for the
kind of the left one. -/
theorem instruction_binary {op : BinaryOp} {a b : NodeId} (hop : n.op = .binary op a b)
    (h : Ready s n)
    (hencodable : (op.laneOperation? (s.graph.shapeAt a).kind).isSome = true) (t : Tables)
    (r : UInt32) : ∃ i t', instruction s t n r = .ok (i, t') := by
  have hleft : n.children[0]? = some a := by
    unfold Node.children
    rw [hop]
    rfl
  have hright : n.children[1]? = some b := by
    unfold Node.children
    rw [hop]
    rfl
  obtain ⟨m, hm, hmsized⟩ := h.nodes a (List.mem_of_getElem? hleft)
  obtain ⟨x, hx⟩ := h.read 0 hleft (by rw [hop]; exact Bool.and_false _)
  rw [Graph.shapeAt_eq hm] at hencodable
  obtain ⟨o, ho⟩ := Option.isSome_iff_exists.mp hencodable
  have hoperation : orNoEncoding n (op.laneOperation? m.shape.kind) = .ok o := by
    rw [ho]
    rfl
  -- The right operand is held by the instruction, or it is read.
  have hlast : ∃ i t', (if s.graph.holdsOperand (.binary op a b) 1 b then do
        return (Instruction.combineConst o r x (← literalBits (← s.node b)), t)
      else do return (Instruction.combine o r x (← s.register b), t)) = .ok (i, t') := by
    by_cases hhold : s.graph.holdsOperand (.binary op a b) 1 b = true
    · obtain ⟨m', w, hm', hw⟩ := h.held (List.mem_of_getElem? hright) (by rw [hop]; exact hhold)
      rw [if_pos hhold]
      exact ⟨_, _, bind_eq_ok.mpr ⟨m', hm', bind_eq_ok.mpr ⟨w, hw, rfl⟩⟩⟩
    · obtain ⟨y, hy⟩ := h.read 1 hright (by rw [hop]; exact Bool.eq_false_iff.mpr hhold)
      rw [if_neg hhold]
      exact ⟨_, _, bind_eq_ok.mpr ⟨y, hy, rfl⟩⟩
  obtain ⟨i, t', hlast⟩ := hlast
  unfold instruction
  rw [hop]
  exact ⟨i, t', bind_eq_ok.mpr ⟨m, Source.node_ok hm, bind_eq_ok.mpr ⟨_, kindOf_ok hmsized,
    bind_eq_ok.mpr ⟨o, hoperation, bind_eq_ok.mpr ⟨x, hx, hlast⟩⟩⟩⟩⟩

/-- A node that has an instruction is carried out by one. -/
theorem instruction_total (htyped : n.Typed s.graph.functions (n.children.map s.graph.shapeAt))
    (hwidth : n.shape.width = 1)
    (hencodable : n.encodable (n.children.map s.graph.shapeAt) = true) (h : Ready s n)
    (t : Tables) (r : UInt32) : ∃ i t', instruction s t n r = .ok (i, t') := by
  have hsized := htyped.sized
  have hread : ∀ (index : Nat) (c : NodeId), n.op.children[index]? = some c →
      s.graph.holdsOperand n.op index c = false → ∃ a, s.register c = .ok a :=
    fun index _ hc => h.read index hc
  unfold Node.children at hencodable
  unfold Node.encodable at hencodable
  cases hop : n.op with
  | constant c =>
    obtain ⟨w, hw⟩ := literalBits_total htyped hwidth (by unfold Node.constant?; rw [hop]; rfl)
    unfold instruction
    rw [hop]
    exact ⟨_, _, bind_eq_ok.mpr ⟨w, hw, rfl⟩⟩
  | input channel =>
    unfold instruction
    rw [hop]
    exact ⟨_, _, rfl⟩
  | output channel source =>
    have hsource : n.children[0]? = some source := by
      unfold Node.children
      rw [hop]
      rfl
    unfold instruction
    rw [hop]
    dsimp only
    by_cases hhold : s.graph.holdsOperand (.output channel source) 0 source = true
    · obtain ⟨m, w, hm, hw⟩ := h.held (List.mem_of_getElem? hsource) (by rw [hop]; exact hhold)
      rw [if_pos hhold]
      exact ⟨_, _, bind_eq_ok.mpr ⟨m, hm, bind_eq_ok.mpr ⟨w, hw, rfl⟩⟩⟩
    · obtain ⟨a, ha⟩ := h.read 0 hsource (by rw [hop]; exact Bool.eq_false_iff.mpr hhold)
      rw [if_neg hhold]
      exact ⟨_, _, bind_eq_ok.mpr ⟨a, ha, rfl⟩⟩
  | unary op a =>
    rw [hop] at hencodable
    exact instruction_unary hop h hsized hencodable t r
  | binary op a b =>
    rw [hop] at hencodable
    exact instruction_binary hop h hencodable t r
  | ternary op a b c =>
    rw [hop] at hread hencodable
    cases op with
    | select =>
      obtain ⟨choice, hchoice⟩ := Option.isSome_iff_exists.mp hencodable
      obtain ⟨x, hx⟩ := hread 0 a rfl rfl
      obtain ⟨y, hy⟩ := hread 1 b rfl rfl
      obtain ⟨z, hz⟩ := hread 2 c rfl rfl
      have hkind : orNoEncoding n n.shape.kind.choice? = .ok choice := by
        rw [hchoice]
        rfl
      unfold instruction
      rw [hop]
      exact ⟨_, _, bind_eq_ok.mpr ⟨_, kindOf_ok hsized, bind_eq_ok.mpr ⟨choice, hkind,
        bind_eq_ok.mpr ⟨x, hx, bind_eq_ok.mpr ⟨y, hy, bind_eq_ok.mpr ⟨z, hz, rfl⟩⟩⟩⟩⟩⟩
    | _ => cases hencodable
  | call candidates arguments =>
    rw [hop] at hread
    have hcalls : n.Calls s.graph.functions candidates (n.children.map s.graph.shapeAt) := by
      unfold Node.Typed at htyped
      rw [hop] at htyped
      exact htyped
    obtain ⟨f, hf, -⟩ := hcalls.chosen hop
    obtain ⟨registers, hregisters⟩ := mapM_total (f := s.register) fun c (hc : c ∈ arguments) => by
      obtain ⟨index, hindex⟩ := List.getElem?_of_mem hc
      exact hread index c hindex rfl
    unfold instruction
    rw [hop]
    dsimp only
    rw [hf]
    exact ⟨_, _, bind_eq_ok.mpr ⟨registers, hregisters, rfl⟩⟩
  | swizzle _ _ | construct _ =>
    rw [hop] at hencodable
    cases hencodable

/-- Steps whose nodes have instructions are written out. -/
theorem instructions_total {steps : List Step}
    (h : ∀ step ∈ steps, ∃ n, s.graph.node? step.node = some n ∧
      ∀ t r, ∃ i t', instruction s t n r = .ok (i, t')) (t : Tables) :
    ∃ out, instructions s t steps = .ok out := by
  induction steps generalizing t with
  | nil => exact ⟨_, rfl⟩
  | cons step rest ih =>
    obtain ⟨n, hn, hinstruction⟩ := h step List.mem_cons_self
    obtain ⟨i, t', hi⟩ := hinstruction t ((step.value.map s.registerOfValue).getD 0)
    obtain ⟨⟨is, t''⟩, his⟩ := ih (fun step hstep => h step (List.mem_cons_of_mem _ hstep)) t'
    rw [instructions]
    exact ⟨(i :: is, t''), bind_eq_ok.mpr ⟨n, Source.node_ok hn, bind_eq_ok.mpr ⟨_, hi,
      bind_eq_ok.mpr ⟨_, his, rfl⟩⟩⟩⟩

/-- A source whose steps have instructions has a program. -/
theorem program_total (h : ∀ step ∈ s.schedule.steps, ∃ n, s.graph.node? step.node = some n ∧
      ∀ t r, ∃ i t', instruction s t n r = .ok (i, t')) : ∃ p, program s = .ok p := by
  obtain ⟨⟨is, t⟩, hout⟩ := instructions_total h (declaredInputs s)
  exact ⟨_, bind_eq_ok.mpr ⟨(is, t), hout, rfl⟩⟩

end Emission

/-! ## Machine form -/

section

variable {g : Graph} {made : List Delivery} {tracked simple : Prop} {read : String → UInt32}

/-- A graph in machine form is put into a line. -/
theorem Schedule.ofGraph_total (h : Stage (Folding.rules tracked simple read true).rules g made)
    (hne : g.outputs ≠ []) : ∃ s, Schedule.ofGraph g = .ok s := by
  obtain ⟨w, hs, hwrites⟩ := h
  have hnext : ∀ id, w.live id → ∃ next, g.scheduledOperands id = .ok next ∧
      ∀ c ∈ next, w.live c := by
    intro id hid
    obtain ⟨n, hn, hsound⟩ := hs id hid
    have hchildren : (n.children.reverse.find? fun child => (g.node? child).isNone) = none := by
      rw [List.find?_eq_none]
      intro c hc
      obtain ⟨m, hm⟩ := hs.node (hsound.live c (List.mem_reverse.mp hc))
      rw [hm]
      exact Bool.false_ne_true
    refine ⟨g.readOperands n, ?_, fun c hc => hsound.live c (mem_children_of_readOperands hc)⟩
    unfold Graph.scheduledOperands
    rw [hn]
    dsimp only
    rw [hchildren]
  obtain ⟨order, hwalk⟩ := Graph.walk_total hnext fun id => hwrites.live
  unfold Schedule.ofGraph
  rw [if_neg (by rw [List.isEmpty_iff]; exact hne), hwalk]
  exact ⟨_, rfl⟩

/-- A graph in machine form whose outputs are not read has a program. -/
theorem Emission.program_of_stage (h : Stage (Folding.rules tracked simple read true).rules g made)
    (hunread : g.OutputsUnread) {s : Schedule} (hschedule : Schedule.ofGraph g = .ok s) :
    ∃ p, program (s.source g) = .ok p := by
  obtain ⟨w, hs, hwrites⟩ := h
  obtain ⟨rank, hranked, hrank⟩ := hs.ranked fun _ => Nat.le_refl 1
  obtain ⟨order, hwalk, rfl⟩ := Schedule.ofGraph_eq_ok hschedule
  obtain ⟨hlisted, hfrom⟩ := Graph.walk_listed hranked.graded hrank (fun _ => hwrites.live) hwalk
  have hfaithful := Schedule.foldl_append_faithful hlisted
  refine program_total fun step hstep => ?_
  have hnode : step.node ∈ order.toList := by
    rw [← hfaithful.nodes]
    exact List.mem_map_of_mem hstep
  obtain ⟨root, hroot, hreach⟩ := (hfrom _).mp hnode
  have hlive := (hranked.graded.reaches (hwrites.live hroot) hreach).1
  obtain ⟨n, hn, hsound⟩ := hs step.node hlive
  obtain ⟨-, hform, -⟩ := hsound.fits
  have hnarrow := Folding.narrow_of_form hform
  unfold Folding.rules Folding.form at hform
  rw [n.narrow_frame] at hnarrow
  refine ⟨n, hn, instruction_total (hsound.typed trivial) (Node.width_of_narrow hnarrow)
    (n.encodable_frame _ ▸ (Bool.and_eq_true_iff.mp hform).2) ⟨?_, ?_, ?_⟩⟩
  · intro c hc
    obtain ⟨m, hm, hmsound⟩ := hs c (hsound.live c hc)
    exact ⟨m, hm, hmsound.sized⟩
  · intro c hc m hm hliteral
    have hmsound := hs.nodeSound (hsound.live c hc) hm
    have hmnarrow := Folding.narrow_of_form hmsound.fits.2.1
    rw [m.narrow_frame] at hmnarrow
    exact literalBits_total (hmsound.typed trivial) (Node.width_of_narrow hmnarrow)
      hliteral
  · -- What is read stands in the line and is no output, so it has a value.
    intro c hc
    have hchild := mem_children_of_readOperands hc
    obtain ⟨m, hm⟩ := hs.node (hsound.live c hchild)
    have hout := hunread step.node n (Graph.needs_of_fromOutputs ⟨root, hroot, hreach⟩) hn c hchild
      m hm
    obtain ⟨next, hnext, hclosed⟩ := hlisted.closed hnode
    obtain ⟨n', hn', rfl, -⟩ := Schedule.scheduledOperands_eq_ok hnext
    rw [hn] at hn'
    cases hn'
    obtain ⟨v, -, hv, -⟩ := hfaithful.exists_value (hclosed c hc) hm hout
    unfold Source.register
    rw [show (Schedule.source g _).schedule.valueOf? c = some v from hv]
    exact ⟨_, rfl⟩

/-- The schedule of a stage is the line of all that the outputs reach by reading. -/
theorem Schedule.lines_of_stage (h : Stage (Folding.rules tracked simple read true).rules g made)
    {s : Schedule} (hschedule : ofGraph g = .ok s) : ∃ order, s.Lines g order := by
  obtain ⟨w, hs, hwrites⟩ := h
  obtain ⟨rank, hranked, hrank⟩ := hs.ranked fun _ => Nat.le_refl 1
  obtain ⟨order, hwalk, rfl⟩ := ofGraph_eq_ok hschedule
  obtain ⟨hlisted, hfrom⟩ := Graph.walk_listed hranked.graded hrank (fun _ => hwrites.live) hwalk
  exact ⟨order.toList, rfl, hlisted, hfrom⟩

/-- The outputs of a graph with a program are not read. -/
theorem Emission.unread_of_program {s : Schedule} {order : List NodeId} (hlined : s.Lines g order)
    {p : Program} (hp : program (s.source g) = .ok p) : g.OutputsUnread := by
  obtain ⟨rfl, hlisted, hfrom⟩ := hlined
  have hfaithful := Schedule.foldl_append_faithful hlisted
  obtain ⟨is, t, -, -, -, -, -, -, hcarry⟩ := program_eq_ok hp
  have houtputs : ∀ id ∈ g.outputs, id ∈ order :=
    fun id hid => (hfrom id).mpr ⟨id, hid, .refl⟩
  intro id n hid hn c hc m hm
  rcases hlisted.mem_or_constant houtputs hid with hlined | ⟨n', hn', hconstant⟩
  · by_cases hread : c ∈ g.readOperands n
    · obtain ⟨position, step, hstep, rfl⟩ := hfaithful.exists_step hlined
      obtain ⟨n', r, i, hn', hreal⟩ := hcarry.exists_instruction (List.mem_of_getElem? hstep)
      have hgraph : g.node? step.node = some n' := hn'
      rw [hn] at hgraph
      cases hgraph
      obtain ⟨a, ha⟩ := hreal.register hread
      unfold Source.register at ha
      cases hv : (order.foldl (Schedule.append g) {}).valueOf? c with
      | none =>
        rw [show (Schedule.source g _).schedule.valueOf? c = none from hv] at ha
        cases ha
      | some v =>
        obtain ⟨interval, hinterval, rfl⟩ := Schedule.interval_of_valueOf? hv
        obtain ⟨m', hm', hnone⟩ := hfaithful.outputs _
          (List.mem_of_getElem? (hfaithful.step v interval hinterval))
        rw [hm] at hm'
        cases hm'
        cases hout : m.isOutput with
        | false => rfl
        | true => cases hnone.mpr hout
    · obtain ⟨m', hm', hconstant⟩ := Graph.constant_of_not_read hc hread
      rw [hm] at hm'
      cases hm'
      unfold Node.constant? at hconstant
      unfold Node.isOutput
      cases hop : m.op with
      | output _ _ =>
        rw [hop] at hconstant
        cases hconstant
      | _ => rfl
  · rw [hn] at hn'
    cases hn'
    rw [Graph.children_of_constant hconstant] at hc
    cases hc

end

/-- A graph that is built by factories and passes the pipeline is compiled if and only
if no output is an operand of what the outputs depend on. The calls of such a graph have
at most 256 candidates, and no candidate requires more operands than it has inputs. -/
theorem compile_ok_iff_unread (config : CompilerConfig) (g : Graph) (h : g.Built)
    (houtput : g.outputs ≠ []) (stages : List Pipeline.Stage) (g' : Graph)
    (hrun : (Pipeline.run config.tracePasses).runOn g = (.ok stages, g')) :
    (∃ p, (Compiler.compile config g).1 = .ok p) ↔ g'.OutputsUnread := by
  obtain ⟨w, hdraft⟩ := h.draft
  have hstage := (Pipeline.run_ends hdraft houtput config.tracePasses).of_runOn hrun
  constructor
  · rintro ⟨p, hp⟩
    obtain ⟨-, stages', s, hrun', hschedule, hprogram⟩ := Compiler.compile_eq_ok hp
    rw [hrun] at hrun'
    obtain ⟨-, hgraph⟩ := Prod.mk.inj hrun'
    rw [← hgraph] at hschedule hprogram
    obtain ⟨order, hlines⟩ := Schedule.lines_of_stage hstage hschedule
    exact Emission.unread_of_program hlines hprogram
  · intro hunread
    have houtputs : g'.outputs ≠ [] := by
      obtain ⟨w', _, hwrites⟩ := hstage
      intro hnil
      rw [hnil] at hwrites
      exact Pipeline.parts_ne_nil (hdraft.deliveries_ne_nil houtput _)
        (List.forall₂_nil_left_iff.mp hwrites)
    obtain ⟨s, hschedule⟩ := Schedule.ofGraph_total hstage houtputs
    obtain ⟨p, hp⟩ := Emission.program_of_stage hstage hunread hschedule
    refine ⟨p, ?_⟩
    have hempty : ¬g.outputs.isEmpty = true := by
      rw [List.isEmpty_iff]
      exact houtput
    unfold Compiler.compile Compiler.allocate
    rw [if_neg hempty, hrun]
    dsimp only
    rw [hschedule]
    dsimp only
    rw [Allocation.verify_ofIntervals, ite_self]
    exact hp

/-- The squares pass the pipeline. -/
theorem Square.passes : ((Pipeline.run false).runOn graph).1 = .ok [] := by decide +kernel

/-- The squares pass the pipeline and are compiled, so no output of theirs is read. -/
theorem compile_ok_iff_unread_square :
    (Square.graph.Built ∧ Square.graph.outputs ≠ [] ∧
      ((Pipeline.run false).runOn Square.graph).1 = .ok []) ∧
    ((∃ p, (Compiler.compile {} Square.graph).1 = .ok p) ↔
      ((Pipeline.run false).runOn Square.graph).2.OutputsUnread) := by
  have hrun := runOn_eq Square.passes
  exact ⟨⟨Square.built, by decide, Square.passes⟩,
    compile_ok_iff_unread {} Square.graph Square.built (by decide) [] _ hrun⟩

namespace Chained

/-- A stream is read. -/
def reading : Graph := ((Build.input ⟨"a", .of .int 1⟩).runOn {}).2

/-- It is written. -/
def writing : Graph := ((Build.output ⟨"o", .of .int 1⟩ 0).runOn reading).2

/-- The output is written once more. -/
def graph : Graph := ((Build.output ⟨"p", .of .int 1⟩ 1).runOn writing).2

/-- The graph is made by three factories. -/
theorem built : graph.Built := by
  have hreading : reading.Built := .made .empty (.input "a" .int 1) rfl
  have hwriting : writing.Built := .made hreading (.output "o" .int 1 (x := 0) (by decide)) rfl
  exact .made hwriting (.output "p" .int 1 (x := 1) (by decide)) rfl

end Chained

/-- An output that is read passes the pipeline, but it is not compiled. -/
theorem compile_refuses_chained :
    Chained.graph.Built ∧ ((Pipeline.run false).runOn Chained.graph).1 = .ok [] ∧
      (Compiler.compile {} Chained.graph).1 = .error (.invalidNode 1) :=
  ⟨Chained.built, by cbv, by cbv⟩

end LaneGraph
