import LaneGraph.Proofs.Preservation
import Mathlib

/-!
# Powers and logarithms

A power has one definition, which looks at the values of its operands: base two and
exponent one are special, small whole exponents have multiplication chains, and all
else goes through logarithms. Folding follows it. Lowering cannot see values, so it
looks at the literals among the operands instead, and at a literal behind a
constructor it does not look. What a power or logarithm is lowered to is therefore a
function of the values of its operands and of the literals among them. Lowering keeps
the values of graphs in which this function agrees with the definition.
-/

namespace LaneGraph

open Build

namespace Power

variable {α β : Type} {mul : α → α → α} {mul' : β → β → β} {f : α → β}

/-- A map that keeps products keeps the values along a chain. -/
theorem extend_map (h : ∀ a b, mul' (f a) (f b) = f (mul a b)) (base : α) (chain : List Product) :
    ∀ values, extend mul' (f base) (values.map f) chain = (extend mul base values chain).map f := by
  induction chain with
  | nil => exact fun _ => rfl
  | cons product rest ih =>
    intro values
    have hget : ∀ i, (values.map f).getD i (f base) = f (values.getD i base) := by
      intro i
      rw [List.getD_eq_getElem?_getD, List.getD_eq_getElem?_getD, List.getElem?_map]
      cases values[i]? <;> rfl
    obtain ⟨a, b⟩ := product
    rw [extend, extend, hget, hget, h, ← List.map_singleton, ← List.map_append]
    exact ih _

/-- A map that keeps products keeps powers. -/
theorem eval_map (h : ∀ a b, mul' (f a) (f b) = f (mul a b)) (base : α) (chain : List Product) :
    eval mul' (f base) chain = f (eval mul base chain) := by
  unfold eval
  rw [← List.map_singleton, extend_map h, List.getLastD_eq_getLast?, List.getLastD_eq_getLast?,
    List.getLast?_map]
  cases (extend mul base [base] chain).getLast? <;> rfl

/-- An exponent with a chain is one of fifteen. -/
theorem exists_of_chain? {n : Int32} {chain : List Product} (h : chain? n = some chain) :
    ∃ k < 15, n = Int32.ofNat (k + 2) ∧ chains[k]? = some chain := by
  unfold chain? at h
  split at h
  · rename_i hle
    obtain ⟨hlt, -⟩ := List.getElem?_eq_some_iff.mp h
    have hle : 2 ≤ n.toInt := Int32.le_iff_toInt_le.mp hle
    refine ⟨n.toInt.toNat - 2, hlt, ?_, h⟩
    have hnat : n.toInt.toNat - 2 + 2 = n.toInt.toNat := by omega
    rw [hnat, ← Int32.toInt_inj, Int32.toInt_ofNat_of_lt]
    · omega
    · have hlength : chains.length = 15 := rfl
      omega
  · cases h

end Power

/-- The operator of a power or logarithm. -/
theorem Node.op_of_isPower {n : Node} (h : n.isPower = true) :
    ∃ op a b, n.op = .binary op a b ∧ (op = .pow ∨ op = .log) := by
  unfold isPower at h
  split at h
  case h_1 hop => exact ⟨_, _, _, hop, .inl rfl⟩
  case h_2 hop => exact ⟨_, _, _, hop, .inr rfl⟩
  case h_3 => cases h

namespace Lowering

/-! ## What is lowered to what -/

section

variable {E : Environment} {g : Graph} {w : World} {id : NodeId} {n : Node}
  {refused : GraphError → Prop}

/-- A node has been made whose first component is given. -/
abbrev Makes (E : Environment) (v : Option Scalar) (new : NodeId) (g' : Graph) : Prop :=
  ∃ w', Sound (rulesFor True False E.interpretation Node.narrow).rules g' w' ∧ w'.live new ∧
    w'.value new 0 = v

/-- Lines make a node with the value that they compute. -/
theorem lines_make {ids : List NodeId} {kinds : List Kind} {kind : Kind} {op : Operation}
    {lines : List Line} {v : Option Scalar}
    (hs : Sound (rulesFor True False E.interpretation Node.narrow).rules g w)
    (hlive : ∀ c ∈ ids, w.live c) (hshapes : ids.map g.shapeAt = shapesOf kinds 1)
    (hne : lines ≠ []) (hfit : fit kinds lines kind op = true)
    (hvalue : ∀ ns, Line.frames (shapesOf kinds 1) lines = some ns →
      (Line.result (rulesFor True False E.interpretation Node.narrow)
        (Entry.operands (shapesOf kinds 1) (ids.map w.value)) lines ns).value 0 = v) :
    Ends (Line.make ids lines) g (Makes E v) refused := by
  have hadmits : Admits False False E Node.narrow := .scalars id E
  have hyields : Ends (Line.make ids lines) g (Yields (rulesFor True False E.interpretation
      Node.narrow).rules g w ⟨kind, 1⟩ fun k => if k < 1 then v else none) refused := by
    refine Yields.of_lines hs hlive hne (hshapes ▸ hadmits.fit hfit) (fun h => h.elim)
      (fun _ ns hns k hk => ?_) fun k hk => if_neg (Nat.not_lt.mpr hk)
    rw [hshapes] at hns ⊢
    rw [if_pos hk, Nat.lt_one_iff.mp hk]
    exact hvalue ns hns
  refine hyields.mono ?_
  rintro new g' ⟨w', _, hs', -, hhas⟩
  refine ⟨w', hs', hhas.live, ?_⟩
  have hnew := congrFun (hhas.value trivial) 0
  exact hnew.symm.trans (if_pos Nat.one_pos)

/-- A power or logarithm is lowered to a node with the value that is written for it. -/
theorem replace_makes (hs : Sound (rulesFor True False E.interpretation Node.narrow).rules g w)
    (hid : w.live id) (hn : g.node? id = some n) (hpower : n.isPower = true) :
    Ends (replace id) g (Makes E (written E.interpretation n (n.children.map g.literalAt)
      (n.children.map w.value))) refused := by
  have hsound := hs.nodeSound hid hn
  have htyped := hsound.typed trivial
  have hnarrow : n.narrow = true := n.narrow_frame ▸ hsound.fits.2.1
  obtain ⟨op, a, b, hop, hlisted⟩ := Node.op_of_isPower hpower
  have hchildren : n.children = [a, b] := by
    unfold Node.children
    rw [hop]
    rfl
  have hlive : ∀ c ∈ [a, b], w.live c := hchildren ▸ hsound.live
  obtain ⟨m, hm⟩ := hs.node (hlive a List.mem_cons_self)
  obtain ⟨m', hm'⟩ := hs.node (hlive b (List.mem_cons_of_mem _ List.mem_cons_self))
  have hoperates := (Node.typed_binary hop).mp htyped
  obtain ⟨t, ht, hshapes, hscalar⟩ :=
    exists_type hoperates (Node.binary_inputWidth hop hnarrow hoperates)
  rw [hchildren] at hshapes
  unfold replace
  rw [ends_bind, ends_node hn, hop]
  rcases hlisted with rfl | rfl
  · rw [written_pow hop]
    show Ends (lowerPow n.shape.kind a b) g _ refused
    rw [ends_pow hm hm' hop hnarrow htyped]
    cases hlines : powerLines? n.shape.kind (g.literalAt a) (g.literalAt b) with
    | none => exact ⟨w, hs, hlive a List.mem_cons_self, (powValue_base hlines).symm⟩
    | some lines =>
      have hresult : n.shape.kind = t.result := by rw [hscalar]
      have hmem := powerLines?_mem hlines
      rw [hresult] at hlines hmem ⊢
      have hnonempty : ∀ t ∈ BinaryOp.pow.types, ∀ lines ∈
          powLines t.result :: [.unary .pow2 1] :: Power.chains.map chainLines, lines ≠ [] := by
        decide
      exact lines_make hs hlive hshapes (hnonempty t ht lines hmem) (pow_fits t ht lines hmem)
        fun ns hns => powerLines?_value ht hlines hns
  · rw [written_log hop]
    show Ends (lowerLog a b) g _ refused
    cases List.mem_singleton.mp ht
    rw [ends_lowerLog hm, ← Graph.literalAt_eq hm]
    obtain ⟨hne, hfit⟩ := fit_logLines (g.literalAt a)
    exact lines_make hs hlive hshapes hne hfit fun ns hns => log_value hns

end

section

variable {g g' : Graph}

/-- A needed power or logarithm of a graph of scalars is lowered to a node with the value
that is written for it. -/
theorem deduced_replace (hacyclic : g.Acyclic) (hg : g.Deduced)
    (hscalar : ∀ id n, g.Needs id → g.node? id = some n →
      n.shape.width = 1 ∧ n.op.onScalars = true ∧ n.op.measures = false)
    {id : NodeId} {n : Node} (hid : g.Needs id) (hn : g.node? id = some n) (hpower : n.isPower = true)
    (P : Processor) (read : Channel → Nat → UInt32) (returned : FunctionId → List Scalar → UInt32) :
    Ends (replace id) g (fun new g' => g'.valueOver P g.functions read returned new 0 =
      written (P.interpretation read (Calls.native g.functions returned)) n
        (n.children.map g.literalAt) (n.children.map (g.valueOver P g.functions read returned)))
      fun _ => False := by
  let E : Environment := ⟨P, read, Calls.native g.functions returned⟩
  let t := rulesFor True False E.interpretation Node.narrow
  have hs := hg.sound (t := { t with need := fun _ => 1 }) hacyclic (fun h => h)
    (fun _ => Nat.le_refl 1) fun id n hid hn => by
      show n.frame.narrow = true
      rw [n.narrow_frame]
      exact (hg.narrow hscalar hid hn).2
  obtain ⟨rank, hs', -⟩ := hs.rescale t.rules 16 (fun _ => Nat.le_refl 1) need_le rfl rfl rfl rfl
  refine (replace_makes hs' hid hn hpower).mono ?_
  rintro new g' ⟨w', hsound, hlive, hvalue⟩
  have hnew : w'.value new = g'.evaluate t.semantics new :=
    hsound.le_evaluate trivial need_pos hlive
  rw [hnew] at hvalue
  exact hvalue

/-- A graph of scalars is lowered. -/
theorem deduced_lowers (hacyclic : g.Acyclic) (hg : g.Deduced)
    (hscalar : ∀ id n, g.Needs id → g.node? id = some n →
      n.shape.width = 1 ∧ n.op.onScalars = true ∧ n.op.measures = false) (hne : g.outputs ≠ []) :
    ∃ g', pass.run.runOn g = (.ok (), g') ∧ ∀ id, g'.Needs id → ∃ n, g'.node? id = some n ∧
      n.encodable (n.children.map g'.shapeAt) = true := by
  let t := rulesFor False False (Environment.literal fun _ => 0).interpretation Node.narrow
  have hs := hg.sound (t := { t with need := fun _ => 1 }) hacyclic (fun h => h)
    (fun _ => Nat.le_refl 1) fun id n hid hn => by
      show n.frame.narrow = true
      rw [n.narrow_frame]
      exact (hg.narrow hscalar hid hn).2
  obtain ⟨_, g', hrun, hstage⟩ := Ends.succeeds (pass_keeps (.scalars id _) hs
    (hg.writes _) (fun h => h.elim) (hg.delivered_ne_nil hne _))
  refine ⟨g', hrun, fun id hid => ?_⟩
  obtain ⟨n, hn, -, hform⟩ := hstage.typed hid trivial
  exact ⟨n, hn, n.encodable_frame _ ▸ (Bool.and_eq_true_iff.mp hform).2⟩

end

/-! ## Ways of the definition -/

/-- Lowering takes the way of the definition, whatever the values of operands are: the
base is a literal two or both operands are literals; for integers, the exponent is a
literal from one to sixteen; for logarithms, the base is a literal. -/
def direct (n : Node) (literals : List (Option Scalar)) : Bool :=
  let left := literals.getD 0 none
  let right := literals.getD 1 none
  match n.op with
  | .binary .pow _ _ =>
    left.any (·.isValue 2) || left.isSome && right.isSome ||
      n.shape.kind = .int && right.any fun e => e.isOne || (literalChain? e).isSome
  | .binary .log _ _ => left.isSome
  | _ => true

section

variable {read : Channel → Nat → UInt32} {calls : Calls} 

/-- Two to a power with a chain. -/
theorem pow2_eq_eval {n : Int32} {chain : List Power.Product} (h : Power.chain? n = some chain) :
    Integer.pow2 n = Power.eval (· * ·) 2 chain := by
  obtain ⟨k, hk, rfl, hchain⟩ := Power.exists_of_chain? h
  have hall : ∀ k < 15, ∀ chain, Power.chains[k]? = some chain → 
      Integer.pow2 (Int32.ofNat (k + 2)) = Power.eval (· * ·) (2 : Int32) chain := by
    intro k hk chain hchain
    interval_cases k <;> cases hchain <;> decide
  exact hall k hk chain hchain

variable (read calls) in
/-- Powers of integers along a chain. -/
theorem eval_int (x : Int32) (chain : List Power.Product) :
    Power.eval ((Processor.program.interpretation read calls).binary .multiply) (some (.int x)) chain =
      some (.int (Power.eval (· * ·) x chain)) :=
  Power.eval_map (f := fun x : Int32 => some (Scalar.int x)) (fun _ _ => rfl) x chain

variable (read calls) in
/-- Powers of numbers along a chain. -/
theorem eval_float (x : Single) (chain : List Power.Product) :
    Power.eval ((Processor.program.interpretation read calls).binary .multiply) (some (.float x)) chain =
      some (.float (Power.eval Single.mul x chain)) :=
  Power.eval_map (f := fun x : Single => some (Scalar.float x)) (fun _ _ => rfl) x chain

/-- A power of integers is lowered to its value if the base is a literal two, if both
operands are literals or if the exponent is a literal from one to sixteen. -/
theorem powValue_int {base exponent : Option Scalar} {x y : Int32}
    (hbase : ∀ v, base = some v → v = .int x) (hexponent : ∀ v, exponent = some v → v = .int y)
    (h : (base.any (·.isValue 2) || base.isSome && exponent.isSome ||
      exponent.any fun e => e.isOne || (literalChain? e).isSome) = true) :
    powValue (Processor.program.interpretation read calls) .int base exponent (some (.int x))
      (some (.int y)) = some (.int (Integer.pow x y)) := by
  unfold powValue
  split_ifs with htwo
  · obtain ⟨v, hv, htwo⟩ := (Option.any_eq_true _ _).mp htwo
    cases hbase v hv
    unfold Integer.pow
    rw [if_pos (beq_iff_eq.mp htwo)]
    rfl
  · rw [Bool.eq_false_iff.mpr htwo, Bool.false_or] at h
    cases exponent with
    | none => simp at h
    | some e =>
      cases hexponent e rfl
      dsimp only
      split_ifs with hone
      · cases beq_iff_eq.mp hone
        unfold Integer.pow
        split_ifs with hx hy
        · rw [hx]
          decide
        · rfl
        · exact absurd rfl hy
      · cases hchain : literalChain? (.int y) with
        | some chain =>
          dsimp only
          rw [eval_int]
          have hchain : Power.chain? y = some chain := hchain
          unfold Integer.pow
          split_ifs with hx hy
          · rw [hx, pow2_eq_eval hchain]
          · rw [hy] at hchain
            cases hchain
          · rw [hchain]
        | none =>
          simp only [Option.isSome_some, Bool.and_true, Option.any_some, hone, hchain,
            Option.isSome_none, Bool.or_self, Bool.or_false] at h
          obtain ⟨v, rfl⟩ := Option.isSome_iff_exists.mp h
          cases hbase v rfl
          have hx : x ≠ 2 := fun hx => htwo (beq_iff_eq.mpr hx)
          have hy : y ≠ 1 := fun hy => hone (beq_iff_eq.mpr hy)
          have hchain : Power.chain? y = none := hchain
          unfold Integer.pow
          rw [if_neg hx, if_neg hy, hchain]
          rfl

/-- A power of numbers is lowered to its value if the base is a literal two or both operands
are literals. -/
theorem powValue_float {base exponent : Option Scalar} {x y : Single}
    (hbase : ∀ v, base = some v → v = .float x) (hexponent : ∀ v, exponent = some v → v = .float y)
    (h : (base.any (·.isValue 2) || base.isSome && exponent.isSome) = true) :
    powValue (Processor.program.interpretation read calls) .float base exponent (some (.float x))
      (some (.float y)) = some (.float (Single.pow x y)) := by
  have heq : (Scalar.float x).isValue 2 = x.eq 2 := by
    have htwo : Single.ofInt32 2 = 2 := by decide
    show x.eq (Single.ofInt32 2) = x.eq 2
    rw [htwo]
  unfold powValue
  split_ifs with htwo
  · obtain ⟨v, hv, htwo⟩ := (Option.any_eq_true _ _).mp htwo
    cases hbase v hv
    rw [heq] at htwo
    unfold Single.pow
    rw [if_pos htwo]
    rfl
  · rw [Bool.eq_false_iff.mpr htwo, Bool.false_or, Bool.and_eq_true] at h
    obtain ⟨v, rfl⟩ := Option.isSome_iff_exists.mp h.1
    obtain ⟨e, rfl⟩ := Option.isSome_iff_exists.mp h.2
    cases hbase v rfl
    cases hexponent e rfl
    have hx : ¬x.eq 2 = true := by
      rw [← heq]
      exact htwo
    dsimp only
    split_ifs with hone
    · have hy : y.eq 1 = true := hone
      unfold Single.pow
      rw [if_neg hx, if_pos hy]
    · have hy : ¬y.eq 1 = true := hone
      cases hchain : literalChain? (.float y) with
      | some chain =>
        have hchain : (y.wholeExponent?).bind Power.chain? = some chain := hchain
        dsimp only
        rw [eval_float]
        unfold Single.pow
        rw [if_neg hx, if_neg hy, hchain]
      | none =>
        have hchain : (y.wholeExponent?).bind Power.chain? = none := hchain
        unfold Single.pow
        rw [if_neg hx, if_neg hy, hchain]
        rfl

/-- A logarithm is lowered to its value if the base is a literal. -/
theorem logValue_eq (x y : Single) :
    logValue (Processor.program.interpretation read calls) (some (.float x)) (some (.float x))
      (some (.float y)) = some (.float (Single.log x y)) := by
  unfold logValue Single.log
  dsimp only
  split_ifs with htwo
  · rfl
  · rfl

end

section

variable {g : Graph}

/-- A power or logarithm on a direct way is lowered to its value. -/
theorem written_of_direct (hacyclic : g.Acyclic) (hg : g.Deduced)
    (hscalar : ∀ id n, g.Needs id → g.node? id = some n →
      n.shape.width = 1 ∧ n.op.onScalars = true ∧ n.op.measures = false)
    (read : Channel → Nat → UInt32) (returned : FunctionId → List Scalar → UInt32)
    {id : NodeId} {n : Node} (hid : g.Needs id) (hn : g.node? id = some n)
    (h : direct n (n.children.map g.literalAt) = true) :
    written (Processor.program.interpretation read (Calls.native g.functions returned)) n
        (n.children.map g.literalAt)
        (n.children.map (g.valueOver .program g.functions read returned)) =
      g.valueOver .program g.functions read returned id 0 := by
  let A := Processor.program.interpretation read (Calls.native g.functions returned)
  let value := g.valueOver .program g.functions read returned
  obtain ⟨htyped, hnarrow⟩ := hg.narrow hscalar hid hn
  have hvalue : value id 0 = A.component n (n.children.map value) 0 := by
    show g.evaluate A.semantics id 0 = _
    rw [hacyclic.evaluate_eq hn]
    exact if_pos (by rw [Node.width_of_narrow hnarrow]; exact Nat.one_pos)
  have hsingle : ∀ c ∈ n.children, (value c).Single (g.shapeAt c).kind := fun c hc =>
    deduced_single hacyclic hg hscalar .program read returned (hid.operand hn hc)
  have hliteral : ∀ c ∈ n.children, ∀ v, g.literalAt c = some v → value c 0 = some v := by
    intro c hc v hv
    obtain ⟨m, hm, hscalar⟩ := Option.bind_eq_some_iff.mp hv
    refine (Folding.literal_known (hg.sound (t := Folding.rulesFor True False A Node.narrow false)
      hacyclic (fun h => h) (fun _ => Nat.le_refl 1) fun id n hid hn => ?_) (hid.operand hn hc) hm
      hscalar).2 trivial
    show (n.frame.narrow && _) = true
    rw [n.narrow_frame, (hg.narrow ‹_› hid hn).2]
    rfl
  show written A n (n.children.map g.literalAt) (n.children.map value) = value id 0
  rw [hvalue]
  cases hpower : n.isPower with
  | false => exact written_of_not_power hpower _ _
  | true =>
    obtain ⟨op, a, b, hop, hlisted⟩ := Node.op_of_isPower hpower
    have hchildren : n.children = [a, b] := by
      unfold Node.children
      rw [hop]
      rfl
    obtain ⟨x, hx, hxkind⟩ := hsingle a (by rw [hchildren]; exact List.mem_cons_self)
    obtain ⟨y, hy, hykind⟩ := hsingle b (by
      rw [hchildren]
      exact List.mem_cons_of_mem _ List.mem_cons_self)
    have hbase : ∀ v, g.literalAt a = some v → v = x := by
      intro v hv
      have hknown := hliteral a (by rw [hchildren]; exact List.mem_cons_self) v hv
      rw [hx] at hknown
      exact (Option.some.inj hknown).symm
    have hexponent : ∀ v, g.literalAt b = some v → v = y := by
      intro v hv
      have hknown := hliteral b (by
        rw [hchildren]
        exact List.mem_cons_of_mem _ List.mem_cons_self) v hv
      rw [hy] at hknown
      exact (Option.some.inj hknown).symm
    have hcomponent : A.component n (n.children.map value) 0 = A.binary op (some x) (some y) := by
      rw [hchildren, List.map_cons, List.map_singleton, Node.binary_component hop hnarrow, hx, hy]
    rw [hcomponent]
    unfold direct at h
    rw [hop, hchildren] at h
    rcases hlisted with rfl | rfl
    · rw [written_pow hop, hx, hy]
      obtain ⟨hleft, hright, hkind⟩ := uniform_operands (by decide) hop hnarrow htyped
      rw [hleft] at hxkind
      rw [hright] at hykind
      rcases hkind with hkind | hkind
      all_goals
        rw [hkind] at h hxkind hykind ⊢
        cases x <;> cases hxkind
        cases y <;> cases hykind
      · simp only [decide_eq_false (show ¬Kind.float = .int by decide), Bool.false_and,
          Bool.or_false] at h
        exact powValue_float hbase hexponent h
      · simp only [decide_true, Bool.true_and] at h
        exact powValue_int hbase hexponent h
    · rw [written_log hop, hx, hy]
      obtain ⟨t, ht, -, hshapes, -⟩ := ((Node.typed_binary hop).mp htyped).exists_type
      cases List.mem_singleton.mp ht
      rw [hchildren] at hshapes
      obtain ⟨hleft, hrest⟩ := List.cons.inj hshapes
      rw [hleft] at hxkind
      rw [List.singleton_inj.mp hrest] at hykind
      cases x <;> cases hxkind
      cases y <;> cases hykind
      obtain ⟨v, hv⟩ := Option.isSome_iff_exists.mp h
      have hv : g.literalAt a = some v := hv
      rw [hv, hbase v hv]
      exact logValue_eq _ _

end
end Lowering

/-- Lowering keeps powers and logarithms where it follows their definition. In a deduced
graph of scalars without cycles, a power or logarithm that the outputs depend on is
replaced by nodes with the value that `Lowering.written` has on the literals among its
operands and on their values, over every processor and whatever patterns streams hold and
functions return. The whole graph is lowered if there are outputs: every node that they
depend on has an instruction. Wherever the values that are written are those of the powers
and logarithms, every output still writes its stream, with the value that it had. -/
theorem lowering_keeps_powers (g : Graph) (hacyclic : g.Acyclic) (hg : g.Deduced)
    (hscalar : ∀ id n, g.Needs id → g.node? id = some n →
      n.shape.width = 1 ∧ n.op.onScalars = true ∧ n.op.measures = false)
    (hne : g.outputs ≠ []) :
    (∀ id n, g.Needs id → g.node? id = some n → n.isPower = true →
      ∃ new g', (Lowering.replace id).runOn g = (.ok new, g') ∧ ∀ P read returned,
        g'.valueOver P g.functions read returned new 0 =
          Lowering.written (P.interpretation read (Calls.native g.functions returned)) n
            (n.children.map g.literalAt)
            (n.children.map (g.valueOver P g.functions read returned))) ∧
    ∃ g', Lowering.pass.run.runOn g = (.ok (), g') ∧
      (∀ id, g'.Needs id → ∃ n, g'.node? id = some n ∧
        n.encodable (n.children.map g'.shapeAt) = true) ∧
      ∀ P read returned,
        (∀ id n, g.Needs id → g.node? id = some n → n.isPower = true →
          Lowering.written (P.interpretation read (Calls.native g.functions returned)) n
              (n.children.map g.literalAt)
              (n.children.map (g.valueOver P g.functions read returned)) =
            g.valueOver P g.functions read returned id 0) →
        List.Forall₂ (fun id id' => ∃ channel, g.channelAt id = some channel ∧
            g'.channelAt id' = some channel ∧
            g'.valueOver P g.functions read returned id' =
              g.valueOver P g.functions read returned id ∧
            (g.valueOver P g.functions read returned id).Single (g.shapeAt id).kind)
          g.outputs g'.outputs := by
  refine ⟨fun id n hid hn hpower => ?_, ?_⟩
  · have hends := Lowering.deduced_replace hacyclic hg hscalar hid hn hpower
    obtain ⟨new, g', hrun, -⟩ := (hends .program (fun _ _ => 0) fun _ _ => 0).succeeds
    exact ⟨new, g', hrun, fun P read returned => (hends P read returned).of_runOn hrun⟩
  obtain ⟨g', hrun, hencodable⟩ := Lowering.deduced_lowers hacyclic hg hscalar hne
  refine ⟨g', hrun, hencodable, fun P read returned hwritten => ?_⟩
  have hvalue : ∀ id n, g.Needs id → g.node? id = some n →
      let A := P.interpretation read (Calls.native g.functions returned)
      let values := n.children.map (g.valueOver P g.functions read returned)
      Lowering.written A n (n.children.map g.literalAt) values = A.component n values 0 := by
    intro id n hid hn A values
    cases hpower : n.isPower with
    | false => exact Lowering.written_of_not_power hpower _ _
    | true =>
      rw [hwritten id n hid hn hpower]
      unfold Graph.valueOver
      rw [hacyclic.evaluate_eq hn]
      exact if_pos (by rw [(hscalar id n hid hn).1]; exact Nat.one_pos)
  have hends := Lowering.deduced_ends hacyclic hg hscalar hne P read returned hvalue
  have hkeeps := (hends.of_runOn hrun).keeps hg fun _ => Nat.le_refl 1
  refine List.forall₂_iff_get.mpr ⟨hkeeps.length_eq, fun k hk hk' => ?_⟩
  obtain ⟨⟨channel, hchannel, hchannel'⟩, hagree⟩ := hkeeps.get hk hk'
  exact ⟨channel, hchannel, hchannel', (hagree trivial).symm,
    Lowering.deduced_single hacyclic hg hscalar P read returned
      (Graph.needs_of_mem (List.get_mem _ _))⟩

namespace Cube

/-- The logarithm of a number to base ten and the cube of an integer. -/
def graph : Graph where
  nodes := #[
    { op := .input ⟨"x", .of .float 1⟩, shape := ⟨.float, 1⟩, inputWidth := 1 },
    { op := .constant (.ofScalar (.float 10)), shape := ⟨.float, 1⟩, inputWidth := 1 },
    { op := .binary .log 1 0, shape := ⟨.float, 1⟩, overload := some 0, inputWidth := 1 },
    { op := .output ⟨"l", .of .float 1⟩ 2, shape := ⟨.float, 1⟩, inputWidth := 1 },
    { op := .input ⟨"a", .of .int 1⟩, shape := ⟨.int, 1⟩, inputWidth := 1 },
    { op := .constant (.ofScalar (.int 3)), shape := ⟨.int, 1⟩, inputWidth := 1 },
    { op := .binary .pow 4 5, shape := ⟨.int, 1⟩, overload := some 1, inputWidth := 1 },
    { op := .output ⟨"p", .of .int 1⟩ 6, shape := ⟨.int, 1⟩, inputWidth := 1 }]
  outputs := [3, 7]
  inputs := [⟨"x", .of .float 1⟩, ⟨"a", .of .int 1⟩]

/-- The number is given and the integer is minus three. -/
def read (x : Single) (channel : Channel) (_ : Nat) : UInt32 :=
  if channel.name = "x" then x.bits else (-3 : Int32).toUInt32

/-- Operands stand before their users. -/
theorem acyclic : graph.Acyclic := Graph.acyclic_of_before (by decide)

/-- All types are deduced. -/
theorem deduced : graph.Deduced := Graph.deduced_of_all (by decide) (by decide)

/-- All nodes are scalars, and no operator exists for vectors alone. -/
theorem scalar (id : NodeId) (n : Node) (_ : graph.Needs id) (hn : graph.node? id = some n) :
    n.shape.width = 1 ∧ n.op.onScalars = true ∧ n.op.measures = false := by
  have hall : ∀ n ∈ graph.nodes,
      n.shape.width = 1 ∧ n.op.onScalars = true ∧ n.op.measures = false := by
    decide
  exact hall n (Array.mem_of_getElem? hn)

/-- Both ways are direct. -/
theorem direct (n : Node) (hn : n ∈ graph.nodes) :
    Lowering.direct n (n.children.map graph.literalAt) = true := by
  revert n
  decide

end Cube

/-- The logarithm is still the one to base ten, and the cube of minus three is still minus
twenty-seven. -/
theorem lowering_keeps_powers_cube :
    (Cube.graph.Acyclic ∧ Cube.graph.Deduced ∧
      (∀ id n, Cube.graph.Needs id → Cube.graph.node? id = some n →
        n.shape.width = 1 ∧ n.op.onScalars = true ∧ n.op.measures = false) ∧
      Cube.graph.outputs ≠ []) ∧
    ∃ g' l p, Lowering.pass.run.runOn Cube.graph = (.ok (), g') ∧ g'.outputs = [l, p] ∧
      ∀ x, g'.valueOver .program [] (Cube.read x) (fun _ _ => 0) l 0 =
          some (.float (Single.log 10 x)) ∧
        g'.valueOver .program [] (Cube.read x) (fun _ _ => 0) p 0 = some (.int (-27)) := by
  have hne : Cube.graph.outputs ≠ [] := by decide
  refine ⟨⟨Cube.acyclic, Cube.deduced, Cube.scalar, hne⟩, ?_⟩
  obtain ⟨-, g', hrun, -, hkeeps⟩ := lowering_keeps_powers Cube.graph Cube.acyclic Cube.deduced
    Cube.scalar hne
  have hdirect := fun read returned => hkeeps .program read returned fun id n hid hn _ =>
    Lowering.written_of_direct Cube.acyclic Cube.deduced Cube.scalar read returned hid hn
      (Cube.direct n (Array.mem_of_getElem? hn))
  obtain ⟨l, rest, -, hrest, houtputs⟩ :=
    List.forall₂_cons_left_iff.mp (hdirect (fun _ _ => 0) fun _ _ => 0)
  obtain ⟨p, rest, -, hnil, rfl⟩ := List.forall₂_cons_left_iff.mp hrest
  cases hnil
  refine ⟨g', l, p, hrun, houtputs, fun x => ?_⟩
  have hall := hdirect (Cube.read x) fun _ _ => 0
  rw [houtputs] at hall
  obtain ⟨⟨_, -, -, hl, -⟩, hall⟩ := List.forall₂_cons.mp hall
  obtain ⟨⟨_, -, -, hp, -⟩, -⟩ := List.forall₂_cons.mp hall
  rw [show ([] : List Signature) = Cube.graph.functions from rfl, hl, hp]
  exact ⟨rfl, by cbv⟩

namespace Raised

/-- A power of two integers that are read from streams. -/
def graph : Graph where
  nodes := #[
    { op := .input ⟨"a", .of .int 1⟩, shape := ⟨.int, 1⟩, inputWidth := 1 },
    { op := .input ⟨"e", .of .int 1⟩, shape := ⟨.int, 1⟩, inputWidth := 1 },
    { op := .binary .pow 0 1, shape := ⟨.int, 1⟩, overload := some 1, inputWidth := 1 },
    { op := .output ⟨"o", .of .int 1⟩ 2, shape := ⟨.int, 1⟩, inputWidth := 1 }]
  outputs := [3]
  inputs := [⟨"a", .of .int 1⟩, ⟨"e", .of .int 1⟩]

/-- What the graph is lowered to. -/
def lowered : Graph where
  nodes := #[
    { op := .input ⟨"a", .of .int 1⟩, shape := ⟨.int, 1⟩, inputWidth := 1 },
    { op := .input ⟨"e", .of .int 1⟩, shape := ⟨.int, 1⟩, inputWidth := 1 },
    { op := .binary .pow 0 1, shape := ⟨.int, 1⟩, overload := some 1, inputWidth := 1 },
    { op := .output ⟨"o", .of .int 1⟩ 10, shape := ⟨.int, 1⟩, inputWidth := 1 },
    { op := .unary .convert 0, shape := ⟨.float, 1⟩, overload := some 0, inputWidth := 1 },
    { op := .unary .convert 1, shape := ⟨.float, 1⟩, overload := some 0, inputWidth := 1 },
    { op := .unary .log2 4, shape := ⟨.float, 1⟩, overload := some 0, inputWidth := 1 },
    { op := .binary .multiply 5 6, shape := ⟨.float, 1⟩, overload := some 0, inputWidth := 1 },
    { op := .unary .pow2 7, shape := ⟨.float, 1⟩, overload := some 0, inputWidth := 1 },
    { op := .unary .round 8, shape := ⟨.float, 1⟩, overload := some 0, inputWidth := 1 },
    { op := .unary .convert 9, shape := ⟨.int, 1⟩, overload := some 0, inputWidth := 1 }]
  outputs := [3]
  inputs := [⟨"a", .of .int 1⟩, ⟨"e", .of .int 1⟩]

/-- The base is given and the exponent is two. -/
def read (base : Int32) (channel : Channel) (_ : Nat) : UInt32 :=
  if channel.name = "a" then base.toUInt32 else 2

/-- The power goes through logarithms. -/
theorem valueOver_lowered (base : Int32) :
    lowered.valueOver .program [] (read base) (fun _ _ => 0) 3 0 =
      some (.int (Processor.program.intPowByLog base 2)) := rfl

end Raised

/-- The square of an integer that is read from a stream goes through logarithms of numbers.
There, 16777216 and 16777217 are the same number, but the squares of these integers are
not the same. So it is wrong for one of them. -/
theorem lowering_confuses_squares :
    Lowering.pass.run.runOn Raised.graph = (.ok (), Raised.lowered) ∧
    ¬∀ base ∈ [(16777216 : Int32), 16777217],
      Raised.lowered.valueOver .program [] (Raised.read base) (fun _ _ => 0) 3 0 =
        some (.int (Integer.pow base 2)) := by
  refine ⟨by cbv, fun hall => ?_⟩
  have hsame : Single.ofInt32 16777216 = Single.ofInt32 16777217 := by decide
  have hpower : Processor.program.intPowByLog 16777216 2 =
      Processor.program.intPowByLog 16777217 2 := by
    have hofInt : Processor.program.ofInt = Single.ofInt32 := rfl
    unfold Processor.intPowByLog
    rw [hofInt, hsame]
  have hfirst := hall 16777216 (by decide)
  have hsecond := hall 16777217 (by decide)
  rw [Raised.valueOver_lowered, hpower] at hfirst
  rw [Raised.valueOver_lowered, hfirst] at hsecond
  revert hsecond
  decide

end LaneGraph
