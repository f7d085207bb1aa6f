import LaneGraph.Proofs.Substitutes

/-!
# Lowering writes the lines of an operator

The lines for an operator spell it: they fit its operands and have its value. The steps
by which the pass replaces a node are these lines, run on the operands of the node.
-/

namespace LaneGraph.Lowering

open Build

/-! ## Lines spell operators -/

section

variable {tracked simple : Prop} {E : Environment} {form : Node → Bool} {n : Node}
  {shapes : List Shape} {values : List Value}

/-- Lines that fit an operator fit it in every form that admits their nodes. -/
theorem Admits.fit (h : Admits tracked simple E form) {kinds : List Kind} {lines : List Line}
    {kind : Kind} {op : Operation} (hfit : Lowering.fit kinds lines kind op = true) :
    Line.fit (fun n _ => form n) need (shapesOf kinds 1) lines ⟨kind, 1⟩ (need op) = true := by
  refine Line.fit_imp (fun _ _ n _ _ hn => ?_) hfit
  rw [Bool.and_eq_true] at hn
  exact h.basic n hn.1 hn.2

/-- Lines that are an expansion of a node, without powers and logarithms. -/
structure Spells (t : TypedRules) (n : Node) (shapes : List Shape) (values : List Value)
    (lines : List Line) : Prop extends Expands t n shapes values lines where
  powerless : ∀ ns, Line.frames shapes lines = some ns → ∀ m ∈ ns, m.isPower = false

/-- A scalar node expands if lines fit it and have its value. -/
theorem scalar_spells (hadmits : Admits tracked simple E form) {kinds : List Kind} {kind : Kind}
    {lines : List Line} (hkinds : kinds ≠ []) (hscalar : n.shape = ⟨kind, 1⟩)
    (hchannel : n.channel? = none) (hlines : lines ≠ [])
    (hfit : fit kinds lines kind n.frame.op = true)
    (hplain : simple → Line.plain (shapesOf kinds 1) lines = true)
    (hvalue : tracked → ∀ ns, Line.frames (shapesOf kinds 1) lines = some ns →
      (Line.result (rulesFor tracked simple E.interpretation form)
        (Entry.operands (shapesOf kinds 1) values) lines ns).value 0 =
        E.interpretation.component n values 0) :
    Spells (rulesFor tracked simple E.interpretation form) n (shapesOf kinds 1) values lines := by
  refine ⟨⟨hlines, ?_, ?_, hplain, fun htrack ns hns k hk => ?_, hchannel⟩, fun ns hns m hm => ?_⟩
  · unfold shapesOf
    exact fun hnil => hkinds (List.map_eq_nil_iff.mp hnil)
  · rw [hscalar]
    exact hadmits.fit hfit
  · refine Eq.trans ?_ (if_pos hk).symm
    rw [hscalar] at hk
    rw [Nat.lt_one_iff.mp hk]
    exact hvalue htrack ns hns
  · obtain ⟨_, hbasic⟩ := Line.form_of_fit hfit hns m hm
    exact (Node.of_basic (Bool.and_eq_true_iff.mp hbasic).2).1

/-- A narrow operator has a type of one component. -/
theorem exists_type {types : List OperatorType} {reduces : Bool}
    (h : n.Operates types reduces shapes) (hone : n.inputWidth = 1) :
    ∃ t ∈ types, shapes = shapesOf t.operands 1 ∧ n.shape = ⟨t.result, 1⟩ := by
  obtain ⟨t, ht, -, hshapes, hshape⟩ := h.exists_type
  rw [hone] at hshapes hshape
  refine ⟨t, ht, hshapes, hshape.trans ?_⟩
  split <;> rfl

variable {x y z : Value} {a b c : NodeId}

/-- Operators with one operand are lowered by their lines. -/
theorem unary_spells {op : UnaryOp} (hadmits : Admits tracked simple E form)
    (hplain : simple → n.plain = true) (hnarrow : n.narrow = true) (hop : n.op = .unary op a)
    (hone : n.inputWidth = 1) (hoperates : n.Operates op.types op.reduces shapes)
    (hx : tracked → List.Forall₂ (fun v s => v.Single s.kind) [x] shapes)
    (hcases : op ∈ [.negate, .saturate, .radToDeg, .degToRad, .frac] ∨
      op = .pow2 ∧ n.shape.kind = .int) :
    Spells (rulesFor tracked simple E.interpretation form) n shapes [x]
      (unaryLines op n.shape.kind) := by
  obtain ⟨t, ht, rfl, hscalar⟩ := exists_type hoperates hone
  have hkind : n.shape.kind = t.result := by rw [hscalar]
  have hchannel : n.channel? = none := by
    unfold Node.channel?
    rw [hop]
  have hframe : n.frame.op = .unary op 0 := by
    unfold Node.frame
    rw [hop]
    rfl
  rw [hkind] at hcases ⊢
  have htable : ∀ op ∈ [UnaryOp.negate, .saturate, .radToDeg, .degToRad, .frac, .pow2],
      ∀ t ∈ op.types, t.operands ≠ [] ∧ unaryLines op t.result ≠ [] ∧
        (t.result ≠ .float → t = uniformType 1 .int ∧ op ∈ [.negate, .saturate, .pow2]) := by
    decide
  have hlisted : op ∈ [.negate, .saturate, .radToDeg, .degToRad, .frac, .pow2] := by
    rcases hcases with hmem | ⟨rfl, -⟩
    · exact List.mem_append_left [.pow2] hmem
    · decide
  obtain ⟨hoperands, hlines, hplainTypes⟩ := htable op hlisted t ht
  have hfit : fit t.operands (unaryLines op t.result) t.result (.unary op 0) = true := by
    rcases hcases with hmem | ⟨rfl, hint⟩
    · exact unary_fits op hmem t ht
    · obtain ⟨rfl, -⟩ := hplainTypes (by rw [hint]; decide)
      exact pow2_fit
  refine scalar_spells hadmits hoperands hscalar hchannel hlines (hframe ▸ hfit) ?_ ?_
  · intro hsimple
    obtain ⟨rfl, hmem⟩ := hplainTypes (hkind ▸ Node.kind_of_plain (hplain hsimple))
    simp only [List.mem_cons, List.not_mem_nil, or_false] at hmem
    rcases hmem with rfl | rfl | rfl
    · exact plain_lines.1
    · exact plain_lines.2.1
    · exact plain_lines.2.2.1
  · intro htrack ns hns
    obtain ⟨ss, hss, hkinds⟩ := Node.exists_scalars (hx htrack)
    rw [Node.map_kind_shapesOf] at hkinds
    obtain ⟨v, rfl⟩ := List.length_eq_one_iff.mp ((List.length_map _).symm.trans
      (congrArg List.length hss).symm)
    rw [Node.unary_component hop hnarrow, hkind]
    have hv : x 0 = some v := List.singleton_inj.mp hss
    refine (unary_value ht hcases hns).trans ?_
    rw [hv]
    exact unaryValue_eq ht hcases hkinds.symm

/-- A remainder is lowered by its lines. -/
theorem modulo_spells (hadmits : Admits tracked simple E form) (hplain : simple → n.plain = true)
    (hnarrow : n.narrow = true) (hop : n.op = .binary .modulo a b) (hone : n.inputWidth = 1)
    (hoperates : n.Operates BinaryOp.modulo.types BinaryOp.modulo.reduces shapes)
    (hx : tracked → List.Forall₂ (fun v s => v.Single s.kind) [x, y] shapes) :
    Spells (rulesFor tracked simple E.interpretation form) n shapes [x, y]
      (moduloLines n.shape.kind) := by
  obtain ⟨t, ht, rfl, hscalar⟩ := exists_type hoperates hone
  have hkind : n.shape.kind = t.result := by rw [hscalar]
  have hchannel : n.channel? = none := by
    unfold Node.channel?
    rw [hop]
  have hframe : n.frame.op = .binary .modulo 0 0 := by
    unfold Node.frame
    rw [hop]
    rfl
  have htable : ∀ t ∈ BinaryOp.modulo.types, t.operands ≠ [] ∧ moduloLines t.result ≠ [] ∧
      (t.result ≠ .float → t = uniformType 2 .int) := by
    decide
  obtain ⟨hoperands, hlines, hint⟩ := htable t ht
  rw [hkind]
  refine scalar_spells hadmits hoperands hscalar hchannel hlines (hframe ▸ modulo_fits t ht) ?_ ?_
  · intro hsimple
    obtain rfl := hint (hkind ▸ Node.kind_of_plain (hplain hsimple))
    exact plain_lines.2.2.2.1
  · intro htrack ns hns
    obtain ⟨ss, hss, hkinds⟩ := Node.exists_scalars (hx htrack)
    rw [Node.map_kind_shapesOf] at hkinds
    obtain ⟨v, v', rfl⟩ := List.length_eq_two.mp ((List.length_map _).symm.trans
      (congrArg List.length hss).symm)
    have hv : x 0 = some v := (List.cons.inj hss).1
    have hv' : y 0 = some v' := List.singleton_inj.mp (List.cons.inj hss).2
    rw [Node.binary_component hop hnarrow]
    refine (modulo_value ht hns).trans ?_
    rw [hv, hv']
    exact moduloValue_eq ht hkinds.symm

/-- Operators with three operands are lowered by their lines. -/
theorem ternary_spells {op : TernaryOp} (hadmits : Admits tracked simple E form)
    (hplain : simple → n.plain = true) (hnarrow : n.narrow = true) (hop : n.op = .ternary op a b c)
    (hone : n.inputWidth = 1) (hoperates : n.Operates op.types false shapes)
    (hx : tracked → List.Forall₂ (fun v s => v.Single s.kind) [x, y, z] shapes)
    (hselect : op ≠ .select) :
    Spells (rulesFor tracked simple E.interpretation form) n shapes [x, y, z]
      (ternaryLines op n.shape.kind) := by
  obtain ⟨t, ht, rfl, hscalar⟩ := exists_type hoperates hone
  have hkind : n.shape.kind = t.result := by rw [hscalar]
  have hchannel : n.channel? = none := by
    unfold Node.channel?
    rw [hop]
  have hframe : n.frame.op = .ternary op 0 0 0 := by
    unfold Node.frame
    rw [hop]
    rfl
  have htable : ∀ op ∈ [TernaryOp.clamp, .lerp, .smoothStep, .smootherStep], ∀ t ∈ op.types,
      t.operands ≠ [] ∧ (t.result ≠ .float → t = uniformType 3 .int ∧ op = .clamp) := by
    decide
  have hlines : ternaryLines op t.result ≠ [] := by
    cases op <;> first | exact absurd rfl hselect | exact List.cons_ne_nil _ _
  have hlisted : op ∈ [.clamp, .lerp, .smoothStep, .smootherStep] := by
    cases op <;> first | exact absurd rfl hselect | decide
  obtain ⟨hoperands, hint⟩ := htable op hlisted t ht
  rw [hkind]
  refine scalar_spells hadmits hoperands hscalar hchannel hlines
    (hframe ▸ ternary_fits op hlisted t ht) ?_ ?_
  · intro hsimple
    obtain ⟨rfl, rfl⟩ := hint (hkind ▸ Node.kind_of_plain (hplain hsimple))
    exact plain_lines.2.2.2.2.1
  · intro htrack ns hns
    obtain ⟨ss, hss, hkinds⟩ := Node.exists_scalars (hx htrack)
    rw [Node.map_kind_shapesOf] at hkinds
    obtain ⟨v, v', v'', rfl⟩ := List.length_eq_three.mp ((List.length_map _).symm.trans
      (congrArg List.length hss).symm)
    obtain ⟨hfirst, hrest⟩ := List.cons.inj hss
    have hv : x 0 = some v := hfirst
    have hv' : y 0 = some v' := (List.cons.inj hrest).1
    have hv'' : z 0 = some v'' := List.singleton_inj.mp (List.cons.inj hrest).2
    rw [Node.ternary_component hop hnarrow]
    refine (ternary_value ht hselect hns).trans ?_
    rw [hv, hv', hv'']
    exact ternaryValue_eq ht hselect hkinds.symm

/-- Powers and logarithms are not plain. -/
theorem not_simple (hplain : simple → n.plain = true)
    (hpower : n.shape.kind = .float ∨ n.op = .binary .pow a b) : ¬simple := by
  intro hsimple
  have hn := hplain hsimple
  rcases hpower with hfloat | hop
  · exact Node.kind_of_plain hn hfloat
  · exact Node.op_of_plain hn hop rfl

/-- Plain nodes are neither powers nor logarithms. -/
theorem not_power_of_plain {functions : List Signature} (h : n.Typed functions shapes)
    (hplain : n.plain = true) : n.isPower = false := by
  unfold Node.isPower
  split
  · rename_i hop
    exact absurd rfl (Node.op_of_plain hplain hop)
  · rename_i hop
    obtain ⟨t, ht, -, -, hshape⟩ := ((Node.typed_binary hop).mp h).exists_type
    cases List.mem_singleton.mp ht
    exact absurd (by rw [hshape]; rfl) (Node.kind_of_plain hplain)
  · rfl

/-- A power is lowered by lines, if what these compute is its value. -/
theorem pow_spells {base exponent : Option Scalar} {lines : List Line}
    (hadmits : Admits tracked simple E form) (hsimple : ¬simple) (hnarrow : n.narrow = true)
    (hop : n.op = .binary .pow a b) (hone : n.inputWidth = 1)
    (hoperates : n.Operates BinaryOp.pow.types BinaryOp.pow.reduces shapes)
    (hlines : powerLines? n.shape.kind base exponent = some lines)
    (hvalue : tracked → powValue E.interpretation n.shape.kind base exponent (x 0) (y 0) =
      E.interpretation.binary .pow (x 0) (y 0)) :
    Spells (rulesFor tracked simple E.interpretation form) n shapes [x, y] lines := by
  obtain ⟨t, ht, rfl, hscalar⟩ := exists_type hoperates hone
  have hkind : n.shape.kind = t.result := by rw [hscalar]
  have hmem := powerLines?_mem hlines
  rw [hkind] at hlines hvalue hmem
  have hframe : n.frame.op = .binary .pow 0 0 := by
    unfold Node.frame
    rw [hop]
    rfl
  have hnonempty : ∀ t ∈ BinaryOp.pow.types, t.operands ≠ [] ∧ ∀ lines ∈
      powLines t.result :: [.unary .pow2 1] :: Power.chains.map chainLines, lines ≠ [] := by
    decide
  refine scalar_spells hadmits (hnonempty t ht).1 hscalar ?_ ((hnonempty t ht).2 lines hmem)
    (hframe ▸ pow_fits t ht lines hmem) (fun h => absurd h hsimple) fun htrack ns hns => ?_
  · unfold Node.channel?
    rw [hop]
  · rw [Node.binary_component hop hnarrow, ← hvalue htrack]
    exact powerLines?_value ht hlines hns

/-- A logarithm is lowered by lines, if what these compute is its value. -/
theorem log_spells {base : Option Scalar} (hadmits : Admits tracked simple E form)
    (hsimple : ¬simple) (hnarrow : n.narrow = true) (hop : n.op = .binary .log a b)
    (hone : n.inputWidth = 1)
    (hoperates : n.Operates BinaryOp.log.types BinaryOp.log.reduces shapes)
    (hvalue : tracked → logValue E.interpretation base (x 0) (y 0) =
      E.interpretation.binary .log (x 0) (y 0)) :
    Spells (rulesFor tracked simple E.interpretation form) n shapes [x, y] (logLines base) := by
  obtain ⟨t, ht, rfl, hscalar⟩ := exists_type hoperates hone
  cases List.mem_singleton.mp ht
  have hframe : n.frame.op = .binary .log 0 0 := by
    unfold Node.frame
    rw [hop]
    rfl
  obtain ⟨hne, hfit⟩ := fit_logLines base
  refine scalar_spells hadmits (by decide) hscalar ?_ hne (hframe ▸ hfit)
    (fun h => absurd h hsimple) fun htrack ns hns => ?_
  · unfold Node.channel?
    rw [hop]
  · rw [Node.binary_component hop hnarrow, ← hvalue htrack]
    exact log_value hns

/-- A conversion to booleans is lowered by its lines. -/
theorem toBool_spells {source : Kind} (hadmits : Admits tracked simple E form)
    (hnarrow : n.narrow = true) (hop : n.op = .unary .convert a) (hscalar : n.shape = ⟨.bool, 1⟩)
    (hsource : source = .float ∨ source = .int) (hint : simple → source = .int)
    (hx : tracked → x.Single source) :
    Spells (rulesFor tracked simple E.interpretation form) n [⟨source, 1⟩] [x]
      (toBoolLines source) := by
  have hframe : n.frame.op = .unary .convert 0 := by
    unfold Node.frame
    rw [hop]
    rfl
  have hchannel : n.channel? = none := by
    unfold Node.channel?
    rw [hop]
  refine scalar_spells hadmits (List.cons_ne_nil source []) hscalar hchannel
    (List.cons_ne_nil _ _) ?_ (fun h => ?_) fun htrack ns hns => ?_
  · rw [hframe]
    exact (convert_fits source (by rcases hsource with rfl | rfl <;> decide)).2
  · rw [hint h]
    exact plain_lines.2.2.2.2.2.2
  · obtain ⟨v, hv, rfl⟩ := hx htrack
    rw [Node.unary_component hop hnarrow, hscalar, hv]
    refine (toBool_value hsource hns).trans ?_
    rw [hv]
    exact toBoolValue_eq hsource

/-- A conversion from booleans is lowered by its lines. -/
theorem ofBool_spells {kind : Kind} (hadmits : Admits tracked simple E form)
    (hnarrow : n.narrow = true) (hop : n.op = .unary .convert a) (hscalar : n.shape = ⟨kind, 1⟩)
    (hkind : kind = .float ∨ kind = .int) (hint : simple → kind = .int)
    (hx : tracked → x.Single .bool) :
    Spells (rulesFor tracked simple E.interpretation form) n [⟨.bool, 1⟩] [x]
      (ofBoolLines kind) := by
  have hframe : n.frame.op = .unary .convert 0 := by
    unfold Node.frame
    rw [hop]
    rfl
  have hchannel : n.channel? = none := by
    unfold Node.channel?
    rw [hop]
  refine scalar_spells hadmits (List.cons_ne_nil .bool []) hscalar hchannel
    (List.cons_ne_nil _ _) ?_ (fun h => ?_) fun htrack ns hns => ?_
  · rw [hframe]
    exact (convert_fits kind (by rcases hkind with rfl | rfl <;> decide)).1
  · rw [hint h]
    exact plain_lines.2.2.2.2.2.1
  · obtain ⟨v, hv, hbool⟩ := hx htrack
    rw [Node.unary_component hop hnarrow, hscalar, hv]
    refine (ofBool_value hkind hns).trans ?_
    rw [hv]
    exact ofBoolValue_eq hkind hbool

end

/-! ## The steps of the pass are its lines -/

section

variable {g : Graph} {post : NodeId → Graph → Prop} {refused : GraphError → Prop}

/-- The steps for an operator with one operand are its lines. -/
theorem lowerUnary_eq {op : UnaryOp} (id x : NodeId) (kind : Kind)
    (h : op ∈ [.negate, .saturate, .radToDeg, .degToRad, .frac] ∨ op = .pow2 ∧ kind = .int) :
    lowerUnary id kind op x = Line.make [x] (unaryLines op kind) := by
  rcases h with h | ⟨rfl, rfl⟩
  · simp only [List.mem_cons, List.not_mem_nil, or_false] at h
    rcases h with rfl | rfl | rfl | rfl | rfl
    all_goals
      simp [lowerUnary, zero_eq, one_eq, unaryLines, scaleLines, Line.make, Line.run, Line.build,
        float]
  · simp [lowerUnary, unaryLines, Line.make, Line.run, Line.build, int]

/-- The steps for an operator with three operands are its lines. -/
theorem lowerTernary_eq {op : TernaryOp} (id a b c : NodeId) (kind : Kind) (h : op ≠ .select) :
    lowerTernary id kind op a b c = Line.make [a, b, c] (ternaryLines op kind) := by
  cases op
  case select => exact absurd rfl h
  all_goals
    simp [lowerTernary, stepParameter, smoothTail, smootherTail, whole_eq, ternaryLines, Line.make,
      Line.run, Line.build]

/-- The kind of a node is found. -/
theorem ends_kindOf {post : Kind → Graph → Prop} {id : NodeId} {n : Node}
    (hn : g.node? id = some n) : Ends (kindOf id) g post refused ↔ post n.shape.kind g := by
  unfold kindOf
  rw [ends_bind, ends_shape hn, ends_pure]

/-- The literal of a node is found. -/
theorem ends_scalarAt {post : Option Scalar → Graph → Prop} {id : NodeId} {n : Node}
    (hn : g.node? id = some n) : Ends (Folding.scalarAt? id) g post refused ↔ post n.scalar? g := by
  unfold Folding.scalarAt?
  rw [ends_bind, ends_node hn, ends_pure]

/-- A number stays, and anything else is converted. -/
theorem ends_toFloat {id : NodeId} {n : Node} (hn : g.node? id = some n) :
    Ends (toFloat id) g post refused ↔
      Ends (if n.shape.kind = .float then pure id else convert id .float) g post refused := by
  unfold toFloat
  rw [ends_bind, ends_kindOf hn]

/-- The steps for a power by way of logarithms are its lines. -/
theorem ends_lowerPowByLog {base exponent : NodeId} {m n : Node} {kind : Kind}
    (hbase : g.node? base = some m) (hexponent : g.node? exponent = some n)
    (hm : m.shape.kind = kind) (hn : n.shape.kind = kind) (hkind : kind = .float ∨ kind = .int) :
    Ends (lowerPowByLog kind base exponent) g post refused ↔
      Ends (Line.make [base, exponent] (powLines kind)) g post refused := by
  unfold lowerPowByLog
  rcases hkind with rfl | rfl
  · rw [ends_bind, ends_toFloat hbase, if_pos hm, ends_pure, ends_bind, ends_toFloat hexponent,
      if_pos hn, ends_pure]
    simp [powLines, Line.make, Line.run, Line.build]
  · have hfloat : ¬Kind.int = .float := by decide
    rw [ends_bind, ends_toFloat hbase, hm, if_neg hfloat]
    have hstep : Ends (convert base .float) g (fun base g' => Ends (do
          let exponent ← toFloat exponent
          let log ← unary .log2 base
          let scaled ← binary .multiply exponent log
          let result ← unary .pow2 scaled
          if Kind.int = .int then
            let rounded ← unary .round result
            convert rounded .int
          else return result) g' post refused) refused ↔
        Ends (convert base .float) g (fun base g' => Ends (do
          let exponent ← convert exponent .float
          let log ← unary .log2 base
          let scaled ← binary .multiply exponent log
          let result ← unary .pow2 scaled
          let rounded ← unary .round result
          convert rounded .int) g' post refused) refused := by
      refine ends_plain_congr fun base' g' hkept => ?_
      rw [ends_bind, ends_toFloat (hkept _ _ hexponent), hn, if_neg hfloat, ← ends_bind]
      simp
    rw [hstep, ← ends_bind]
    simp [powLines, Line.make, Line.run, Line.build]

/-- The steps of a multiplication chain are its lines. -/
theorem powerChain_eq (base exponent : NodeId) {chain : List Power.Product}
    (h : chain ∈ Power.chains) :
    powerChain base [base] chain = Line.make [base, exponent] (chainLines chain) := by
  simp only [Power.chains, List.mem_cons, List.not_mem_nil, or_false] at h
  rcases h with rfl | rfl | rfl | rfl | rfl | rfl | rfl | rfl | rfl | rfl | rfl | rfl | rfl | rfl |
    rfl
  all_goals
    simp [powerChain, chainLines, chainPlace, Line.make, Line.run, Line.build]

/-- The steps of a remainder are its lines. -/
theorem ends_modulo {id left right : NodeId} {kind : Kind}
    (hleft : g.shapeAt left = ⟨kind, 1⟩) (hright : g.shapeAt right = ⟨kind, 1⟩)
    (hkind : kind = .float ∨ kind = .int) :
    Ends (lowerBinary id kind .modulo left right) g post refused ↔
      Ends (Line.make [left, right] (moduloLines kind)) g post refused := by
  have hframe : ∃ n, (Line.binary .divide 0 1).node? [⟨kind, 1⟩, ⟨kind, 1⟩] = some n ∧
      n.shape.kind = kind := by
    rcases hkind with rfl | rfl <;> exact ⟨_, rfl, rfl⟩
  obtain ⟨n, hn, hshape⟩ := hframe
  obtain ⟨n', hadds⟩ := Line.adds (g := g) [left, right] (l := .binary .divide 0 1)
    (by rw [List.map_cons, List.map_singleton, hleft, hright]; exact hn)
  have hkind' : n'.shape.kind = kind := by
    rw [← hshape, ← hadds.frame]
    rfl
  have hrun : (binary .divide left right).runOn g = (.ok g.nodes.size, g.push n') := hadds.run
  unfold lowerBinary
  rw [ends_bind, ends_of_runOn hrun, ends_bind, ends_kindOf (Graph.node?_push_size g n'), hkind']
  rcases hkind with rfl | rfl
  all_goals
    simp [moduloLines, Line.make, Line.run, Line.build, ends_of_runOn hrun]

/-- The steps of a logarithm are its lines. -/
theorem ends_lowerLog {base value : NodeId} {m : Node} (hbase : g.node? base = some m) :
    Ends (lowerLog base value) g post refused ↔
      Ends (Line.make [base, value] (logLines m.scalar?)) g post refused := by
  unfold lowerLog
  rw [ends_bind]
  refine (ends_plain_congr (Q := ?read) fun logValue g' hkept => ?same).trans ?lines
  case same =>
    -- The base is read after the logarithm is made, and is as before.
    rewrite [ends_bind, ends_scalarAt (hkept _ _ hbase)]
    exact Iff.rfl
  rw [← ends_bind]
  cases m.scalar? with
  | none => simp [logLines, Line.make, Line.run, Line.build, unary]
  | some v =>
    cases v with
    | float b =>
      simp only [logLines]
      split_ifs <;> simp [Line.make, Line.run, Line.build, unary, float]
    | bool | int => simp [logLines, Line.make, Line.run, Line.build, unary]

/-- The steps of a power are its lines, or its base is the result. -/
theorem ends_lowerPow {base exponent : NodeId} {m n : Node} {kind : Kind}
    (hbase : g.node? base = some m) (hexponent : g.node? exponent = some n)
    (hm : m.shape.kind = kind) (hn : n.shape.kind = kind) (hkind : kind = .float ∨ kind = .int) :
    Ends (lowerPow kind base exponent) g post refused ↔
      match powerLines? kind m.scalar? n.scalar? with
      | some lines => Ends (Line.make [base, exponent] lines) g post refused
      | none => post base g := by
  unfold lowerPow powerLines?
  rw [ends_bind, ends_scalarAt hbase]
  split_ifs with htwo
  · simp [Line.make, Line.run, Line.build]
  · rw [ends_bind, ends_scalarAt hexponent]
    cases n.scalar? with
    | none => exact ends_lowerPowByLog hbase hexponent hm hn hkind
    | some e =>
      dsimp only
      split_ifs with hone
      · exact Iff.rfl
      · cases hchain : literalChain? e with
        | none => exact ends_lowerPowByLog hbase hexponent hm hn hkind
        | some chain =>
          dsimp only
          rw [powerChain_eq base exponent (mem_chains hchain)]

end

end LaneGraph.Lowering
