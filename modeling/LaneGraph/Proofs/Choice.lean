import LaneGraph.Proofs.Drafts
import Mathlib

/-!
# Which candidate is chosen

The search for the cheapest candidate finds the first of those with the least
cost. For calls it searches only the candidates that are content with the number
of arguments, so a position among these is traced back to the list that the call
was made with. The node keeps this position in one byte, which is enough for lists
of up to 256 candidates.

A step of narrowing costs four, but the costs of all operands are added up. Three
operands that are widened may together cost more than one that is narrowed. No
table of an operator has room for that, and neither has a call with at most two
arguments.
-/

namespace LaneGraph

open Build

/-! ## Costs fit in 32 bits -/

/-- The costs of two candidates' operands are added up one by one. -/
theorem totalCost_cons (expected actual : Kind) (kinds rest : List Kind) :
    totalCost (expected :: kinds) (actual :: rest) =
      conversionCost expected actual + totalCost kinds rest := rfl

/-- No conversion costs more than three steps of narrowing. -/
theorem conversionCost_le (expected actual : Kind) : conversionCost expected actual ≤ 12 := by
  cases expected <;> cases actual <;> decide

/-- The cost of all operands is bounded by their number. -/
theorem totalCost_le (kinds actual : List Kind) : totalCost kinds actual ≤ 12 * actual.length := by
  induction kinds generalizing actual with
  | nil => exact Nat.zero_le _
  | cons expected kinds ih =>
    cases actual with
    | nil => exact Nat.zero_le _
    | cons kind rest =>
      have hfirst := conversionCost_le expected kind
      have hrest := ih rest
      rw [totalCost_cons, List.length_cons]
      omega

/-- The cost of fewer than `2 ^ 27` operands is no more than a signed integer of 32 bits
can be, so that adding it up in such an integer is adding it up. -/
theorem totalCost_lt {actual : List Kind} (h : actual.length < 2 ^ 27) (kinds : List Kind) :
    totalCost kinds actual < 2 ^ 31 := by
  have hle := totalCost_le kinds actual
  omega

/-! ## The first of the cheapest candidates -/

/-- A candidate costs less than all before it, and no more than any. -/
structure IsCheapest (candidates : List (List Kind)) (actual : List Kind) (k : Nat)
    (kinds : List Kind) : Prop where
  found : candidates[k]? = some kinds
  least : ∀ other ∈ candidates, totalCost kinds actual ≤ totalCost other actual
  first : ∀ j < k, ∀ other, candidates[j]? = some other →
    totalCost kinds actual < totalCost other actual

namespace IsCheapest

variable {seen : List (List Kind)} {actual kinds next : List Kind} {k : Nat}

/-- A candidate that costs no more than the next one stays the first of the cheapest. -/
theorem stays (h : IsCheapest seen actual k kinds)
    (hle : totalCost kinds actual ≤ totalCost next actual) :
    IsCheapest (seen ++ [next]) actual k kinds := by
  have hlt : k < seen.length := (List.getElem?_eq_some_iff.mp h.found).1
  refine ⟨?_, fun other hother => ?_, fun j hj other hother => h.first j hj other ?_⟩
  · rw [List.getElem?_append_left hlt]
    exact h.found
  · rcases List.mem_append.mp hother with hother | hother
    · exact h.least other hother
    · rw [List.mem_singleton.mp hother]
      exact hle
  · rwa [List.getElem?_append_left (Nat.lt_trans hj hlt)] at hother

/-- A cheaper candidate takes its place. -/
theorem passes (h : IsCheapest seen actual k kinds)
    (hlt : totalCost next actual < totalCost kinds actual) :
    IsCheapest (seen ++ [next]) actual seen.length next := by
  have hcheaper : ∀ other ∈ seen, totalCost next actual < totalCost other actual :=
    fun other hother => Nat.lt_of_lt_of_le hlt (h.least other hother)
  refine ⟨List.getElem?_concat_length, fun other hother => ?_, fun j hj other hother => ?_⟩
  · rcases List.mem_append.mp hother with hother | hother
    · exact Nat.le_of_lt (hcheaper other hother)
    · rw [List.mem_singleton.mp hother]
  · rw [List.getElem?_append_left hj] at hother
    exact hcheaper other (List.mem_of_getElem? hother)

end IsCheapest

/-- The search goes on from the first of the cheapest candidates so far to the first of
the cheapest of all. -/
theorem cheapestFrom_isCheapest {actual : List Kind} (rest : List (List Kind)) :
    ∀ {seen : List (List Kind)} {k : Nat} {kinds : List Kind}, IsCheapest seen actual k kinds →
      ∃ k' kinds', cheapestFrom actual (some (k, totalCost kinds actual)) seen.length rest =
          some (k', totalCost kinds' actual) ∧ IsCheapest (seen ++ rest) actual k' kinds' := by
  induction rest with
  | nil =>
    intro seen k kinds h
    exact ⟨k, kinds, rfl, by rwa [List.append_nil]⟩
  | cons next rest ih =>
    intro seen k kinds h
    have hlength : (seen ++ [next]).length = seen.length + 1 := List.length_append
    have hsplit : seen ++ next :: rest = (seen ++ [next]) ++ rest := List.append_cons seen next rest
    rw [hsplit]
    by_cases hlt : totalCost next actual < totalCost kinds actual
    · obtain ⟨k', kinds', hrun, hwinner⟩ := ih (h.passes hlt)
      refine ⟨k', kinds', ?_, hwinner⟩
      rw [hlength] at hrun
      simpa [cheapestFrom, hlt] using hrun
    · obtain ⟨k', kinds', hrun, hwinner⟩ := ih (h.stays (Nat.not_lt.mp hlt))
      refine ⟨k', kinds', ?_, hwinner⟩
      rw [hlength] at hrun
      simpa [cheapestFrom, hlt] using hrun

/-- The search finds the first of the cheapest candidates, unless there are none. -/
theorem cheapest?_isCheapest (candidates : List (List Kind)) (actual : List Kind) :
    candidates = [] ∧ cheapest? candidates actual = none ∨
      ∃ k kinds, cheapest? candidates actual = some k ∧ IsCheapest candidates actual k kinds := by
  cases candidates with
  | nil => exact .inl ⟨rfl, rfl⟩
  | cons candidate rest =>
    have hstart : IsCheapest [candidate] actual 0 candidate :=
      ⟨rfl, fun other hother => by rw [List.mem_singleton.mp hother],
        fun j hj => absurd hj (Nat.not_lt_zero j)⟩
    obtain ⟨k, kinds, hrun, hwinner⟩ := cheapestFrom_isCheapest rest hstart
    exact .inr ⟨k, kinds, congrArg (Option.map Prod.fst) hrun, hwinner⟩

/-! ## The candidates of a node -/

/-- The candidate of a call at a position has a signature that is content with a
number of arguments. -/
def Accepts (functions : List Signature) (candidates : List FunctionId) (count position : Nat)
    (s : Signature) : Prop :=
  ∃ f, candidates[position]? = some f ∧ functions[f]? = some s ∧ s.required ≤ count

/-- What a node chooses from: the types of its operator, or the candidates of a call
that are content with the arguments. Each has a position and the kinds it takes. -/
def Graph.Offers (g : Graph) (op : Operation) (position : Nat) (kinds : List Kind) : Prop :=
  match op with
  | .unary op _ => (op.types.map (·.operands))[position]? = some kinds
  | .binary op _ _ => (op.types.map (·.operands))[position]? = some kinds
  | .ternary op _ _ _ => (op.types.map (·.operands))[position]? = some kinds
  | .call candidates arguments =>
    ∃ s, Accepts g.functions candidates arguments.length position s ∧ s.inputs = kinds
  | _ => False

/-- What is offered at a position costs less than all that is offered before it, and
no more than anything that is offered. -/
structure Graph.Favours (g : Graph) (op : Operation) (actual : List Kind) (position : Nat)
    (kinds : List Kind) : Prop where
  offered : g.Offers op position kinds
  least : ∀ other kinds', g.Offers op other kinds' →
    totalCost kinds actual ≤ totalCost kinds' actual
  first : ∀ other < position, ∀ kinds', g.Offers op other kinds' →
    totalCost kinds actual < totalCost kinds' actual

namespace Node

variable {functions : List Signature} {candidates : List FunctionId} {count : Nat}

/-- The candidates that are content are those that accept the arguments. -/
theorem mem_eligible_iff {position : Nat} {s : Signature} :
    (position, s) ∈ eligible functions candidates count ↔
      Accepts functions candidates count position s := by
  refine ⟨mem_eligible, fun ⟨f, hf, hs, hrequired⟩ => ?_⟩
  refine List.mem_filterMap.mpr ⟨(f, position), List.mem_zipIdx_iff_getElem?.mpr hf, ?_⟩
  dsimp only
  rw [hs]
  dsimp only
  rw [if_pos hrequired]

/-- The candidates that are content stand in the order of their positions. -/
theorem eligible_pairwise (functions : List Signature) (candidates : List FunctionId)
    (count : Nat) : (eligible functions candidates count).Pairwise fun a b => a.1 < b.1 := by
  have hpositions : candidates.zipIdx.Pairwise fun a b => a.2 < b.2 := by
    rw [← List.pairwise_map (f := Prod.snd), List.zipIdx_map_snd]
    exact List.pairwise_lt_range'
  refine hpositions.filterMap _ fun p q hpq c hc d hd => ?_
  -- a candidate that is kept stands at its own position
  have hfirst : c.1 = p.2 := by grind
  have hsecond : d.1 = q.2 := by grind
  rw [hfirst, hsecond]
  exact hpq

/-- The first of the cheapest candidates that are content is also the first by its
position in the whole list. -/
theorem eligible_isCheapest {actual kinds : List Kind} {k : Nat}
    (h : IsCheapest ((eligible functions candidates count).map (·.2.inputs)) actual k kinds) :
    ∃ position s, (eligible functions candidates count)[k]? = some (position, s) ∧
      s.inputs = kinds ∧
      (∀ other t, Accepts functions candidates count other t →
        totalCost kinds actual ≤ totalCost t.inputs actual) ∧
      ∀ other < position, ∀ t, Accepts functions candidates count other t →
        totalCost kinds actual < totalCost t.inputs actual := by
  have hfound := h.found
  rw [List.getElem?_map, Option.map_eq_some_iff] at hfound
  obtain ⟨⟨position, s⟩, hget, hinputs⟩ := hfound
  refine ⟨position, s, hget, hinputs, fun other t ht => ?_, fun other hother t ht => ?_⟩
  · exact h.least _ (List.mem_map_of_mem (f := (·.2.inputs)) (mem_eligible_iff.mpr ht))
  · obtain ⟨j, hj⟩ := List.getElem?_of_mem (mem_eligible_iff.mpr ht)
    obtain ⟨hjlt, hjget⟩ := List.getElem?_eq_some_iff.mp hj
    obtain ⟨hklt, hkget⟩ := List.getElem?_eq_some_iff.mp hget
    -- A smaller position stands earlier among the candidates that are content.
    have hearlier : j < k := by
      have hordered := List.pairwise_iff_getElem.mp (eligible_pairwise functions candidates count)
      rcases Nat.lt_trichotomy j k with hlt | rfl | hgt
      · exact hlt
      · rw [hjget] at hkget
        cases hkget
        omega
      · have hpositions := hordered k j hklt hjlt hgt
        rw [hjget, hkget] at hpositions
        dsimp only at hpositions
        omega
    refine h.first j hearlier _ ?_
    rw [List.getElem?_map, hj]
    rfl

/-- A call takes the first of the cheapest candidates that accept its arguments; if
there are none it stays as it is. -/
theorem resolveCall_takes (n : Node) (functions : List Signature) (candidates : List FunctionId)
    (arguments : List NodeId) (shapes : List Shape) :
    (∀ position s, ¬Accepts functions candidates shapes.length position s) ∧
        n.resolveCall functions candidates arguments shapes = n ∨
      ∃ position s, Accepts functions candidates shapes.length position s ∧
        (∀ other t, Accepts functions candidates shapes.length other t →
          totalCost s.inputs (shapes.map (·.kind)) ≤ totalCost t.inputs (shapes.map (·.kind))) ∧
        (∀ other < position, ∀ t, Accepts functions candidates shapes.length other t →
          totalCost s.inputs (shapes.map (·.kind)) < totalCost t.inputs (shapes.map (·.kind))) ∧
        n.resolveCall functions candidates arguments shapes =
          { n with
            op := .call candidates (arguments.take s.inputs.length)
            shape := Shape.of s.output (widest shapes)
            inputWidth := widest shapes
            overload := some (position % 256) } := by
  rw [resolveCall_eq]
  rcases cheapest?_isCheapest ((eligible functions candidates shapes.length).map (·.2.inputs))
    (shapes.map (·.kind)) with ⟨hnil, hnone⟩ | ⟨k, kinds, hcheapest, hwinner⟩
  · refine .inl ⟨fun position s hs => ?_, by rw [hnone]⟩
    have hmem := mem_eligible_iff.mpr hs
    rw [List.map_eq_nil_iff.mp hnil] at hmem
    cases hmem
  · obtain ⟨position, s, hget, rfl, hleast, hfirst⟩ := eligible_isCheapest hwinner
    refine .inr ⟨position, s, mem_eligible_iff.mp (List.mem_of_getElem? hget), hleast, hfirst, ?_⟩
    rw [hcheapest]
    dsimp only
    rw [hget]

/-- An operator takes the first of its cheapest types. -/
theorem resolveOperator_takes (n : Node) {types : List OperatorType} (hne : types ≠ [])
    (shapes : List Shape) (reduces : Bool) :
    ∃ k kinds, IsCheapest (types.map (·.operands)) (shapes.map (·.kind)) k kinds ∧
      (n.resolveOperator types shapes reduces).overload = some (k % 256) := by
  rcases cheapest?_isCheapest (types.map (·.operands)) (shapes.map (·.kind)) with
    ⟨hnil, -⟩ | ⟨k, kinds, hcheapest, hwinner⟩
  · exact absurd (List.map_eq_nil_iff.mp hnil) hne
  · have hfound := hwinner.found
    rw [List.getElem?_map, Option.map_eq_some_iff] at hfound
    obtain ⟨t, ht, -⟩ := hfound
    refine ⟨k, kinds, hwinner, ?_⟩
    unfold resolveOperator
    rw [hcheapest]
    dsimp only
    rw [ht]

end Node

/-- The first of the cheapest of all that is offered is favoured. -/
theorem Graph.favours_of_isCheapest {g : Graph} {op : Operation} {candidates : List (List Kind)}
    {actual kinds : List Kind} {k : Nat}
    (hoffers : ∀ position kinds', g.Offers op position kinds' ↔ candidates[position]? = some kinds')
    (h : IsCheapest candidates actual k kinds) : g.Favours op actual k kinds where
  offered := (hoffers k kinds).mpr h.found
  least other kinds' hother :=
    h.least kinds' (List.mem_of_getElem? ((hoffers other kinds').mp hother))
  first other hlt kinds' hother := h.first other hlt kinds' ((hoffers other kinds').mp hother)

/-- A node that is offered anything takes what is favoured, and remembers its
position in one byte. -/
theorem Node.resolved_favours {g : Graph} (n : Node) {shapes : List Shape} {position : Nat}
    {kinds : List Kind} (hlength : shapes.length = n.children.length)
    (hoffered : g.Offers n.op position kinds) :
    ∃ k kinds', g.Favours n.op (shapes.map (·.kind)) k kinds' ∧
      (n.resolved g.functions shapes).overload = some (k % 256) := by
  have hne : ∀ types : List OperatorType, (types.map (·.operands))[position]? = some kinds →
      types ≠ [] := by
    rintro types h rfl
    cases h
  cases hop : n.op with
  | unary op x =>
    rw [hop] at hoffered
    have htypes := hne op.types hoffered
    obtain ⟨k, kinds', hwinner, hoverload⟩ := n.resolveOperator_takes htypes shapes op.reduces
    refine ⟨k, kinds', Graph.favours_of_isCheapest (fun _ _ => Iff.rfl) hwinner, ?_⟩
    rw [resolved_unary hop fun hconvert => htypes (by rw [hconvert]; rfl)]
    exact hoverload
  | binary op x y =>
    rw [hop] at hoffered
    obtain ⟨k, kinds', hwinner, hoverload⟩ :=
      n.resolveOperator_takes (hne op.types hoffered) shapes op.reduces
    refine ⟨k, kinds', Graph.favours_of_isCheapest (fun _ _ => Iff.rfl) hwinner, ?_⟩
    rw [resolved_binary hop]
    exact hoverload
  | ternary op x y z =>
    rw [hop] at hoffered
    obtain ⟨k, kinds', hwinner, hoverload⟩ :=
      n.resolveOperator_takes (hne op.types hoffered) shapes false
    refine ⟨k, kinds', Graph.favours_of_isCheapest (fun _ _ => Iff.rfl) hwinner, ?_⟩
    rw [resolved_ternary hop]
    exact hoverload
  | call candidates arguments =>
    rw [hop] at hoffered
    obtain ⟨s, hs, -⟩ := hoffered
    have hcount : shapes.length = arguments.length := by
      rw [hlength]
      unfold children
      rw [hop]
      rfl
    rw [← hcount] at hs
    rcases n.resolveCall_takes g.functions candidates arguments shapes with
      ⟨hnone, -⟩ | ⟨k, t, ht, hleast, hfirst, heq⟩
    · exact absurd hs (hnone position s)
    · have hresolved : n.resolved g.functions shapes =
          n.resolveCall g.functions candidates arguments shapes := by
        unfold resolved
        rw [hop]
      refine ⟨k, t.inputs, ⟨⟨t, hcount ▸ ht, rfl⟩, ?_, ?_⟩, by rw [hresolved, heq]⟩
      · rintro other kinds' ⟨u, hu, rfl⟩
        exact hleast other u (hcount ▸ hu)
      · rintro other hlt kinds' ⟨u, hu, rfl⟩
        exact hfirst other hlt u (hcount ▸ hu)
  | _ =>
    rw [hop] at hoffered
    exact hoffered.elim

/-! ## Resolving a node in the arena -/

/-- A node that is no constructor and not resolved yet is resolved from the shapes of
its operands, if these are known. -/
theorem Build.runOn_resolve {g : Graph} {id : NodeId} {n : Node} (hn : g.node? id = some n)
    (hplain : ∀ arguments, n.op ≠ .construct arguments) (hopen : n.overload = none)
    (hknown : g.Known n.children) :
    (resolve id).runOn g =
      (.ok (), g.setNode id (n.resolved g.functions (n.children.map g.shapeAt))) := by
  have hresolve : (resolvePlain id).runOn g =
      (.ok (), g.setNode id (n.resolved g.functions (n.children.map g.shapeAt))) := by
    unfold resolvePlain
    rw [runOn_bind, runOn_node hn]
    dsimp only
    have hunresolved : ¬n.overload.isSome = true := by
      rw [hopen]
      exact Bool.false_ne_true
    rw [if_neg hunresolved, runOn_bind, runOn_ask (Graph.knownShapes?_eq hknown)]
    rfl
  unfold resolve
  rw [runOn_bind, runOn_node hn]
  dsimp only
  split
  · rename_i arguments hop
    exact absurd hop (hplain arguments)
  · exact hresolve

/-- A call whose arguments have known shapes stays as it is exactly if no candidate is
content with their number. Otherwise it takes the first of those that cost the least:
it drops the arguments that this candidate has no inputs for, has its kind of result,
and keeps its position in one byte, which holds the position itself if there are at
most 256 candidates. Costs are added up without a bound; with fewer than `2 ^ 27`
arguments none of them leaves the signed integers of 32 bits. -/
theorem call_takes_first_cheapest {g : Graph} {id : NodeId} {n : Node}
    {candidates : List FunctionId} {arguments : List NodeId} (hn : g.node? id = some n)
    (hop : n.op = .call candidates arguments) (hopen : n.overload = none)
    (hknown : g.Known arguments) :
    ∃ m, (resolve id).runOn g = (.ok (), g.setNode id m) ∧
      (m.overload = none ↔ ∀ position s,
        ¬Accepts g.functions candidates arguments.length position s) ∧
      (m.overload = none → m = n) ∧
      (arguments.length < 2 ^ 27 → ∀ position s,
        Accepts g.functions candidates arguments.length position s →
          totalCost s.inputs (arguments.map fun x => (g.shapeAt x).kind) < 2 ^ 31) ∧
      ∀ k, m.overload = some k → ∃ position s,
        k = position % 256 ∧ (candidates.length ≤ 256 → k = position) ∧
        Accepts g.functions candidates arguments.length position s ∧
        (∀ other t, Accepts g.functions candidates arguments.length other t →
          totalCost s.inputs (arguments.map fun x => (g.shapeAt x).kind) ≤
            totalCost t.inputs (arguments.map fun x => (g.shapeAt x).kind)) ∧
        (∀ other < position, ∀ t, Accepts g.functions candidates arguments.length other t →
          totalCost s.inputs (arguments.map fun x => (g.shapeAt x).kind) <
            totalCost t.inputs (arguments.map fun x => (g.shapeAt x).kind)) ∧
        m.shape.kind = s.output ∧
        m.op = .call candidates (arguments.take s.inputs.length) := by
  have hchildren : n.children = arguments := by
    unfold Node.children
    rw [hop]
    rfl
  have hrun := runOn_resolve hn (fun _ h => nomatch hop.symm.trans h) hopen (hchildren ▸ hknown)
  have hresolved : n.resolved g.functions (n.children.map g.shapeAt) =
      n.resolveCall g.functions candidates arguments (arguments.map g.shapeAt) := by
    rw [hchildren]
    unfold Node.resolved
    rw [hop]
  have hkinds : (arguments.map g.shapeAt).map (·.kind) =
      arguments.map fun x => (g.shapeAt x).kind := List.map_map
  have hfits : arguments.length < 2 ^ 27 → ∀ position s,
      Accepts g.functions candidates arguments.length position s →
        totalCost s.inputs (arguments.map fun x => (g.shapeAt x).kind) < 2 ^ 31 :=
    fun hfew _ s _ => totalCost_lt (by rwa [List.length_map]) s.inputs
  rw [hresolved] at hrun
  refine ⟨_, hrun, ?_⟩
  have htakes := n.resolveCall_takes g.functions candidates arguments (arguments.map g.shapeAt)
  rw [hkinds, List.length_map] at htakes
  rcases htakes with ⟨hnone, heq⟩ | ⟨position, s, hs, hleast, hfirst, heq⟩
  · rw [heq]
    exact ⟨⟨fun _ => hnone, fun _ => hopen⟩, fun _ => rfl, hfits,
      fun k hk => nomatch hopen.symm.trans hk⟩
  · rw [heq]
    refine ⟨⟨nofun, fun h => absurd hs (h position s)⟩, nofun, hfits, ?_⟩
    rintro k hk
    cases hk
    refine ⟨position, s, rfl, fun hlength => ?_, hs, hleast, hfirst, Shape.kind_of _ _, rfl⟩
    obtain ⟨f, hf, -⟩ := hs
    have hlt := (List.getElem?_eq_some_iff.mp hf).1
    exact Nat.mod_eq_of_lt (Nat.lt_of_lt_of_le hlt hlength)

namespace Overloaded

/-- A call of functions of one name with an integer: the first takes two arguments,
the second a number and the last two an integer. -/
def graph : Graph where
  nodes := #[{ op := .input ⟨"a", .of .int 1⟩, shape := Shape.int, inputWidth := 1 },
    { op := .call [0, 1, 2, 3] [0], shape := Shape.unknown }]
  functions := [.ofInputs "f" [.int, .int] .int, .ofInputs "f" [.float] .float,
    .ofInputs "f" [.int] .int, (Signature.ofInputs "f" [.int, .int] .bool).withRequired 1]

/-- A call of one function that takes a number, listed 256 times, and of one that takes
an integer. -/
def crowded : Graph where
  nodes := #[{ op := .input ⟨"a", .of .int 1⟩, shape := Shape.int, inputWidth := 1 },
    { op := .call (List.replicate 256 0 ++ [1]) [0], shape := Shape.unknown }]
  functions := [.ofInputs "f" [.float] .float, .ofInputs "g" [.int] .int]

/-- A call with a boolean and an integer, of a function of two booleans or one of two
numbers. -/
def mixed : Graph where
  nodes := #[{ op := .constant (.ofScalar (.bool true)), shape := Shape.bool, inputWidth := 1 },
    { op := .input ⟨"i", .of .int 1⟩, shape := Shape.int, inputWidth := 1 },
    { op := .call [0, 1] [0, 1], shape := Shape.unknown }]
  functions := [.ofInputs "f" [.bool, .bool] .float, .ofInputs "f" [.float, .float] .float]

/-- A call with two booleans and an integer, of a function of three numbers or one of
three booleans. -/
def lossy : Graph where
  nodes := #[{ op := .constant (.ofScalar (.bool true)), shape := Shape.bool, inputWidth := 1 },
    { op := .constant (.ofScalar (.bool false)), shape := Shape.bool, inputWidth := 1 },
    { op := .input ⟨"i", .of .int 1⟩, shape := Shape.int, inputWidth := 1 },
    { op := .call [0, 1] [0, 1, 2], shape := Shape.unknown }]
  functions := [.ofInputs "f" [.float, .float, .float] .float,
    .ofInputs "g" [.bool, .bool, .bool] .float]

/-- The integer has a known shape. -/
theorem known : graph.Known [0] := Graph.known_of_shapeAt (by decide)

/-- The boolean and the integer have known shapes. -/
theorem known_mixed : mixed.Known [0, 1] := Graph.known_of_shapeAt (by decide)

end Overloaded

/-- Of the functions of one name, the call with an integer takes the third: the first is
not content, the second is dearer and the last comes later. -/
theorem call_takes_first_cheapest_third :
    Overloaded.graph.Known [0] ∧ ∃ m,
      (resolve 1).runOn Overloaded.graph = (.ok (), Overloaded.graph.setNode 1 m) ∧
      m.overload = some 2 ∧ m.shape.kind = .int ∧ m.op = .call [0, 1, 2, 3] [0] := by
  refine ⟨Overloaded.known, ?_⟩
  have hnode : Overloaded.graph.node? 1 =
      some { op := .call [0, 1, 2, 3] [0], shape := Shape.unknown } := rfl
  obtain ⟨m, hrun, -, -, -, htaken⟩ := call_takes_first_cheapest hnode rfl rfl Overloaded.known
  have hoverload : m.overload = some 2 := by
    have hgraph := congrArg (fun run => (run.2.node? 1).bind (·.overload)) hrun
    have hset : (Overloaded.graph.setNode 1 m).node? 1 = some m :=
      Graph.node?_setNode_self m (by rfl)
    dsimp only at hgraph
    rw [hset] at hgraph
    exact hgraph.symm.trans (by decide)
  obtain ⟨position, s, hposition, hsame, ⟨f, hf, hs, -⟩, -, -, hkind, hop⟩ := htaken 2 hoverload
  obtain rfl := hsame (by decide)
  cases hf
  cases hs
  exact ⟨m, hrun, hoverload, hkind, hop⟩

/-- Of 257 candidates the last is the only one that costs nothing. It is taken, but its
position does not fit in one byte, so that the call remembers the first candidate, which
costs more. -/
theorem call_forgets_position :
    ∃ m, (resolve 1).runOn Overloaded.crowded = (.ok (), Overloaded.crowded.setNode 1 m) ∧
      m.overload = some 0 ∧ m.shape = Shape.int ∧
      Accepts Overloaded.crowded.functions (List.replicate 256 0 ++ [1]) 1 256
        (.ofInputs "g" [.int] .int) ∧
      Overloaded.crowded.chosen? m = some (.ofInputs "f" [.float] .float) ∧
      totalCost [.int] [.int] < totalCost [.float] [.int] := by
  let m : Node :=
    { op := .call (List.replicate 256 0 ++ [1]) [0]
      shape := Shape.int
      inputWidth := 1
      overload := some 0 }
  have hrun : (resolve 1).runOn Overloaded.crowded = (.ok (), Overloaded.crowded.setNode 1 m) := by
    decide +kernel
  exact ⟨m, hrun, rfl, rfl, ⟨1, rfl, rfl, by decide⟩, rfl, by decide⟩

/-! ## Widening and narrowing -/

/-- To convert from one kind to another loses what the value held: a number becomes an
integer or a boolean, or an integer a boolean. -/
def Kind.Narrows (expected actual : Kind) : Prop :=
  expected ≠ .unknown ∧ expected.level < actual.level

instance (expected actual : Kind) : Decidable (expected.Narrows actual) :=
  inferInstanceAs (Decidable (_ ∧ _))

/-- No operand that a candidate takes has to be narrowed. -/
def Widens (kinds actual : List Kind) : Prop := ∀ p ∈ kinds.zip actual, p.2.level ≤ p.1.level

instance (kinds actual : List Kind) : Decidable (Widens kinds actual) :=
  inferInstanceAs (Decidable (∀ p ∈ _, _))

/-- No operand that a candidate takes is narrowed. An input of unknown kind takes any
operand as it is. -/
def Spares (kinds actual : List Kind) : Prop := ∀ p ∈ kinds.zip actual, ¬p.1.Narrows p.2

instance (kinds actual : List Kind) : Decidable (Spares kinds actual) :=
  inferInstanceAs (Decidable (∀ p ∈ _, _))

/-- How far operands can be widened. -/
def headroom (actual : List Kind) : Nat := (actual.map fun kind => 3 - kind.level).sum

/-- Known kinds are above the unknown one. -/
theorem Kind.level_pos {kind : Kind} (h : kind ≠ .unknown) : 1 ≤ kind.level := by
  cases kind with
  | unknown => exact absurd rfl h
  | _ => decide

/-- Narrowing costs at least four. -/
theorem Kind.Narrows.cost {expected actual : Kind} (h : expected.Narrows actual) :
    4 ≤ conversionCost expected actual := by
  have hlt := h.2
  unfold conversionCost
  rw [if_neg (by omega)]
  omega

/-- All operands together cost no less than one of them. -/
theorem conversionCost_le_totalCost {kinds : List Kind} :
    ∀ {actual : List Kind} {p : Kind × Kind}, p ∈ kinds.zip actual →
      conversionCost p.1 p.2 ≤ totalCost kinds actual := by
  induction kinds with
  | nil => exact fun hp => nomatch hp
  | cons expected kinds ih =>
    intro actual p hp
    cases actual with
    | nil => cases hp
    | cons kind rest =>
      rw [totalCost_cons]
      rcases List.mem_cons.mp hp with rfl | hp
      · exact Nat.le_add_right _ _
      · exact Nat.le_add_left_of_le (ih hp)

/-- Widening costs no more than there is headroom. -/
theorem Widens.totalCost_le {kinds : List Kind} :
    ∀ {actual : List Kind}, Widens kinds actual → totalCost kinds actual ≤ headroom actual := by
  induction kinds with
  | nil => exact fun _ => Nat.zero_le _
  | cons expected kinds ih =>
    intro actual h
    cases actual with
    | nil => exact Nat.zero_le _
    | cons kind rest =>
      have hrest : totalCost kinds rest ≤ headroom rest :=
        ih fun p hp => h p (List.mem_cons_of_mem _ hp)
      have hle : kind.level ≤ expected.level := h (expected, kind) List.mem_cons_self
      have hthree : expected.level ≤ 3 := by cases expected <;> decide
      have hcost : conversionCost expected kind ≤ 3 - kind.level := by
        unfold conversionCost
        rw [if_pos hle]
        omega
      exact Nat.add_le_add hcost hrest

/-- A candidate that costs at most three narrows nothing. -/
theorem spares_of_cheap {kinds actual : List Kind} (h : totalCost kinds actual ≤ 3) :
    Spares kinds actual := by
  intro p hp hnarrows
  have hcost := hnarrows.cost
  have hle := conversionCost_le_totalCost hp
  omega

/-- Two operands of which one can be narrowed leave little headroom. -/
theorem headroom_of_narrowed {actual : List Kind} (hshort : actual.length ≤ 2)
    (hknown : ∀ kind ∈ actual, kind ≠ .unknown) {kind : Kind} (hmem : kind ∈ actual)
    (hlevel : 2 ≤ kind.level) : headroom actual ≤ 3 := by
  have hpos : ∀ k ∈ actual, 1 ≤ k.level := fun k hk => Kind.level_pos (hknown k hk)
  match actual with
  | [] => cases hmem
  | [a] =>
    show 3 - a.level + 0 ≤ 3
    omega
  | [a, b] =>
    have ha := hpos a (by simp)
    have hb := hpos b (by simp)
    show 3 - a.level + (3 - b.level + 0) ≤ 3
    rcases List.mem_cons.mp hmem with rfl | hmem
    · omega
    · rw [List.mem_singleton.mp hmem] at hlevel
      omega
  | a :: b :: c :: rest =>
    simp only [List.length_cons] at hshort
    omega

/-- Of two operands, a candidate that costs no more than one that only widens narrows
none. -/
theorem spares_of_two {kinds kinds' actual : List Kind} (hshort : actual.length ≤ 2)
    (hknown : ∀ kind ∈ actual, kind ≠ .unknown) (hwidens : Widens kinds actual)
    (hle : totalCost kinds' actual ≤ totalCost kinds actual) : Spares kinds' actual := by
  intro p hp hnarrows
  have hmem : p.2 ∈ actual := (List.of_mem_zip hp).2
  have hlevel : 2 ≤ p.2.level := by
    have hpos := Kind.level_pos hnarrows.1
    have hlt := hnarrows.2
    omega
  have hroom := headroom_of_narrowed hshort hknown hmem hlevel
  have hcost := hwidens.totalCost_le
  exact spares_of_cheap (by omega) p hp hnarrows

/-- Every kind is listed. -/
theorem Kind.mem_all (kind : Kind) : kind ∈ Kind.all := by cases kind <;> decide

/-- Of three operands, a type of an operator that costs no more than one that only
widens narrows none. -/
theorem TernaryOp.spares (op : TernaryOp) (a b c : Kind) {t u : OperatorType} (ht : t ∈ op.types)
    (hu : u ∈ op.types) (hwidens : Widens u.operands [a, b, c])
    (hle : totalCost t.operands [a, b, c] ≤ totalCost u.operands [a, b, c]) :
    Spares t.operands [a, b, c] := by
  have hall : ∀ a ∈ Kind.all, ∀ b ∈ Kind.all, ∀ c ∈ Kind.all, ∀ t ∈ op.types, ∀ u ∈ op.types,
      Widens u.operands [a, b, c] →
      totalCost t.operands [a, b, c] ≤ totalCost u.operands [a, b, c] →
      Spares t.operands [a, b, c] := by
    cases op <;> decide
  exact hall a a.mem_all b b.mem_all c c.mem_all t ht u hu hwidens hle

/-- Kinds that are offered by an operator are those of one of its types. -/
theorem OperatorType.of_offered {types : List OperatorType} {position : Nat} {kinds : List Kind}
    (h : (types.map (·.operands))[position]? = some kinds) : ∃ t ∈ types, t.operands = kinds := by
  rw [List.getElem?_map, Option.map_eq_some_iff] at h
  obtain ⟨t, ht, hkinds⟩ := h
  exact ⟨t, List.mem_of_getElem? ht, hkinds⟩

/-- Where something that is offered only widens, what is favoured narrows nothing, if
this is an operator, there are at most two operands, or widening costs at most three. -/
theorem Graph.Favours.spares {g : Graph} {op : Operation} {position k : Nat}
    {kinds kinds' actual : List Kind} (h : g.Favours op actual k kinds')
    (hlength : actual.length = op.children.length) (hknown : ∀ kind ∈ actual, kind ≠ .unknown)
    (hoffered : g.Offers op position kinds) (hwidens : Widens kinds actual)
    (hroom : ∀ candidates arguments, op = .call candidates arguments →
      arguments.length ≤ 2 ∨ totalCost kinds actual ≤ 3) : Spares kinds' actual := by
  have hle := h.least position kinds hoffered
  have htwo : op.children.length ≤ 2 → Spares kinds' actual := fun hshort =>
    spares_of_two (hlength ▸ hshort) hknown hwidens hle
  cases op with
  | unary op x => exact htwo (Nat.le_succ 1)
  | binary op x y => exact htwo (Nat.le_refl 2)
  | ternary op x y z =>
    obtain ⟨a, b, c, rfl⟩ := List.length_eq_three.mp hlength
    obtain ⟨t, ht, rfl⟩ := OperatorType.of_offered h.offered
    obtain ⟨u, hu, rfl⟩ := OperatorType.of_offered hoffered
    exact op.spares a b c ht hu hwidens hle
  | call candidates arguments =>
    rcases hroom candidates arguments rfl with hshort | hcheap
    · exact htwo hshort
    · exact spares_of_cheap (Nat.le_trans hle hcheap)
  | _ => exact hoffered.elim

/-- The position of what an operation is offered fits in one byte, unless it is a call with
more than 256 candidates. -/
theorem Graph.Offers.position_lt {g : Graph} {op : Operation} {position : Nat} {kinds : List Kind}
    (h : g.Offers op position kinds) (hfew : ∀ candidates arguments,
      op = .call candidates arguments → candidates.length ≤ 256) : position < 256 := by
  have hlisted : ∀ types : List OperatorType, types.length ≤ 256 →
      (types.map (·.operands))[position]? = some kinds → position < 256 := by
    intro types hlength hget
    have hlt := (List.getElem?_eq_some_iff.mp hget).1
    rw [List.length_map] at hlt
    omega
  cases op with
  | unary op x => exact hlisted op.types (by cases op <;> decide) h
  | binary op x y => exact hlisted op.types (by cases op <;> decide) h
  | ternary op x y z => exact hlisted op.types (by cases op <;> decide) h
  | call candidates arguments =>
    obtain ⟨s, ⟨f, hf, -⟩, -⟩ := h
    have hlt := (List.getElem?_eq_some_iff.mp hf).1
    have hle := hfew candidates arguments rfl
    omega
  | _ => exact h.elim

/-- Where one of the types or candidates that a node is offered needs no narrowing of
its operands, the node takes one that narrows none. Operators always do so; calls do if
they have at most two arguments, or if the candidate that only widens costs at most
three. What is taken is recorded in one byte: it is the record itself, unless it is a
candidate of a call with more than 256 of them. Costs are added up without a bound; with
fewer than `2 ^ 27` operands none of them leaves the signed integers of 32 bits. -/
theorem choice_spares_operands {g : Graph} {id : NodeId} {n : Node} {position : Nat}
    {kinds : List Kind} (hn : g.node? id = some n) (hopen : n.overload = none)
    (hknown : g.Known n.children) (hoffered : g.Offers n.op position kinds)
    (hwidens : Widens kinds (n.children.map fun x => (g.shapeAt x).kind))
    (hroom : ∀ candidates arguments, n.op = .call candidates arguments → arguments.length ≤ 2 ∨
      totalCost kinds (n.children.map fun x => (g.shapeAt x).kind) ≤ 3) :
    ∃ m k kinds', (resolve id).runOn g = (.ok (), g.setNode id m) ∧
      m.overload = some (k % 256) ∧
      ((∀ candidates arguments, n.op = .call candidates arguments → candidates.length ≤ 256) →
        m.overload = some k) ∧
      (n.children.length < 2 ^ 27 → ∀ other kinds, g.Offers n.op other kinds →
        totalCost kinds (n.children.map fun x => (g.shapeAt x).kind) < 2 ^ 31) ∧
      g.Favours n.op (n.children.map fun x => (g.shapeAt x).kind) k kinds' ∧
      Spares kinds' (n.children.map fun x => (g.shapeAt x).kind) := by
  have hplain : ∀ arguments, n.op ≠ .construct arguments := by
    intro arguments hop
    rw [hop] at hoffered
    exact hoffered
  have hlength : (n.children.map g.shapeAt).length = n.children.length := List.length_map _
  obtain ⟨k, kinds', hfavours, hoverload⟩ := n.resolved_favours hlength hoffered
  have hmap : (n.children.map g.shapeAt).map (·.kind) =
      n.children.map fun x => (g.shapeAt x).kind := List.map_map
  rw [hmap] at hfavours
  have hkinds : ∀ kind ∈ n.children.map fun x => (g.shapeAt x).kind, kind ≠ .unknown := by
    intro kind hkind
    obtain ⟨x, hx, rfl⟩ := List.mem_map.mp hkind
    obtain ⟨m, hm, hshape⟩ := hknown x hx
    rw [Graph.shapeAt_eq hm]
    exact of_decide_eq_false hshape
  refine ⟨_, k, kinds', runOn_resolve hn hplain hopen hknown, hoverload, fun hfew => ?_,
    fun hfew _ kinds _ => totalCost_lt (by rwa [List.length_map]) kinds, hfavours, ?_⟩
  · rw [hoverload, Nat.mod_eq_of_lt (hfavours.offered.position_lt hfew)]
  · exact hfavours.spares (List.length_map _) hkinds hoffered hwidens hroom

/-- A call with a boolean and an integer takes the function of two numbers, although the
one of two booleans comes first. -/
theorem choice_spares_operands_two :
    Overloaded.mixed.Known [0, 1] ∧ Widens [.float, .float] [.bool, .int] ∧
      ∃ m k kinds, (resolve 2).runOn Overloaded.mixed = (.ok (), Overloaded.mixed.setNode 2 m) ∧
        m.overload = some k ∧
        Overloaded.mixed.Favours (.call [0, 1] [0, 1]) [.bool, .int] k kinds ∧
        Spares kinds [.bool, .int] := by
  have hnode : Overloaded.mixed.node? 2 =
      some { op := .call [0, 1] [0, 1], shape := Shape.unknown } := rfl
  have hoffered : Overloaded.mixed.Offers (.call [0, 1] [0, 1]) 1 [.float, .float] :=
    ⟨.ofInputs "f" [.float, .float] .float, ⟨1, rfl, rfl, by decide⟩, rfl⟩
  refine ⟨Overloaded.known_mixed, by decide, ?_⟩
  obtain ⟨m, k, kinds, hrun, -, hrecord, -, hfavours, hspares⟩ :=
    choice_spares_operands hnode rfl Overloaded.known_mixed hoffered (by decide)
      fun _ _ h => by cases h; exact .inl (by decide)
  exact ⟨m, k, kinds, hrun, hrecord fun _ _ h => by cases h; decide, hfavours, hspares⟩

/-- Two booleans and an integer can be widened to numbers, but that costs five. So the
call takes the function of three booleans, which costs four, and the integer is
narrowed. -/
theorem call_narrows_integer :
    Overloaded.lossy.Offers (.call [0, 1] [0, 1, 2]) 0 [.float, .float, .float] ∧
      Widens [.float, .float, .float] [.bool, .bool, .int] ∧
      ∃ m, (resolve 3).runOn Overloaded.lossy = (.ok (), Overloaded.lossy.setNode 3 m) ∧
        m.overload = some 1 ∧
        Overloaded.lossy.Offers (.call [0, 1] [0, 1, 2]) 1 [.bool, .bool, .bool] ∧
        Kind.Narrows .bool .int := by
  let m : Node :=
    { op := .call [0, 1] [0, 1, 2]
      shape := Shape.float
      inputWidth := 1
      overload := some 1 }
  have hrun : (resolve 3).runOn Overloaded.lossy = (.ok (), Overloaded.lossy.setNode 3 m) := by
    decide
  exact ⟨⟨_, ⟨0, rfl, rfl, by decide⟩, rfl⟩, by decide, m, hrun, rfl,
    ⟨_, ⟨1, rfl, rfl, by decide⟩, rfl⟩, by decide⟩

end LaneGraph
