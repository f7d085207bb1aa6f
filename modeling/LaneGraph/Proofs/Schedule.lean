import LaneGraph.Proofs.Walk
import LaneGraph.Schedule.Order

/-!
# Order and lifetimes of a schedule

A schedule holds the nodes of a walk in their order. Every node that is no
output owns a value, which starts at its own step and lasts at least until the
last step that reads it.
-/

namespace LaneGraph.Schedule

/-- The nodes whose values are numbered. -/
def owners (s : Schedule) : List NodeId := s.intervals.toList.map (·.node)

/-- A value is found by its owner. -/
theorem valueOf?_eq_findIdx? (s : Schedule) (id : NodeId) :
    s.valueOf? id = s.owners.findIdx? (· = id) := by
  unfold valueOf? owners
  rw [List.findIdx?_map, ← List.findIdx?_toArray, Array.toArray_toList]
  rfl

/-- If no node owns two values, a node's value is where the node stands. -/
theorem valueOf?_eq_some {s : Schedule} (hn : s.owners.Nodup) {v : Nat} {i : Interval}
    (hi : s.intervals[v]? = some i) : s.valueOf? i.node = some v := by
  have ho : s.owners[v]? = some i.node := by
    unfold owners
    rw [List.getElem?_map, Array.getElem?_toList, hi]
    rfl
  rw [valueOf?_eq_findIdx?, List.findIdx?_eq_some_iff_getElem]
  obtain ⟨hlt, hget⟩ := List.getElem?_eq_some_iff.mp ho
  refine ⟨hlt, by simpa using hget, ?_⟩
  intro j hj
  rw [decide_eq_true_eq]
  intro heq
  have := (List.Nodup.getElem_inj_iff hn).mp (heq.trans hget.symm)
  omega

/-- The value found for a node has the node as its owner. -/
theorem interval_of_valueOf? {s : Schedule} {id : NodeId} {v : Nat}
    (h : s.valueOf? id = some v) : ∃ i, s.intervals[v]? = some i ∧ i.node = id := by
  unfold valueOf? at h
  rw [Array.findIdx?_eq_some_iff_getElem] at h
  obtain ⟨hlt, hnode, -⟩ := h
  exact ⟨s.intervals[v], Array.getElem?_eq_getElem hlt, by simpa using hnode⟩

/-- The second schedule differs from the first by longer lifetimes only. -/
structure Longer (s s' : Schedule) : Prop where
  steps : s'.steps = s.steps
  size : s'.intervals.size = s.intervals.size
  stop : ∀ (v : Nat) (i : Interval), s.intervals[v]? = some i →
    ∃ i', s'.intervals[v]? = some i' ∧ i'.start = i.start ∧ i'.node = i.node ∧ i.stop ≤ i'.stop

namespace Longer

/-- Lifetimes are no shorter than themselves. -/
theorem refl (s : Schedule) : Longer s s :=
  ⟨rfl, rfl, fun _ i h => ⟨i, h, rfl, rfl, Nat.le_refl _⟩⟩

/-- Lengthening twice is lengthening. -/
theorem trans {s s' s'' : Schedule} (h : Longer s s') (h' : Longer s' s'') : Longer s s'' where
  steps := h'.steps.trans h.steps
  size := h'.size.trans h.size
  stop v i hi := by
    obtain ⟨i', hi', hstart, hnode, hstop⟩ := h.stop v i hi
    obtain ⟨i'', hi'', hstart', hnode', hstop'⟩ := h'.stop v i' hi'
    exact ⟨i'', hi'', hstart'.trans hstart, hnode'.trans hnode, by omega⟩

/-- Every lifetime of the longer schedule lengthens one of the shorter. -/
theorem origin {s s' : Schedule} (h : Longer s s') {v : Nat} {i' : Interval}
    (hi' : s'.intervals[v]? = some i') :
    ∃ i, s.intervals[v]? = some i ∧ i'.start = i.start ∧ i'.node = i.node := by
  have hlt := (Array.getElem?_eq_some_iff.mp hi').1
  have hget := Array.getElem?_eq_getElem (h.size ▸ hlt)
  obtain ⟨i'', hi'', hstart, hnode, -⟩ := h.stop v _ hget
  rw [hi'] at hi''
  cases hi''
  exact ⟨_, hget, hstart, hnode⟩

/-- Owners stay the same. -/
theorem owners_eq {s s' : Schedule} (h : Longer s s') : s'.owners = s.owners := by
  apply List.ext_getElem?
  intro v
  unfold owners
  rw [List.getElem?_map, List.getElem?_map, Array.getElem?_toList, Array.getElem?_toList]
  cases hv : s.intervals[v]? with
  | none =>
    have : s'.intervals[v]? = none := by
      rw [Array.getElem?_eq_none_iff] at hv ⊢
      rwa [h.size]
    rw [this]
  | some i =>
    obtain ⟨i', hi', -, hnode, -⟩ := h.stop v i hv
    rw [hi', Option.map_some, Option.map_some, hnode]

/-- Values are found where they were. -/
theorem valueOf?_eq {s s' : Schedule} (h : Longer s s') (id : NodeId) :
    s'.valueOf? id = s.valueOf? id := by
  rw [valueOf?_eq_findIdx?, valueOf?_eq_findIdx?, h.owners_eq]

end Longer

/-- Letting a value live on lengthens its lifetime, up to the instruction at
least. -/
theorem extend_longer (s : Schedule) (position : Nat) (id : NodeId) :
    Longer s (s.extend position id) ∧ ∀ v, s.valueOf? id = some v →
      ∃ i, (s.extend position id).intervals[v]? = some i ∧ position ≤ i.stop := by
  unfold extend
  cases hv : s.valueOf? id with
  | none => exact ⟨.refl s, fun v h => (nomatch h)⟩
  | some v =>
    constructor
    · refine ⟨rfl, Array.size_modify, ?_⟩
      intro u i hi
      dsimp only
      rw [Array.getElem?_modify, hi]
      split
      · exact ⟨_, rfl, rfl, rfl, by dsimp only; omega⟩
      · exact ⟨i, rfl, rfl, rfl, Nat.le_refl _⟩
    · rintro u ⟨⟩
      obtain ⟨i, hi, -⟩ := interval_of_valueOf? hv
      refine ⟨{ i with stop := max i.stop position }, ?_, by dsimp only; omega⟩
      dsimp only
      rw [Array.getElem?_modify, hi, if_pos rfl]
      rfl

/-- Letting several values live on lengthens their lifetimes. -/
theorem foldl_extend_longer (position : Nat) (ids : List NodeId) (s : Schedule) :
    Longer s (ids.foldl (fun s c => s.extend position c) s) ∧
      ∀ c ∈ ids, ∀ v, s.valueOf? c = some v →
        ∃ i, (ids.foldl (fun s c => s.extend position c) s).intervals[v]? = some i ∧
          position ≤ i.stop := by
  induction ids generalizing s with
  | nil => exact ⟨.refl s, fun c hc => (nomatch hc)⟩
  | cons id rest ih =>
    obtain ⟨hone, hown⟩ := extend_longer s position id
    obtain ⟨hrest, hlast⟩ := ih (s.extend position id)
    rw [List.foldl_cons]
    refine ⟨hone.trans hrest, ?_⟩
    intro c hc v hv
    rcases List.mem_cons.mp hc with rfl | hc
    · obtain ⟨i, hi, hle⟩ := hown v hv
      obtain ⟨i', hi', -, -, hstop⟩ := hrest.stop v i hi
      exact ⟨i', hi', by omega⟩
    · exact hlast c hc v ((hone.valueOf?_eq c).trans hv)

/-- What a schedule says about the nodes that it lists. -/
structure Faithful (g : Graph) (order : List NodeId) (s : Schedule) : Prop where
  /-- The steps are the listed nodes in order. -/
  nodes : s.steps.map (·.node) = order
  /-- No node owns two values. -/
  owners : s.owners.Nodup
  /-- The value of a step starts at the step. -/
  starts : ∀ (t : Nat) (step : Step) (v : Nat), s.steps[t]? = some step → step.value = some v →
    ∃ i, s.intervals[v]? = some i ∧ i.start = t ∧ i.node = step.node
  /-- A value belongs to the step at which it starts. -/
  step : ∀ (v : Nat) (i : Interval), s.intervals[v]? = some i → s.steps[i.start]? = some ⟨i.node, some v⟩
  /-- Outputs have no value and all other nodes have one. -/
  outputs : ∀ step ∈ s.steps, ∃ n, g.node? step.node = some n ∧
    (step.value = none ↔ n.isOutput = true)
  /-- A value lasts at least until a step that reads it. -/
  reads : ∀ (t : Nat) (step : Step) (n : Node) (c : NodeId) (v : Nat) (i : Interval),
    s.steps[t]? = some step → g.node? step.node = some n →
    c ∈ g.readOperands n → s.valueOf? c = some v → s.intervals[v]? = some i → t ≤ i.stop
  /-- No lifetime ends before it starts. -/
  lasts : ∀ (v : Nat) (i : Interval), s.intervals[v]? = some i → i.start ≤ i.stop

namespace Faithful

variable {g : Graph} {order : List NodeId} {s s' : Schedule}

/-- The empty schedule lists nothing. -/
theorem empty (g : Graph) : Faithful g [] {} where
  nodes := rfl
  owners := List.nodup_nil
  starts _ _ _ h := by simp at h
  step _ _ h := by simp at h
  outputs _ h := by cases h
  reads _ _ _ _ _ _ h := by simp at h
  lasts _ _ h := by simp at h

/-- A listed node has a step. -/
theorem exists_step (h : Faithful g order s) {id : NodeId} (hid : id ∈ order) :
    ∃ (t : Nat) (step : Step), s.steps[t]? = some step ∧ step.node = id := by
  rw [← h.nodes, List.mem_map] at hid
  obtain ⟨step, hstep, rfl⟩ := hid
  obtain ⟨t, ht⟩ := List.getElem?_of_mem hstep
  exact ⟨t, step, ht, rfl⟩

/-- The owner of a value is listed. -/
theorem owner_mem (h : Faithful g order s) {id : NodeId} (hid : id ∈ s.owners) : id ∈ order := by
  unfold Schedule.owners at hid
  rw [List.mem_map] at hid
  obtain ⟨i, hi, rfl⟩ := hid
  obtain ⟨v, hv⟩ := List.getElem?_of_mem hi
  rw [Array.getElem?_toList] at hv
  rw [← h.nodes, List.mem_map]
  exact ⟨_, List.mem_of_getElem? (h.step v i hv), rfl⟩

/-- A listed node that is no output has a value. -/
theorem exists_value (h : Faithful g order s) {id : NodeId} {n : Node} (hid : id ∈ order)
    (hn : g.node? id = some n) (hout : n.isOutput = false) :
    ∃ v i, s.valueOf? id = some v ∧ s.intervals[v]? = some i ∧ i.node = id := by
  obtain ⟨t, step, hstep, rfl⟩ := h.exists_step hid
  obtain ⟨n', hn', hnone⟩ := h.outputs step (List.mem_of_getElem? hstep)
  rw [hn] at hn'
  cases hn'
  cases hv : step.value with
  | none =>
    rw [hnone.mp hv] at hout
    cases hout
  | some v =>
    obtain ⟨i, hi, -, hnode⟩ := h.starts t step v hstep hv
    exact ⟨v, i, hnode ▸ valueOf?_eq_some h.owners hi, hi, hnode⟩

/-- Longer lifetimes keep a schedule faithful. -/
theorem longer (h : Faithful g order s) (hl : Longer s s') : Faithful g order s' where
  nodes := by rw [hl.steps]; exact h.nodes
  owners := by rw [hl.owners_eq]; exact h.owners
  starts t step v hstep hv := by
    rw [hl.steps] at hstep
    obtain ⟨i, hi, hstart, hnode⟩ := h.starts t step v hstep hv
    obtain ⟨i', hi', hstart', hnode', -⟩ := hl.stop v i hi
    exact ⟨i', hi', hstart'.trans hstart, hnode'.trans hnode⟩
  step v i hi := by
    obtain ⟨i₀, hi₀, hstart, hnode⟩ := hl.origin hi
    rw [hl.steps, hstart, hnode]
    exact h.step v i₀ hi₀
  outputs step hstep := h.outputs step (hl.steps ▸ hstep)
  reads t step n c v i hstep hn hc hv hi := by
    obtain ⟨i₀, hi₀, -, -⟩ := hl.origin hi
    obtain ⟨i', hi', -, -, hstop⟩ := hl.stop v i₀ hi₀
    rw [hi] at hi'
    cases hi'
    rw [hl.steps] at hstep
    have := h.reads t step n c v i₀ hstep hn hc ((hl.valueOf?_eq c) ▸ hv) hi₀
    omega
  lasts v i hi := by
    obtain ⟨i₀, hi₀, hstart, -⟩ := hl.origin hi
    obtain ⟨i', hi', -, -, hstop⟩ := hl.stop v i₀ hi₀
    rw [hi] at hi'
    cases hi'
    have := h.lasts v i₀ hi₀
    omega

/-- As many steps as listed nodes. -/
theorem length_steps (h : Faithful g order s) : s.steps.length = order.length := by
  rw [← h.nodes, List.length_map]

end Faithful

/-- A step in a line with one more at its end is an old one or the last. -/
theorem getElem?_snoc {steps : List Step} {last step : Step} {t : Nat}
    (h : (steps ++ [last])[t]? = some step) :
    steps[t]? = some step ∨ t = steps.length ∧ step = last := by
  rcases Nat.lt_trichotomy t steps.length with hlt | heq | hgt
  · rw [List.getElem?_append_left hlt] at h
    exact .inl h
  · rw [heq, List.getElem?_concat_length] at h
    exact .inr ⟨heq, (Option.some.inj h).symm⟩
  · rw [List.getElem?_append_right (by omega), List.getElem?_eq_none (by simp; omega)] at h
    cases h

/-- An old step keeps its place in a longer line. -/
theorem getElem?_of_snoc {steps : List Step} {last step : Step} {t : Nat}
    (h : steps[t]? = some step) : (steps ++ [last])[t]? = some step := by
  rw [List.getElem?_append_left (List.getElem?_eq_some_iff.mp h).1]
  exact h

namespace Faithful

variable {g : Graph} {order : List NodeId} {s : Schedule} {id : NodeId} {n : Node}

/-- The values that a node reads last up to a position. -/
def LastTo (g : Graph) (s : Schedule) (n : Node) (position : Nat) : Prop :=
  ∀ c ∈ g.readOperands n, ∀ (v : Nat) (i : Interval), s.valueOf? c = some v →
    s.intervals[v]? = some i → position ≤ i.stop

/-- A node that writes a stream is appended without a value. -/
theorem snoc_output (h : Faithful g order s) (hn : g.node? id = some n)
    (hout : n.isOutput = true) (hlast : LastTo g s n s.steps.length) :
    Faithful g (order ++ [id]) { s with steps := s.steps ++ [⟨id, none⟩] } where
  nodes := by rw [List.map_append, h.nodes]; rfl
  owners := h.owners
  starts t step v hstep hv := by
    rcases getElem?_snoc hstep with hold | ⟨-, rfl⟩
    · exact h.starts t step v hold hv
    · cases hv
  step v i hi := getElem?_of_snoc (h.step v i hi)
  outputs step hstep := by
    rcases List.mem_append.mp hstep with hold | hnew
    · exact h.outputs step hold
    · rw [List.mem_singleton] at hnew
      subst hnew
      exact ⟨n, hn, by simp [hout]⟩
  reads t step m c v i hstep hm hc hv hi := by
    rcases getElem?_snoc hstep with hold | ⟨rfl, rfl⟩
    · exact h.reads t step m c v i hold hm hc hv hi
    · rw [hn] at hm
      cases hm
      exact hlast c hc v i hv hi
  lasts := h.lasts

/-- The schedule with a new value and the step that makes it. -/
def withValue (s : Schedule) (id : NodeId) : Schedule :=
  { steps := s.steps ++ [⟨id, some s.intervals.size⟩]
    intervals := s.intervals.push ⟨s.steps.length, s.steps.length, id⟩ }

/-- A lifetime after a new one is added is an old one or the new one. -/
theorem intervals_withValue {v : Nat} {i : Interval}
    (h : (withValue s id).intervals[v]? = some i) :
    s.intervals[v]? = some i ∨
      v = s.intervals.size ∧ i = ⟨s.steps.length, s.steps.length, id⟩ := by
  unfold withValue at h
  rw [Array.getElem?_push] at h
  split at h
  · rename_i heq
    exact .inr ⟨heq, (Option.some.inj h).symm⟩
  · exact .inl h

/-- Old lifetimes keep their numbers when a new one is added. -/
theorem intervals_of_withValue {v : Nat} {i : Interval} (h : s.intervals[v]? = some i) :
    (withValue s id).intervals[v]? = some i := by
  have hlt := (Array.getElem?_eq_some_iff.mp h).1
  unfold withValue
  rw [Array.getElem?_push, if_neg (by omega)]
  exact h

/-- A node that writes no stream is appended with a value of its own. -/
theorem snoc_value (h : Faithful g order s) (hfresh : id ∉ order) (hn : g.node? id = some n)
    (hout : n.isOutput = false) (hlast : LastTo g s n s.steps.length) :
    Faithful g (order ++ [id]) (withValue s id) := by
  have howners : (withValue s id).owners = s.owners ++ [id] := by
    unfold Schedule.owners withValue
    rw [Array.toList_push, List.map_append]
    rfl
  have hnodup : (withValue s id).owners.Nodup := by
    rw [howners, List.nodup_append]
    refine ⟨h.owners, List.nodup_singleton _, ?_⟩
    intro a ha b hb heq
    rw [List.mem_singleton] at hb
    exact hfresh (hb ▸ heq ▸ h.owner_mem ha)
  -- A lifetime that was there before belongs to the number its owner had before.
  have hold : ∀ {c : NodeId} {v : Nat} {i : Interval}, (withValue s id).valueOf? c = some v →
      s.intervals[v]? = some i → s.valueOf? c = some v := by
    intro c v i hv hi
    obtain ⟨i', hi', hnode⟩ := interval_of_valueOf? hv
    rw [intervals_of_withValue hi] at hi'
    cases hi'
    exact hnode ▸ valueOf?_eq_some h.owners hi
  refine ⟨?_, hnodup, ?_, ?_, ?_, ?_, ?_⟩
  · unfold withValue
    rw [List.map_append, h.nodes]
    rfl
  · intro t step v hstep hv
    rcases getElem?_snoc hstep with hstep | ⟨rfl, rfl⟩
    · obtain ⟨i, hi, hi'⟩ := h.starts t step v hstep hv
      exact ⟨i, intervals_of_withValue hi, hi'⟩
    · cases hv
      exact ⟨⟨s.steps.length, s.steps.length, id⟩, Array.getElem?_push_size, rfl, rfl⟩
  · intro v i hi
    rcases intervals_withValue hi with hi | ⟨rfl, rfl⟩
    · exact getElem?_of_snoc (h.step v i hi)
    · exact List.getElem?_concat_length
  · intro step hstep
    rcases List.mem_append.mp hstep with hstep | hnew
    · exact h.outputs step hstep
    · rw [List.mem_singleton] at hnew
      subst hnew
      exact ⟨n, hn, by simp [hout]⟩
  · intro t step m c v i hstep hm hc hv hi
    rcases intervals_withValue hi with hi | ⟨rfl, rfl⟩
    · rcases getElem?_snoc hstep with hstep | ⟨rfl, rfl⟩
      · exact h.reads t step m c v i hstep hm hc (hold hv hi) hi
      · rw [hn] at hm
        cases hm
        exact hlast c hc v i (hold hv hi) hi
    · have hlt := (List.getElem?_eq_some_iff.mp hstep).1
      unfold withValue at hlt
      rw [List.length_append, List.length_singleton] at hlt
      dsimp only
      omega
  · intro v i hi
    rcases intervals_withValue hi with hi | ⟨rfl, rfl⟩
    · exact h.lasts v i hi
    · exact Nat.le_refl _

/-- Appending a listed node keeps a schedule faithful. -/
theorem append (h : Faithful g order s) (hfresh : id ∉ order) (hn : g.node? id = some n) :
    Faithful g (order ++ [id]) (Schedule.append g s id) := by
  obtain ⟨hlonger, hstop⟩ := foldl_extend_longer s.steps.length (g.readOperands n) s
  have hsteps := hlonger.steps
  have hvalue := hlonger.valueOf?_eq
  unfold Schedule.append
  rw [hn]
  dsimp only
  generalize (g.readOperands n).foldl (fun t child => t.extend s.steps.length child) s =
    s' at hlonger hstop hsteps hvalue ⊢
  have hf := h.longer hlonger
  have hlast : LastTo g s' n s'.steps.length := by
    intro c hc v i hv hi
    obtain ⟨i', hi', hle⟩ := hstop c hc v (hvalue c ▸ hv)
    rw [hi] at hi'
    cases hi'
    rw [hsteps]
    exact hle
  split
  · rename_i hout
    exact hf.snoc_output hn hout hlast
  · rename_i hout
    have := hf.snoc_value hfresh hn (by simpa using hout) hlast
    unfold withValue at this
    rwa [hsteps] at this ⊢

end Faithful

/-- The operands that need instructions are those read from registers. -/
theorem scheduledOperands_eq_ok {g : Graph} {id : NodeId} {next : List NodeId}
    (h : g.scheduledOperands id = .ok next) :
    ∃ n, g.node? id = some n ∧ next = g.readOperands n ∧
      ∀ c ∈ n.children, (g.node? c).isSome = true := by
  unfold Graph.scheduledOperands at h
  cases hn : g.node? id with
  | none => rw [hn] at h; cases h
  | some n =>
    rw [hn] at h
    dsimp only at h
    cases hfind : n.children.reverse.find? fun child => (g.node? child).isNone with
    | some missing => rw [hfind] at h; cases h
    | none =>
      rw [hfind] at h
      cases h
      refine ⟨n, rfl, rfl, ?_⟩
      intro c hc
      have := List.find?_eq_none.mp hfind c (List.mem_reverse.mpr hc)
      exact Option.isSome_iff_ne_none.mpr (by simpa using this)

/-- An operand that a step reads from a register is made by an earlier step. -/
theorem Faithful.operand_before {g : Graph} {order : List NodeId} {s : Schedule}
    (h : Faithful g order s) (hlisted : Listed g.scheduledOperands order) {t : Nat} {step : Step}
    {n : Node} {c : NodeId} (hstep : s.steps[t]? = some step) (hn : g.node? step.node = some n)
    (hc : c ∈ g.readOperands n) :
    ∃ u < t, ∃ earlier, s.steps[u]? = some earlier ∧ earlier.node = c := by
  have hnode : order[t]? = some step.node := by
    rw [← h.nodes, List.getElem?_map, hstep]
    rfl
  have horder : order = order.take t ++ step.node :: order.drop (t + 1) := by
    obtain ⟨hlt, hget⟩ := List.getElem?_eq_some_iff.mp hnode
    rw [← hget, List.getElem_cons_drop, List.take_append_drop]
  obtain ⟨next, hnext, -⟩ := hlisted.closed (List.mem_of_getElem? hnode)
  obtain ⟨n', hn', rfl, -⟩ := scheduledOperands_eq_ok hnext
  rw [hn] at hn'
  cases hn'
  obtain ⟨u, hu, hget⟩ := List.mem_take_iff_getElem.mp (hlisted.before horder hnext c hc)
  have hsteps := h.length_steps
  refine ⟨u, by omega, s.steps[u], List.getElem?_eq_getElem (by omega), ?_⟩
  have hmap : (s.steps.map (·.node))[u]? = some c := by
    rw [h.nodes, List.getElem?_eq_getElem (by omega), hget]
  rw [List.getElem?_map, List.getElem?_eq_getElem (by omega)] at hmap
  exact Option.some.inj hmap

/-- A line of nodes is scheduled faithfully. -/
theorem foldl_append_faithful {g : Graph} {order : List NodeId}
    (h : Listed g.scheduledOperands order) : Faithful g order (order.foldl (append g) {}) := by
  induction h with
  | nil => exact .empty g
  | snoc _ fresh known _ ih =>
    obtain ⟨n, hn, -⟩ := scheduledOperands_eq_ok known
    rw [List.foldl_append, List.foldl_cons, List.foldl_nil]
    exact ih.append fresh hn

/-- The schedule of a graph is made from a walk. -/
theorem ofGraph_eq_ok {g : Graph} {s : Schedule} (h : ofGraph g = .ok s) :
    ∃ order, g.walk g.scheduledOperands = .ok order ∧ s = order.toList.foldl (append g) {} := by
  unfold ofGraph at h
  split at h
  · cases h
  · cases hwalk : g.walk g.scheduledOperands with
    | error e => rw [hwalk] at h; cases h
    | ok order =>
      rw [hwalk] at h
      cases h
      exact ⟨order, rfl, (Array.foldl_toList ..).symm⟩

end LaneGraph.Schedule
