import LaneGraph.Proofs.WellFormed
import Mathlib.Data.Finset.Dedup
import Mathlib.Order.Bounds.Defs

/-!
# Values have registers of their own, and no register is wasted

Values that are needed at once have different registers, so compilation never ends
because of a clash. A new register is opened only when a value starts while all others
are in use, and all of these values are needed at that point. Hence there are as many
registers as values at the most crowded point, where no assignment could do with fewer.
-/

namespace LaneGraph

open Emission

/-! ## Compilation meets no clash -/

/-- The computation does not fail because two values share a register. -/
def Clashless {α : Type} (x : Except CompileError α) : Prop :=
  ∀ register first second, x ≠ .error (.registerAllocation register first second)

namespace Clashless

variable {α β : Type}

/-- A computation that succeeds. -/
theorem ok (a : α) : Clashless (.ok a : Except CompileError α) := fun _ _ _ h => nomatch h

/-- One computation after the other. -/
theorem bind {x : Except CompileError α} {f : α → Except CompileError β} (hx : Clashless x)
    (hf : ∀ a, Clashless (f a)) : Clashless (x >>= f) := by
  cases x with
  | error e =>
    intro register first second h
    cases h
    exact hx _ _ _ rfl
  | ok a => exact hf a

/-- Computations for a list. -/
theorem mapM {f : α → Except CompileError β} (hf : ∀ a, Clashless (f a)) (xs : List α) :
    Clashless (xs.mapM f) := by
  induction xs with
  | nil => exact ok []
  | cons x xs ih =>
    rw [List.mapM_cons]
    exact (hf x).bind fun y => ih.bind fun ys => ok (y :: ys)

end Clashless

namespace Emission

/-- A node is found, or it is missing. -/
theorem clashless_node (s : Source) (id : NodeId) : Clashless (s.node id) := by
  unfold Source.node
  split <;> exact fun _ _ _ h => nomatch h

/-- A register is found, or there is no value. -/
theorem clashless_register (s : Source) (id : NodeId) : Clashless (s.register id) := by
  unfold Source.register
  split <;> exact fun _ _ _ h => nomatch h

/-- A kind is known, or it is not. -/
theorem clashless_kindOf (n : Node) : Clashless (kindOf n) := by
  unfold kindOf
  split <;> exact fun _ _ _ h => nomatch h

/-- A node is a scalar literal, or it is not. -/
theorem clashless_literalBits (n : Node) : Clashless (literalBits n) := by
  unfold literalBits
  repeat' split
  all_goals exact fun _ _ _ h => nomatch h

/-- There is an instruction, or there is none. -/
theorem clashless_orNoEncoding {α : Type} (n : Node) (x : Option α) :
    Clashless (orNoEncoding n x) := by
  cases x <;> exact fun _ _ _ h => nomatch h

/-- Choosing an instruction meets no clash. -/
theorem clashless_instruction (s : Source) (t : Tables) (n : Node) (r : UInt32) :
    Clashless (instruction s t n r) := by
  unfold instruction
  split
  · exact (clashless_literalBits n).bind fun _ => .ok _
  · exact .ok _
  · dsimp only
    split
    · exact (clashless_node s _).bind fun m => (clashless_literalBits m).bind fun _ => .ok _
    · exact (clashless_register s _).bind fun _ => .ok _
  · exact (clashless_node s _).bind fun m => (clashless_kindOf m).bind fun _ =>
      (clashless_kindOf n).bind fun _ => (clashless_orNoEncoding n _).bind fun _ =>
        (clashless_register s _).bind fun _ => .ok _
  · refine (clashless_node s _).bind fun m => (clashless_kindOf m).bind fun _ =>
      (clashless_orNoEncoding n _).bind fun _ => (clashless_register s _).bind fun _ => ?_
    split
    · exact (clashless_node s _).bind fun m => (clashless_literalBits m).bind fun _ => .ok _
    · exact (clashless_register s _).bind fun _ => .ok _
  · exact (clashless_kindOf n).bind fun _ => (clashless_orNoEncoding n _).bind fun _ =>
      (clashless_register s _).bind fun _ => (clashless_register s _).bind fun _ =>
        (clashless_register s _).bind fun _ => .ok _
  · split
    · exact fun _ _ _ h => nomatch h
    · exact (Clashless.mapM (clashless_register s) _).bind fun _ => .ok _
  all_goals exact fun _ _ _ h => nomatch h

/-- Writing out the instructions of steps meets no clash. -/
theorem clashless_instructions (s : Source) (t : Tables) (steps : List Step) :
    Clashless (instructions s t steps) := by
  induction steps generalizing t with
  | nil => exact .ok _
  | cons step rest ih =>
    rw [instructions]
    exact (clashless_node s _).bind fun n => (clashless_instruction s t n _).bind fun p =>
      (ih p.2).bind fun _ => .ok _

/-- Writing out a program meets no clash. -/
theorem clashless_program (s : Source) : Clashless (program s) :=
  (clashless_instructions s _ _).bind fun _ => .ok _

end Emission

/-- An order is found, or there are no outputs or a reference leads nowhere. -/
theorem Schedule.clashless_ofGraph (g : Graph) : Clashless (ofGraph g) := by
  intro register first second h
  unfold ofGraph at h
  split at h
  · cases h
  · cases hwalk : g.walk g.scheduledOperands with
    | ok order =>
      rw [hwalk] at h
      cases h
    | error e =>
      rw [hwalk] at h
      cases h
      obtain ⟨id, hid⟩ := Graph.error_of_walk hwalk
      unfold Graph.scheduledOperands at hid
      split at hid
      · cases hid
      · split at hid <;> cases hid

namespace Compiler

/-- An allocation of registers is that of the lifetimes in a schedule. -/
theorem allocate_cases (config : CompilerConfig) (g : Graph) :
    (∃ e, (allocate config g).1 = .error e ∧
      Clashless (.error e : Except CompileError Program)) ∨
      ∃ s, (allocate config g).1 = .ok (s, Allocation.ofIntervals s.intervals.toList) := by
  unfold allocate
  split
  · exact .inl ⟨_, rfl, fun _ _ _ h => nomatch h⟩
  · split
    · exact .inl ⟨_, rfl, fun _ _ _ h => nomatch h⟩
    · rename_i g' _
      have hclash := Schedule.clashless_ofGraph g'
      cases hs : Schedule.ofGraph g' with
      | error e =>
        rw [hs] at hclash
        exact .inl ⟨e, rfl, fun register first second h => hclash register first second (by
          cases h
          rfl)⟩
      | ok s => exact .inr ⟨s, rfl⟩

/-- Compilation meets no clash. -/
theorem clashless_compile (config : CompilerConfig) (g : Graph) :
    Clashless (compile config g).1 := by
  unfold compile
  rcases allocate_cases config g with ⟨e, he, hclash⟩ | ⟨s, hs⟩
  · rw [show allocate config g = (.error e, (allocate config g).2) from Prod.ext he rfl]
    exact hclash
  · rw [show allocate config g = (.ok (s, _), (allocate config g).2) from Prod.ext hs rfl]
    dsimp only
    rw [Allocation.verify_ofIntervals, ite_self]
    exact clashless_program _

end Compiler

namespace Allocation

/-- Every value has one register. -/
@[simp] theorem length_registers (values : List Interval) :
    (ofIntervals values).registers.length = values.length := by
  unfold ofIntervals
  rw [List.length_map, List.length_range]

end Allocation

/-- Register allocation is sound. Whatever the lifetimes of values are, every value has
one register, values that are needed at once have different ones, the check for clashes
passes, and all registers are below their number. Hence no graph is refused because of a
clash. -/
theorem allocation_sound (values : List Interval) :
    (Allocation.ofIntervals values).registers.length = values.length ∧
    (∀ (i j : Nat) (a b : Interval), values[i]? = some a → values[j]? = some b → i ≠ j →
      a.overlaps b = true → (Allocation.ofIntervals values).registers[i]? ≠
        (Allocation.ofIntervals values).registers[j]?) ∧
    Allocation.verify values (Allocation.ofIntervals values) = .ok () ∧
    (∀ register ∈ (Allocation.ofIntervals values).registers,
      register < (Allocation.ofIntervals values).count) ∧
    ∀ (config : CompilerConfig) (g : Graph) (register : Nat) (first second : NodeId),
      (Compiler.compile config g).1 ≠ .error (.registerAllocation register first second) := by
  refine ⟨Allocation.length_registers values, ?_, Allocation.verify_ofIntervals values, ?_, ?_⟩
  · exact fun i j a b ha hb hij hover => Allocation.registers_ne_of_overlaps ha hb hij hover
  · intro register hregister
    obtain ⟨number, hnumber⟩ := List.getElem?_of_mem hregister
    exact Allocation.register_lt_count hnumber
  · exact fun config g => Compiler.clashless_compile config g

/-- Three values that are needed at once and a later one, out of order. -/
def crowded : List Interval := [⟨4, 6, 3⟩, ⟨0, 5, 0⟩, ⟨1, 4, 1⟩, ⟨1, 4, 2⟩]

/-- Two of the sample values overlap, and they have different registers. -/
theorem allocation_sound_crowded :
    (⟨0, 5, 0⟩ : Interval).overlaps ⟨1, 4, 1⟩ = true ∧
    (Allocation.ofIntervals crowded).registers[1]? ≠
      (Allocation.ofIntervals crowded).registers[2]? :=
  ⟨by decide, (allocation_sound crowded).2.1 1 2 _ _ rfl rfl (by decide) (by decide)⟩

/-! ## No fewer registers would do -/

namespace Allocation

/-- A value is needed at an instruction: it is made there or before, and read later. -/
def NeededAt (p : Nat) (v : Interval) : Prop := v.start ≤ p ∧ p < v.stop

instance (p : Nat) : DecidablePred (NeededAt p) := fun _ => inferInstanceAs (Decidable (_ ∧ _))

/-- How many values are needed at an instruction. -/
def pressure (values : List Interval) (p : Nat) : Nat := values.countP (NeededAt p)

/-- Values that are needed at one instruction are needed at once. -/
theorem NeededAt.overlaps {p : Nat} {a b : Interval} (ha : NeededAt p a) (hb : NeededAt p b) :
    a.overlaps b = true := by
  unfold NeededAt at ha hb
  unfold Interval.overlaps
  rw [Bool.and_eq_true, decide_eq_true_eq, decide_eq_true_eq]
  omega

/-- Registers that pass the check are at any instruction no fewer than the values that
are needed there. -/
theorem pressure_le_card {values : List Interval} {a : Allocation}
    (hlength : a.registers.length = values.length) (hverify : verify values a = .ok ())
    (p : Nat) : pressure values p ≤ a.registers.toFinset.card := by
  let held := (values.zip a.registers).filter fun entry => NeededAt p entry.1
  have hcount : pressure values p = (held.map (·.2)).length := by
    have hvalues : values = (values.zip a.registers).map (·.1) :=
      (List.map_fst_zip (Nat.le_of_eq hlength.symm)).symm
    rw [List.length_map]
    unfold pressure
    conv_lhs => rw [hvalues]
    rw [List.countP_map, List.countP_eq_length_filter]
    rfl
  have hnodup : (held.map (·.2)).Nodup := by
    have hapart := (verify_eq_ok_iff.mp hverify).sublist
      (List.filter_sublist (p := fun entry => NeededAt p entry.1))
    rw [List.Nodup, List.pairwise_map]
    refine hapart.imp_of_mem fun hx hy hclash heq => hclash ⟨heq, ?_⟩
    exact NeededAt.overlaps (of_decide_eq_true (List.mem_filter.mp hx).2)
      (of_decide_eq_true (List.mem_filter.mp hy).2)
  rw [hcount, ← List.toFinset_card_of_nodup hnodup]
  refine Finset.card_le_card fun register hregister => ?_
  obtain ⟨entry, hentry, rfl⟩ := List.mem_map.mp (List.mem_toFinset.mp hregister)
  exact List.mem_toFinset.mpr (List.of_mem_zip (List.mem_filter.mp hentry).1).2

/-- No more values are needed at an instruction than there are registers. -/
theorem pressure_le_count (values : List Interval) (p : Nat) :
    pressure values p ≤ (ofIntervals values).count := by
  refine Nat.le_trans (pressure_le_card (length_registers values) (verify_ofIntervals values) p) ?_
  rw [← Finset.card_range (ofIntervals values).count]
  refine Finset.card_le_card fun register hregister => Finset.mem_range.mpr ?_
  obtain ⟨number, hnumber⟩ := List.getElem?_of_mem (List.mem_toFinset.mp hregister)
  exact register_lt_count hnumber

namespace Scan

/-- The registers in use belong to values that were taken, one to each. -/
def Serves (s : Scan) (taken : List Interval) : Prop :=
  ∃ live : List Interval, live.Sublist taken ∧ s.active.map (·.1) = live.map (·.stop)

/-- After registers are freed, those in use belong to values that are still needed. -/
theorem Serves.expire {s : Scan} {taken : List Interval} (h : s.Serves taken) (start : Nat) :
    ∃ live : List Interval, live.Sublist taken ∧
      (s.expire start).active.map (·.1) = live.map (·.stop) ∧ ∀ v ∈ live, start < v.stop := by
  obtain ⟨live, hsub, hends⟩ := h
  refine ⟨live.filter fun v => !decide (v.stop ≤ start), List.filter_sublist.trans hsub, ?_,
    fun v hv => ?_⟩
  · have hfilter := congrArg (List.filter fun stop => !decide (stop ≤ start)) hends
    rw [List.filter_map, List.filter_map] at hfilter
    exact hfilter
  · have := (List.mem_filter.mp hv).2
    simpa using this

/-- The value that takes a register is served. -/
theorem Serves.take {s : Scan} {taken : List Interval} (h : s.Serves taken) (v : Interval) :
    (s.take v).2.Serves (taken ++ [v]) := by
  obtain ⟨live, hsub, hends, -⟩ := h.expire v.start
  refine ⟨live ++ [v], hsub.append (List.Sublist.refl _), ?_⟩
  rw [active_take, List.map_append, List.map_append, hends]
  rfl

/-- A value takes a free register, or all registers are in use and it takes a new one. -/
theorem length_registers_take_cases (s : Scan) (v : Interval) :
    (s.take v).2.registers.length = s.registers.length ∨
      (s.take v).2.registers.length = (s.expire v.start).active.length + 1 := by
  have hexpire := (s.registers_expire v.start).length_eq
  unfold registers at hexpire ⊢
  unfold take
  dsimp only
  split
  · rename_i hfree
    rw [hfree] at hexpire
    left
    simp only [List.length_append, List.length_map, List.length_cons, List.length_nil]
      at hexpire ⊢
    omega
  · right
    simp only [List.length_append, List.length_map, List.length_cons, List.length_nil]

end Scan

/-- No scan of values in the order of their starts opens more registers than values are
needed at some instruction: where it opens one, all other registers serve values that
started before and are needed still. -/
theorem assign_le_pressure {all : List Interval} (values : List (Interval × Nat)) :
    ∀ {s : Scan} {taken : List Interval}, s.Full → s.Serves taken →
      (taken ++ values.map (·.1)).Pairwise (fun a b => a.start ≤ b.start) →
      (taken ++ values.map (·.1)).Perm all → (∀ v ∈ all, v.start < v.stop) →
      (∃ p, s.registers.length ≤ pressure all p) →
      ∀ entry ∈ assign s values, ∃ p, entry.2 < pressure all p := by
  induction values with
  | nil => exact fun _ _ _ _ _ _ entry hentry => (nomatch hentry)
  | cons value rest ih =>
    intro s taken hfull hserves hsorted hperm hproper hbound entry hentry
    obtain ⟨v, number⟩ := value
    have horder : taken ++ ((v, number) :: rest).map (·.1) = taken ++ [v] ++ rest.map (·.1) := by
      rw [List.map_cons, List.append_assoc]
      rfl
    rw [horder] at hsorted hperm
    have hbound' : ∃ p, (s.take v).2.registers.length ≤ pressure all p := by
      rcases s.length_registers_take_cases v with hsame | hnew
      · rwa [hsame]
      · obtain ⟨live, hsub, hends, hlater⟩ := hserves.expire v.start
        refine ⟨v.start, ?_⟩
        have hactive : (s.expire v.start).active.length = live.length := by
          have := congrArg List.length hends
          rwa [List.length_map, List.length_map] at this
        have hneeded : ∀ u ∈ live ++ [v], NeededAt v.start u := by
          intro u hu
          rcases List.mem_append.mp hu with hu | hu
          · have hstart := (List.pairwise_append.mp (List.pairwise_append.mp hsorted).1).2.2 u
              (hsub.subset hu) v (List.mem_singleton_self v)
            exact ⟨hstart, hlater u hu⟩
          · rw [List.mem_singleton.mp hu]
            refine ⟨Nat.le_refl _, hproper v (hperm.mem_iff.mp ?_)⟩
            simp
        calc (s.take v).2.registers.length
            = (live ++ [v]).length := by
              rw [hnew, hactive, List.length_append, List.length_singleton]
          _ = (live ++ [v]).countP (NeededAt v.start) :=
              (List.countP_eq_length.mpr fun u hu => decide_eq_true (hneeded u hu)).symm
          _ ≤ (taken ++ [v] ++ rest.map (·.1)).countP (NeededAt v.start) :=
              ((hsub.append (List.Sublist.refl [v])).trans
                (List.sublist_append_left _ _)).countP_le
          _ = pressure all v.start := hperm.countP_eq _
    simp only [assign, List.mem_cons] at hentry
    rcases hentry with rfl | hentry
    · obtain ⟨p, hp⟩ := hbound'
      refine ⟨p, Nat.lt_of_lt_of_le ((hfull.take v).below _ ?_) hp⟩
      unfold Scan.registers
      rw [Scan.active_take]
      simp
    · exact ih (hfull.take v) (hserves.take v) hsorted hperm hproper hbound' entry hentry

/-- The number of registers is zero, or one more than that of a register taken. -/
theorem count_cases (values : List Interval) :
    (ofIntervals values).count = 0 ∨
      ∃ entry ∈ assign {} (byStart values), (ofIntervals values).count = entry.2 + 1 := by
  have hfold : ∀ (entries : List (Nat × Nat)) (start : Nat),
      entries.foldl (fun count entry => max count (entry.2 + 1)) start = start ∨
        ∃ entry ∈ entries,
          entries.foldl (fun count entry => max count (entry.2 + 1)) start = entry.2 + 1 := by
    intro entries
    induction entries with
    | nil => exact fun start => .inl rfl
    | cons entry rest ih =>
      intro start
      rw [List.foldl_cons]
      rcases ih (max start (entry.2 + 1)) with hsame | ⟨other, hother, heq⟩
      · rw [hsame]
        rcases Nat.le_total (entry.2 + 1) start with hle | hle
        · exact .inl (Nat.max_eq_left hle)
        · exact .inr ⟨entry, List.mem_cons_self, Nat.max_eq_right hle⟩
      · exact .inr ⟨other, List.mem_cons_of_mem _ hother, heq⟩
  exact hfold _ 0

/-- There is an instruction at which all registers are needed. -/
theorem exists_count_le_pressure {values : List Interval}
    (hproper : ∀ v ∈ values, v.start < v.stop) :
    ∃ p, (ofIntervals values).count ≤ pressure values p := by
  have hperm : ((byStart values).map (·.1)).Perm values := by
    have h := (byStart_perm values).map (·.1)
    rwa [List.zipIdx_map_fst] at h
  have hsorted : ((byStart values).map (·.1)).Pairwise fun a b => a.start ≤ b.start :=
    List.pairwise_map.mpr (byStart_sorted values)
  rcases count_cases values with hzero | ⟨entry, hentry, hcount⟩
  · exact ⟨0, by omega⟩
  · have hserves : Scan.Serves {} [] := ⟨[], List.Sublist.refl _, rfl⟩
    obtain ⟨p, hp⟩ := assign_le_pressure (byStart values) Scan.full_empty hserves hsorted hperm
      hproper ⟨0, Nat.zero_le _⟩ entry hentry
    exact ⟨p, by omega⟩

end Allocation

/-- Register allocation is minimal. If every value is read after it is made, there are
as many registers as values are needed at the most crowded instruction, and all
registers of values that pass the check are at least as many. -/
theorem allocation_minimal (values : List Interval) (hproper : ∀ v ∈ values, v.start < v.stop) :
    IsGreatest (Set.range (Allocation.pressure values)) (Allocation.ofIntervals values).count ∧
    ∀ a : Allocation, a.registers.length = values.length →
      Allocation.verify values a = .ok () →
      (Allocation.ofIntervals values).count ≤ a.registers.toFinset.card := by
  obtain ⟨p, hp⟩ := Allocation.exists_count_le_pressure hproper
  refine ⟨⟨⟨p, Nat.le_antisymm (Allocation.pressure_le_count values p) hp⟩, ?_⟩, ?_⟩
  · rintro _ ⟨q, rfl⟩
    exact Allocation.pressure_le_count values q
  · intro a hlength hverify
    exact Nat.le_trans hp (Allocation.pressure_le_card hlength hverify p)

/-- The sample values need three registers, and no fewer would do. -/
theorem allocation_minimal_crowded :
    (∀ v ∈ crowded, v.start < v.stop) ∧ (Allocation.ofIntervals crowded).count = 3 ∧
    IsGreatest (Set.range (Allocation.pressure crowded)) (Allocation.ofIntervals crowded).count ∧
    ∀ a : Allocation, a.registers.length = crowded.length →
      Allocation.verify crowded a = .ok () →
      (Allocation.ofIntervals crowded).count ≤ a.registers.toFinset.card :=
  ⟨by decide, by cbv, allocation_minimal crowded (by decide)⟩

end LaneGraph
