import LaneGraph.Schedule.Allocation
import Mathlib.Data.List.Nodup
import Mathlib.Data.List.Pairwise
import Mathlib.Data.List.Perm.Basic

/-!
# Register allocation is sound

The registers in use and the free ones are at all times the first few registers,
each once, so a register that is neither is the next one. A value keeps its
register until it was read last, hence values that are needed at once never
share a register.
-/

namespace LaneGraph.Allocation

namespace Scan

/-- The registers in use and the free ones. -/
def registers (s : Scan) : List Nat := s.active.map (·.2) ++ s.free

/-- The registers known to a scan are the first ones, each once. -/
structure Full (s : Scan) : Prop where
  nodup : s.registers.Nodup
  below : ∀ r ∈ s.registers, r < s.registers.length

/-- Fullness depends on the registers up to order. -/
theorem Full.of_perm {s t : Scan} (h : s.Full) (hp : t.registers.Perm s.registers) : t.Full where
  nodup := hp.nodup_iff.mpr h.nodup
  below r hr := hp.length_eq ▸ h.below r (hp.mem_iff.mp hr)

/-- Freeing moves registers and loses none. -/
theorem registers_expire (s : Scan) (start : Nat) :
    (s.expire start).registers.Perm s.registers := by
  have hsplit : (s.active.filter (fun v => !decide (v.1 ≤ start)) ++
      s.active.filter (fun v => decide (v.1 ≤ start))).Perm s.active := by
    have h := List.filter_append_perm (fun v : Nat × Nat => !decide (v.1 ≤ start)) s.active
    simpa only [Bool.not_not] using h
  have hmap := (hsplit.map (·.2)).append_right s.free
  rw [List.map_append, List.append_assoc] at hmap
  refine List.Perm.trans ?_ hmap
  unfold registers expire
  exact (((List.reverse_perm _).append_right s.free).append_left _)

/-- A value in use stays so until a value starts at its end or later. -/
theorem mem_active_expire {s : Scan} {start : Nat} {v : Nat × Nat} (hv : v ∈ s.active)
    (hlive : start < v.1) : v ∈ (s.expire start).active := by
  unfold expire
  rw [List.mem_filter]
  exact ⟨hv, by simpa using hlive⟩

/-- Taking a register puts it in use for the new value. -/
theorem active_take (s : Scan) (v : Interval) :
    (s.take v).2.active = (s.expire v.start).active ++ [(v.stop, (s.take v).1)] := by
  unfold take
  dsimp only
  split <;> rfl

/-- Taking a register keeps the registers the first ones. -/
theorem Full.take {s : Scan} (h : s.Full) (v : Interval) : (s.take v).2.Full := by
  have hx := h.of_perm (s.registers_expire v.start)
  unfold Scan.take
  dsimp only
  split
  · rename_i register rest hfree
    refine hx.of_perm ?_
    unfold registers
    rw [hfree, List.map_append, List.append_assoc]
    exact List.Perm.refl _
  · rename_i hfree
    have hregs : (s.expire v.start).registers = (s.expire v.start).active.map (·.2) := by
      unfold registers
      rw [hfree, List.append_nil]
    have hnodup := hx.nodup
    have hbelow := hx.below
    rw [hregs] at hnodup hbelow
    rw [List.length_map] at hbelow
    have hnew : Scan.registers ⟨(s.expire v.start).active ++
        [(v.stop, (s.expire v.start).active.length)], []⟩ =
        (s.expire v.start).active.map (·.2) ++ [(s.expire v.start).active.length] := by
      unfold registers
      rw [List.append_nil, List.map_append]
      rfl
    constructor
    · rw [hnew, List.nodup_append]
      refine ⟨hnodup, List.nodup_singleton _, ?_⟩
      intro a ha b hb heq
      rw [List.mem_singleton] at hb
      have := hbelow a ha
      omega
    · rw [hnew]
      intro r hr
      rw [List.length_append, List.length_map, List.length_singleton]
      rcases List.mem_append.mp hr with hr | hr
      · have := hbelow r hr
        omega
      · rw [List.mem_singleton] at hr
        omega

/-- The register taken is not in use. -/
theorem Full.take_fresh {s : Scan} (h : s.Full) (v : Interval) {w : Nat × Nat}
    (hw : w ∈ (s.expire v.start).active) : (s.take v).1 ≠ w.2 := by
  have hn := (h.take v).nodup
  unfold registers at hn
  rw [active_take, List.map_append, List.append_assoc, List.nodup_append] at hn
  intro heq
  refine hn.2.2 w.2 (List.mem_map_of_mem hw) (s.take v).1 ?_ heq.symm
  simp

/-- A scan without values is full. -/
theorem full_empty : Full {} := ⟨List.nodup_nil, fun _ h => (nomatch h)⟩

end Scan

/-- A value with its number and the entry that gives it a register. -/
abbrev Placed := (Interval × Nat) × (Nat × Nat)

/-- Two values do not share a register while both are needed. -/
def Apart (a b : Placed) : Prop := a.1.1.overlaps b.1.1 = true → a.2.2 ≠ b.2.2

/-- Being needed at once does not depend on the order of the values. -/
theorem overlaps_comm (a b : Interval) : a.overlaps b = b.overlaps a := by
  unfold Interval.overlaps
  rw [Bool.and_comm]

instance : Std.Symm Apart := ⟨fun _ _ h hover heq => h (overlaps_comm _ _ ▸ hover) heq.symm⟩

/-- Every value gets one entry, which carries its number. -/
theorem assign_numbers (s : Scan) (values : List (Interval × Nat)) :
    (assign s values).map (·.1) = values.map (·.2) := by
  induction values generalizing s with
  | nil => rfl
  | cons value rest ih =>
    simp only [assign, List.map_cons]
    rw [ih]

/-- As many entries as values. -/
theorem length_assign (s : Scan) (values : List (Interval × Nat)) :
    (assign s values).length = values.length := by
  have h := congrArg List.length (assign_numbers s values)
  simpa only [List.length_map] using h

/-- The entry of a value stands at the place of the value. -/
theorem number_of_mem_zip {s : Scan} {values : List (Interval × Nat)} {p : Placed}
    (hp : p ∈ values.zip (assign s values)) : p.2.1 = p.1.2 := by
  induction values generalizing s with
  | nil => cases hp
  | cons value rest ih =>
    simp only [assign, List.zip_cons_cons, List.mem_cons] at hp
    rcases hp with rfl | hp
    · rfl
    · exact ih hp

/-- Values taken in the order of their starts are pairwise apart, and none of
them takes the register of a value that is still in use when it starts. -/
theorem assign_apart (s : Scan) (hs : s.Full) (values : List (Interval × Nat))
    (hsorted : values.Pairwise fun a b => a.1.start ≤ b.1.start) :
    (values.zip (assign s values)).Pairwise Apart ∧
      ∀ u ∈ s.active, ∀ p ∈ values.zip (assign s values), p.1.1.start < u.1 → p.2.2 ≠ u.2 := by
  induction values generalizing s with
  | nil => exact ⟨List.Pairwise.nil, fun _ _ _ hp => (nomatch hp)⟩
  | cons value rest ih =>
    obtain ⟨hfirst, hrest⟩ := List.pairwise_cons.mp hsorted
    obtain ⟨hpair, hactive⟩ := ih (s.take value.1).2 (hs.take value.1) hrest
    simp only [assign, List.zip_cons_cons]
    constructor
    · rw [List.pairwise_cons]
      refine ⟨fun p hp hover => ?_, hpair⟩
      have hin : (value.1.stop, (s.take value.1).1) ∈ (s.take value.1).2.active := by
        rw [Scan.active_take]
        simp
      unfold Interval.overlaps at hover
      simp only [Bool.and_eq_true, decide_eq_true_eq] at hover
      exact (hactive _ hin p hp hover.2).symm
    · intro u hu p hp hlive
      rcases List.mem_cons.mp hp with rfl | hp
      · exact hs.take_fresh value.1 (Scan.mem_active_expire hu hlive)
      · have hstart := hfirst p.1 (List.of_mem_zip hp).1
        refine hactive u ?_ p hp hlive
        rw [Scan.active_take]
        exact List.mem_append_left _ (Scan.mem_active_expire hu (by omega))

/-- The values are taken in the order of their starts. -/
theorem byStart_sorted (values : List Interval) :
    (byStart values).Pairwise fun a b => a.1.start ≤ b.1.start := by
  have h : (byStart values).Pairwise fun a b => decide (a.1.start ≤ b.1.start) = true :=
    List.pairwise_mergeSort
      (fun a b c h₁ h₂ => by
        rw [decide_eq_true_eq] at h₁ h₂ ⊢
        omega)
      (fun a b => by
        rw [Bool.or_eq_true, decide_eq_true_eq, decide_eq_true_eq]
        omega)
      values.zipIdx
  exact h.imp fun hle => by rwa [decide_eq_true_eq] at hle

/-- The values are taken with their numbers, each once. -/
theorem byStart_perm (values : List Interval) : (byStart values).Perm values.zipIdx :=
  List.mergeSort_perm _ _

/-- Values whose starts ascend are in order already. The kernel evaluates this form on
fixed values, where the sort itself does not unfold. -/
theorem byStart_eq : byStart = fun values =>
    if values.zipIdx.Pairwise fun a b => a.1.start ≤ b.1.start then values.zipIdx
    else values.zipIdx.mergeSort fun a b => a.1.start ≤ b.1.start := by
  funext values
  unfold byStart
  split
  · rename_i hsorted
    exact List.mergeSort_of_pairwise (hsorted.imp fun h => decide_eq_true h)
  · rfl

/-- The values in order of their starts with the entries that they get. -/
def placed (values : List Interval) : List Placed :=
  (byStart values).zip (assign {} (byStart values))

/-- Every value is among those placed. -/
theorem exists_placed {values : List Interval} {number : Nat} {value : Interval}
    (h : values[number]? = some value) :
    ∃ register, ((value, number), (number, register)) ∈ placed values := by
  have hin : (value, number) ∈ byStart values := by
    rw [(byStart_perm values).mem_iff, List.mem_zipIdx_iff_getElem?]
    exact h
  obtain ⟨i, hi, hget⟩ := List.getElem_of_mem hin
  have hlen : i < (assign {} (byStart values)).length := by rwa [length_assign]
  have hz : i < (placed values).length := by
    unfold placed
    rw [List.length_zip]
    omega
  have hmem : ((byStart values)[i], (assign {} (byStart values))[i]) ∈ placed values := by
    have := List.getElem_mem hz
    rwa [show (placed values)[i] = _ from List.getElem_zip] at this
  have hnum := number_of_mem_zip hmem
  rw [hget] at hmem hnum
  exact ⟨(assign {} (byStart values))[i].2, by
    rwa [show (number, (assign {} (byStart values))[i].2) =
      (assign {} (byStart values))[i] from Prod.ext hnum.symm rfl]⟩

/-- Numbers are given once. -/
theorem nodup_numbers (values : List Interval) :
    ((assign {} (byStart values)).map (·.1)).Nodup := by
  rw [assign_numbers, ((byStart_perm values).map (·.2)).nodup_iff, List.zipIdx_map_snd]
  exact List.nodup_range'

/-- Looking up a number gives the register of its entry. -/
theorem lookup_of_mem {entries : List (Nat × Nat)} (hn : (entries.map (·.1)).Nodup)
    {number register : Nat} (h : (number, register) ∈ entries) :
    entries.lookup number = some register := by
  induction entries with
  | nil => cases h
  | cons entry rest ih =>
    rw [List.map_cons, List.nodup_cons] at hn
    rcases List.mem_cons.mp h with rfl | h
    · exact List.lookup_cons_self
    · have hne : (number == entry.1) = false := by
        rw [beq_eq_false_iff_ne]
        intro heq
        exact hn.1 (heq ▸ List.mem_map_of_mem (f := (·.1)) h)
      rw [List.lookup_cons, hne]
      exact ih hn.2 h

/-- The register of a value is that of the entry it was placed with. -/
theorem register_of_placed {values : List Interval} {p : Placed} (hp : p ∈ placed values) :
    (ofIntervals values).registers[p.1.2]? = some p.2.2 := by
  have hnum := number_of_mem_zip hp
  have hmem := List.of_mem_zip hp
  have hin : p.1.2 < values.length := by
    have hv := (byStart_perm values).mem_iff.mp hmem.1
    rw [List.mem_zipIdx_iff_getElem?] at hv
    exact (List.getElem?_eq_some_iff.mp hv).1
  have hlook := lookup_of_mem (nodup_numbers values)
    (show (p.1.2, p.2.2) ∈ assign {} (byStart values) from hnum ▸ hmem.2)
  unfold ofIntervals
  dsimp only
  rw [List.getElem?_map, List.getElem?_range hin, Option.map_some, hlook]
  rfl

/-- Every value has a register. -/
theorem exists_register {values : List Interval} {number : Nat} {value : Interval}
    (h : values[number]? = some value) :
    ∃ register, (ofIntervals values).registers[number]? = some register := by
  obtain ⟨register, hp⟩ := exists_placed h
  exact ⟨register, register_of_placed hp⟩

/-- Two values that are needed at once have different registers. -/
theorem registers_ne_of_overlaps {values : List Interval} {i j : Nat} {a b : Interval}
    (ha : values[i]? = some a) (hb : values[j]? = some b) (hij : i ≠ j)
    (hover : a.overlaps b = true) :
    (ofIntervals values).registers[i]? ≠ (ofIntervals values).registers[j]? := by
  obtain ⟨r, hp⟩ := exists_placed ha
  obtain ⟨t, hq⟩ := exists_placed hb
  have hpair := (assign_apart {} Scan.full_empty (byStart values) (byStart_sorted values)).1
  have hapart : Apart ((a, i), (i, r)) ((b, j), (j, t)) :=
    hpair.forall hp hq fun heq => hij (congrArg (·.1.2) heq)
  rw [register_of_placed hp, register_of_placed hq]
  intro heq
  exact hapart hover (Option.some.inj heq)

/-- A value takes one register more at most. -/
theorem Scan.length_registers_take (s : Scan) (v : Interval) :
    (s.take v).2.registers.length ≤ s.registers.length + 1 := by
  have hexpire := (s.registers_expire v.start).length_eq
  unfold Scan.take
  dsimp only
  split
  · rename_i register rest hfree
    unfold Scan.registers at hexpire ⊢
    rw [hfree] at hexpire
    simp only [List.length_append, List.length_map, List.length_cons, List.length_nil]
      at hexpire ⊢
    omega
  · rename_i hfree
    unfold Scan.registers at hexpire ⊢
    rw [hfree] at hexpire
    simp only [List.length_append, List.length_map, List.length_cons, List.length_nil]
      at hexpire ⊢
    omega

/-- No more registers are taken than there are values. -/
theorem assign_lt {s : Scan} (hs : s.Full) (values : List (Interval × Nat)) :
    ∀ entry ∈ assign s values, entry.2 < s.registers.length + values.length := by
  induction values generalizing s with
  | nil => exact fun entry h => (nomatch h)
  | cons value rest ih =>
    have hlength := s.length_registers_take value.1
    intro entry hentry
    rw [List.length_cons]
    simp only [assign, List.mem_cons] at hentry
    rcases hentry with rfl | hentry
    · have hin : (s.take value.1).1 ∈ (s.take value.1).2.registers := by
        unfold Scan.registers
        rw [Scan.active_take]
        simp
      have hlt := (hs.take value.1).below _ hin
      dsimp only
      omega
    · have hlt := ih (hs.take value.1) entry hentry
      omega

/-- The register of a value is below the number of values. -/
theorem register_lt {values : List Interval} {number register : Nat}
    (h : (ofIntervals values).registers[number]? = some register) :
    register < values.length := by
  have hnumber : number < values.length := by
    have hlt := (List.getElem?_eq_some_iff.mp h).1
    unfold ofIntervals at hlt
    simpa only [List.length_map, List.length_range] using hlt
  obtain ⟨r, hp⟩ := exists_placed (List.getElem?_eq_getElem hnumber)
  have hr := register_of_placed hp
  rw [h] at hr
  cases hr
  have hlt := assign_lt Scan.full_empty (byStart values) _ (List.of_mem_zip hp).2
  have hlength : (byStart values).length = values.length := by
    rw [(byStart_perm values).length_eq, List.length_zipIdx]
  unfold Scan.registers at hlt
  simpa only [List.map_nil, List.append_nil, List.length_nil, Nat.zero_add, hlength] using hlt

/-- There is no clash if and only if no two values share a register while both are
needed. -/
theorem firstClash?_eq_none_iff {values : List (Interval × Nat)} :
    firstClash? values = none ↔
      values.Pairwise fun a b => ¬(a.2 = b.2 ∧ a.1.overlaps b.1 = true) := by
  induction values with
  | nil => exact ⟨fun _ => List.Pairwise.nil, fun _ => rfl⟩
  | cons value rest ih =>
    have hnone : clash? value rest = none ↔
        ∀ other ∈ rest, ¬(value.2 = other.2 ∧ value.1.overlaps other.1 = true) := by
      simp only [clash?, Option.map_eq_none_iff, List.find?_eq_none, Bool.and_eq_true,
        decide_eq_true_eq]
    rw [List.pairwise_cons, ← hnone, ← ih, firstClash?]
    cases clash? value rest with
    | none => exact ⟨fun h => ⟨rfl, h⟩, fun h => h.2⟩
    | some e => exact ⟨fun h => (nomatch h), fun h => (nomatch h.1)⟩

/-- Registers pass the check if and only if no two values share one while both are
needed. -/
theorem verify_eq_ok_iff {values : List Interval} {a : Allocation} :
    verify values a = .ok () ↔ (values.zip a.registers).Pairwise
      fun x y => ¬(x.2 = y.2 ∧ x.1.overlaps y.1 = true) := by
  rw [← firstClash?_eq_none_iff, verify]
  cases firstClash? (values.zip a.registers) with
  | none => exact ⟨fun _ => rfl, fun _ => rfl⟩
  | some e => exact ⟨fun h => (nomatch h), fun h => (nomatch h)⟩

/-- The registers that values are given pass the check. -/
theorem verify_ofIntervals (values : List Interval) :
    verify values (ofIntervals values) = .ok () := by
  rw [verify_eq_ok_iff, List.pairwise_iff_getElem]
  rintro i j hi hj hij ⟨heq, hover⟩
  rw [List.length_zip] at hi hj
  rw [List.getElem_zip, List.getElem_zip] at heq hover
  refine registers_ne_of_overlaps (List.getElem?_eq_getElem (by omega))
    (List.getElem?_eq_getElem (by omega)) (by omega) hover ?_
  rw [List.getElem?_eq_getElem (by omega), List.getElem?_eq_getElem (by omega)]
  exact congrArg some heq

end LaneGraph.Allocation
