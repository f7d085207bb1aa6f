import LaneGraph.Machine.Step

/-!
# What stores leave in streams

An element that was stored is found in its place until another store covers
some of its bytes. Elements that lie apart keep what was stored in each of them,
in whichever order that happened.
-/

namespace LaneGraph

/-- The bytes of a pattern are as many as the encoding has. -/
theorem Encoding.length_encode (e : Encoding) (bits : UInt32) :
    (e.encode bits).length = e.size := by
  have hbytes : ∀ count n, (bytesOfNat count n).length = count := by
    intro count
    induction count with
    | zero => exact fun _ => rfl
    | succ count ih => exact fun n => congrArg (· + 1) (ih (n / 256))
  exact hbytes e.size (e.stored bits)

/-- Writing bytes keeps the length of the buffer. -/
@[simp] theorem size_writeBytes (buffer : Array UInt8) (position : Nat) (bytes : List UInt8) :
    (writeBytes buffer position bytes).size = buffer.size := by
  induction bytes generalizing buffer position with
  | nil => rfl
  | cons b rest ih => rw [writeBytes, ih, Array.size_setIfInBounds]

/-- Bytes that fit into the buffer are found where they were written, and all
others stay. -/
theorem getElem?_writeBytes (buffer : Array UInt8) (position : Nat) (bytes : List UInt8)
    (hfits : position + bytes.length ≤ buffer.size) (k : Nat) :
    (writeBytes buffer position bytes)[k]? =
      if position ≤ k ∧ k < position + bytes.length then bytes[k - position]? else buffer[k]? := by
  induction bytes generalizing buffer position with
  | nil =>
    rw [writeBytes, if_neg (by simp only [List.length_nil]; omega)]
  | cons b rest ih =>
    rw [List.length_cons] at hfits
    rw [writeBytes, ih _ _ (by rw [Array.size_setIfInBounds]; omega), List.length_cons,
      Array.getElem?_setIfInBounds]
    rcases Nat.lt_trichotomy k position with hlt | rfl | hgt
    · rw [if_neg (by omega), if_neg (by omega), if_neg (by omega)]
    · rw [if_neg (by omega), if_pos rfl, if_pos (by omega), if_pos (by omega), Nat.sub_self,
        List.getElem?_cons_zero]
    · by_cases hin : k < position + 1 + rest.length
      · rw [if_pos (by omega), if_pos (by omega),
          show k - position = (k - (position + 1)) + 1 by omega, List.getElem?_cons_succ]
      · rw [if_neg (by omega), if_neg (by omega), if_neg (by omega)]

/-- Bytes that fit into the buffer are read back. -/
theorem extract_writeBytes_self (buffer : Array UInt8) (position : Nat) (bytes : List UInt8)
    (hfits : position + bytes.length ≤ buffer.size) :
    ((writeBytes buffer position bytes).extract position (position + bytes.length)).toList =
      bytes := by
  apply List.ext_getElem?
  intro k
  rw [Array.getElem?_toList, Array.getElem?_extract, size_writeBytes,
    Nat.min_eq_left hfits]
  split
  · rw [getElem?_writeBytes _ _ _ hfits, if_pos (by omega), Nat.add_sub_cancel_left]
  · exact (List.getElem?_eq_none (by omega)).symm

/-- Bytes that lie apart from those written stay. -/
theorem extract_writeBytes_of_apart (buffer : Array UInt8) (position : Nat) (bytes : List UInt8)
    (hfits : position + bytes.length ≤ buffer.size) (first size : Nat)
    (hapart : first + size ≤ position ∨ position + bytes.length ≤ first) :
    (writeBytes buffer position bytes).extract first (first + size) =
      buffer.extract first (first + size) := by
  apply Array.ext_getElem?
  intro k
  rw [Array.getElem?_extract, Array.getElem?_extract, size_writeBytes]
  split
  · rw [getElem?_writeBytes _ _ _ hfits, if_neg (by omega)]
  · rfl

namespace ElementView

/-- The elements of two instances share no byte of a stream. -/
def Apart (v : ElementView) (i : Nat) (w : ElementView) (j : Nat) : Prop :=
  v.position i + v.encoding.size ≤ w.position j ∨ w.position j + w.encoding.size ≤ v.position i

instance (v : ElementView) (i : Nat) (w : ElementView) (j : Nat) : Decidable (v.Apart i w j) :=
  inferInstanceAs (Decidable (_ ∨ _))

/-- The element of an instance has the bytes of a pattern. -/
def Holds (v : ElementView) (s : Stream) (i : Nat) (bits : UInt32) : Prop :=
  (s.bytes.extract (s.start + v.position i) (s.start + v.position i + v.encoding.size)).toList =
    v.encoding.encode bits

instance (v : ElementView) (s : Stream) (i : Nat) (bits : UInt32) : Decidable (v.Holds s i bits) :=
  inferInstanceAs (Decidable (_ = _))

/-- Writing an element changes neither the length nor the start of a stream. -/
theorem length_write (v : ElementView) (s : Stream) (i : Nat) (bits : UInt32) :
    (v.write s i bits).length = s.length ∧ (v.write s i bits).start = s.start := by
  unfold Stream.length write
  dsimp only
  rw [size_writeBytes]
  exact ⟨rfl, rfl⟩

/-- The element of an instance lies within the buffer of a stream that sees it. -/
theorem end_le_size {v : ElementView} {s : Stream} {i : Nat} (bits : UInt32)
    (h : v.inBounds s.length i = true) :
    s.start + v.position i + (v.encoding.encode bits).length ≤ s.bytes.size := by
  unfold inBounds Stream.length at h
  rw [decide_eq_true_eq] at h
  have hsize : 0 < v.encoding.size := by cases v.encoding <;> decide
  rw [Encoding.length_encode]
  omega

/-- An element that was written has the bytes of its pattern. -/
theorem holds_write {v : ElementView} {s : Stream} {i : Nat} (bits : UInt32)
    (h : v.inBounds s.length i = true) : v.Holds (v.write s i bits) i bits := by
  have hread := extract_writeBytes_self s.bytes (s.start + v.position i) (v.encoding.encode bits)
    (end_le_size bits h)
  rw [Encoding.length_encode] at hread
  exact hread

/-- Writing an element keeps those that lie apart from it. -/
theorem holds_write_of_apart {v w : ElementView} {s : Stream} {i j : Nat} {bits : UInt32}
    (bits' : UInt32) (hj : w.inBounds s.length j = true) (hapart : v.Apart i w j)
    (h : v.Holds s i bits) : v.Holds (w.write s j bits') i bits := by
  have hkeep := extract_writeBytes_of_apart s.bytes (s.start + w.position j)
    (w.encoding.encode bits') (end_le_size bits' hj) (s.start + v.position i) v.encoding.size
    (by
      rw [Encoding.length_encode]
      rcases hapart with h | h
      · exact .inl (by omega)
      · exact .inr (by omega))
  unfold Holds write
  dsimp only
  rw [hkeep]
  exact h

/-- The element of one of the instances is in bounds if all are. -/
theorem inBounds_of_all {v : ElementView} {length count : Nat}
    (h : v.allInBounds length count = true) {i : Nat} (hi : i < count) :
    v.inBounds length i = true := by
  unfold allInBounds at h
  rw [List.all_eq_true] at h
  exact h i (List.mem_range.mpr hi)

end ElementView

/-- Storing for one more instance writes its element last. -/
theorem storeAll_succ (v : ElementView) (count : Nat) (bits : Nat → UInt32) (s : Stream) :
    storeAll v (count + 1) bits s = v.write (storeAll v count bits s) count (bits count) := by
  unfold storeAll
  rw [List.range_succ, List.foldl_append]
  rfl

/-- Storing changes neither the length nor the start of a stream. -/
theorem length_storeAll (v : ElementView) (count : Nat) (bits : Nat → UInt32) (s : Stream) :
    (storeAll v count bits s).length = s.length ∧ (storeAll v count bits s).start = s.start := by
  induction count with
  | zero => exact ⟨rfl, rfl⟩
  | succ count ih =>
    rw [storeAll_succ]
    have h := v.length_write (storeAll v count bits s) count (bits count)
    exact ⟨h.1.trans ih.1, h.2.trans ih.2⟩

/-- Storing for all instances keeps an element that lies apart from theirs. -/
theorem storeAll_keeps {v w : ElementView} {s : Stream} {i : Nat} {bits : UInt32} (count : Nat)
    (values : Nat → UInt32) (hbounds : ∀ j < count, w.inBounds s.length j = true)
    (hapart : ∀ j < count, v.Apart i w j) (h : v.Holds s i bits) :
    v.Holds (storeAll w count values s) i bits := by
  induction count with
  | zero => exact h
  | succ count ih =>
    rw [storeAll_succ]
    refine ElementView.holds_write_of_apart _ ?_ (hapart count (Nat.lt_succ_self _))
      (ih (fun j hj => hbounds j (by omega)) (fun j hj => hapart j (by omega)))
    rw [(length_storeAll w count values s).1]
    exact hbounds count (Nat.lt_succ_self _)

/-- After storing for all instances each element has its pattern, if the elements
lie apart. -/
theorem storeAll_holds {v : ElementView} {s : Stream} (count : Nat) (values : Nat → UInt32)
    (hbounds : ∀ j < count, v.inBounds s.length j = true)
    (hapart : ∀ i < count, ∀ j < count, i ≠ j → v.Apart i v j) :
    ∀ i < count, v.Holds (storeAll v count values s) i (values i) := by
  induction count with
  | zero => intro i hi; omega
  | succ count ih =>
    intro i hi
    have hlast : v.inBounds (storeAll v count values s).length count = true := by
      rw [(length_storeAll v count values s).1]
      exact hbounds count (Nat.lt_succ_self _)
    rw [storeAll_succ]
    rcases Nat.lt_succ_iff_lt_or_eq.mp hi with hlt | rfl
    · exact ElementView.holds_write_of_apart _ hlast
        (hapart i hi count (Nat.lt_succ_self _) (by omega))
        (ih (fun j hj => hbounds j (by omega))
          (fun a ha b hb => hapart a (by omega) b (by omega)) i hlt)
    · exact ElementView.holds_write _ hlast

namespace Binding.BoundOutput

/-- The elements that two slots have for two instances share no byte. -/
def Apart (a : BoundOutput) (i : Nat) (b : BoundOutput) (j : Nat) : Prop :=
  a.stream = b.stream → a.view.Apart i b.view j

instance (a : BoundOutput) (i : Nat) (b : BoundOutput) (j : Nat) : Decidable (a.Apart i b j) :=
  inferInstanceAs (Decidable (_ → _))

/-- The element that a slot has for an instance holds a pattern. -/
def Holds (a : BoundOutput) (streams : List Stream) (i : Nat) (bits : UInt32) : Prop :=
  ∃ s, streams[a.stream]? = some s ∧ a.view.Holds s i bits

end Binding.BoundOutput

/-- All elements that the slots of an execution have for its instances lie
apart. -/
def Context.OutputsApart (c : Context) : Prop :=
  ∀ (p q : Nat) (a b : Binding.BoundOutput) (i j : Nat), c.outputs[p]? = some (some a) →
    c.outputs[q]? = some (some b) → i < c.instances → j < c.instances → ¬(p = q ∧ i = j) →
    a.Apart i b j

namespace Context

variable {batches : Nat} {c : Context} {st st' : State batches} {offset : Nat} {slot : UInt32}
  {bits : Nat → UInt32}

/-- A store to a slot with a stream replaces that stream. -/
theorem store_eq_ok (h : c.store st offset slot bits = .ok st') :
    (c.outputs[slot.toNat]? = some none ∧ st' = st) ∨
      ∃ b s, c.outputs[slot.toNat]? = some (some b) ∧ st.outputs[b.stream]? = some s ∧
        b.view.allInBounds s.length c.instances = true ∧
        st' = { st with
          outputs := st.outputs.setIfInBounds b.stream (storeAll b.view c.instances bits s) } := by
  unfold store at h
  split at h
  · cases h
  · rename_i hnone
    cases h
    exact .inl ⟨hnone, rfl⟩
  · rename_i b hb
    split at h
    · cases h
    · rename_i s hs
      split at h
      · rename_i hall
        cases h
        exact .inr ⟨b, s, hb, hs, hall, rfl⟩
      · cases h

/-- A store leaves the registers as they are. -/
theorem registers_store (h : c.store st offset slot bits = .ok st') :
    st'.registers = st.registers := by
  rcases store_eq_ok h with ⟨-, rfl⟩ | ⟨b, s, -, -, -, rfl⟩ <;> rfl

/-- A store keeps the elements that lie apart from those of its slot. -/
theorem store_keeps {a : Binding.BoundOutput} {i : Nat} {w : UInt32}
    (h : c.store st offset slot bits = .ok st')
    (hapart : ∀ b, c.outputs[slot.toNat]? = some (some b) → ∀ j < c.instances, a.Apart i b j)
    (ha : a.Holds st.outputs.toList i w) : a.Holds st'.outputs.toList i w := by
  rcases store_eq_ok h with ⟨-, rfl⟩ | ⟨b, s, hb, hs, hall, rfl⟩
  · exact ha
  · obtain ⟨s', hs', hholds⟩ := ha
    rw [Array.getElem?_toList] at hs'
    by_cases heq : b.stream = a.stream
    · rw [← heq, hs] at hs'
      cases hs'
      refine ⟨storeAll b.view c.instances bits s, ?_, ?_⟩
      · rw [Array.getElem?_toList, Array.getElem?_setIfInBounds, if_pos heq,
          if_pos (Array.getElem?_eq_some_iff.mp hs).1]
      · exact storeAll_keeps c.instances bits
          (fun j hj => ElementView.inBounds_of_all hall hj)
          (fun j hj => hapart b hb j hj heq.symm) hholds
    · refine ⟨s', ?_, hholds⟩
      rw [Array.getElem?_toList, Array.getElem?_setIfInBounds, if_neg heq]
      exact hs'

/-- After a store every element of its slot has its pattern. -/
theorem store_holds {b : Binding.BoundOutput} (h : c.store st offset slot bits = .ok st')
    (hb : c.outputs[slot.toNat]? = some (some b)) (hapart : c.OutputsApart) :
    ∀ i < c.instances, b.Holds st'.outputs.toList i (bits i) := by
  intro i hi
  rcases store_eq_ok h with ⟨hnone, -⟩ | ⟨b', s, hb', hs, hall, rfl⟩
  · rw [hb] at hnone
    cases hnone
  · rw [hb] at hb'
    cases hb'
    refine ⟨storeAll b.view c.instances bits s, ?_, ?_⟩
    · rw [Array.getElem?_toList, Array.getElem?_setIfInBounds, if_pos rfl,
        if_pos (Array.getElem?_eq_some_iff.mp hs).1]
    · exact storeAll_holds c.instances bits (fun j hj => ElementView.inBounds_of_all hall hj)
        (fun p hp q hq hne => hapart _ _ b b p q hb hb hp hq (fun h => hne h.2) rfl) i hi

end Context

end LaneGraph
