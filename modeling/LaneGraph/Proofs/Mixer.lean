import LaneGraph.Word.Fingerprint
import Mathlib

/-!
# Hashes keep seeds and indices apart

Mixing is undone one step at a time. A word whose own upper bits were xored onto the
lower ones is known from the top down: two such words with the same image differ by a
word that is its own shift, which only zero is. A product with an odd number is
undone by the inverse of that number among the 64-bit words. Since the index is mixed
before the seed is xored onto it, the hash of a pair determines each of the two once
the other is known.
-/

namespace LaneGraph.Mixer

/-- Only zero is its own shift to the right. -/
theorem eq_zero_of_shiftRight_eq {d k : UInt64} (hk : k.toNat % 64 ≠ 0) (h : d >>> k = d) :
    d = 0 := by
  have hdiv : d.toNat / 2 ^ (k.toNat % 64) = d.toNat := by
    rw [← Nat.shiftRight_eq_div_pow, ← UInt64.toNat_shiftRight, h]
  have hzero : d.toNat = 0 := by
    by_contra hne
    have hless := Nat.div_lt_self (Nat.pos_of_ne_zero hne) (Nat.one_lt_two_pow hk)
    omega
  exact UInt64.toNat_inj.mp hzero

/-- Xoring the upper bits of a word onto its lower ones loses nothing. -/
theorem xorShift_injective {k : UInt64} (hk : k.toNat % 64 ≠ 0) :
    Function.Injective fun z : UInt64 => z ^^^ (z >>> k) := by
  intro a b h
  have hshift : (a ^^^ b) >>> k = a ^^^ b := by
    calc (a ^^^ b) >>> k
        = a ^^^ (a ^^^ (a >>> k)) ^^^ (b >>> k) := by
          rw [UInt64.shiftRight_xor, ← UInt64.xor_assoc a a, UInt64.xor_self, UInt64.zero_xor]
      _ = a ^^^ (b ^^^ (b >>> k)) ^^^ (b >>> k) := by rw [show a ^^^ (a >>> k) = _ from h]
      _ = a ^^^ b := by
          rw [UInt64.xor_assoc, UInt64.xor_assoc, UInt64.xor_self, UInt64.xor_zero]
  have hsame := eq_zero_of_shiftRight_eq hk hshift
  rwa [← UInt64.xor_self (a := b), UInt64.xor_left_inj] at hsame

/-- A product with a number that has an inverse loses nothing. -/
theorem mul_injective (c inverse : UInt64) (h : c * inverse = 1) :
    Function.Injective fun z : UInt64 => z * c := by
  refine Function.LeftInverse.injective (g := fun z => z * inverse) fun z => ?_
  show z * c * inverse = z
  rw [UInt64.mul_assoc, h, UInt64.mul_one]

/-- Mixing loses nothing: each of its steps can be undone. -/
theorem mix_injective : Function.Injective mix := by
  have hfirst := xorShift_injective (k := 30) (by decide)
  have hfirstProduct := mul_injective 0xBF58476D1CE4E5B9 0x96DE1B173F119089 rfl
  have hsecond := xorShift_injective (k := 27) (by decide)
  have hsecondProduct := mul_injective 0x94D049BB133111EB 0x319642B2D24D8EC3 rfl
  have hlast := xorShift_injective (k := 31) (by decide)
  exact hlast.comp (hsecondProduct.comp (hsecond.comp (hfirstProduct.comp hfirst)))

/-- Two seeds have different hashes at the same index. -/
theorem pairHash_injective_seed (index : UInt64) :
    Function.Injective fun seed => pairHash seed index :=
  mix_injective.comp fun _ _ h => (UInt64.xor_left_inj _).mp h

/-- Two indices have different hashes for the same seed. -/
theorem pairHash_injective_index (seed : UInt64) : Function.Injective (pairHash seed) := by
  intro a b h
  have hmixed := (UInt64.xor_right_inj _).mp (mix_injective h)
  exact (UInt64.add_left_inj gamma).mp (mix_injective hmixed)

/-- Widening keeps integers apart. -/
theorem widen_injective : Function.Injective widen := by
  intro a b h
  exact congrArg UInt32.toInt32 (UInt32.toUInt64_inj.mp h)

/-- The hash loses nothing. Mixing takes every 64-bit word as its value exactly once, and
so does the hash of a pair when its seed or its index is fixed. In particular two seeds
of a draw never have the same hash at one offset, nor two offsets for one seed. -/
theorem hash_loses_nothing :
    Function.Bijective mix ∧
    (∀ index, Function.Bijective fun seed => pairHash seed index) ∧
    (∀ seed, Function.Bijective fun index => pairHash seed index) ∧
    (∀ offset : Int32,
      Function.Injective fun seed : Int32 => pairHash (widen seed) (widen offset)) ∧
    (∀ seed : Int32,
      Function.Injective fun offset : Int32 => pairHash (widen seed) (widen offset)) := by
  refine ⟨?_, fun index => ?_, fun seed => ?_, fun offset => ?_, fun seed => ?_⟩
  · exact Finite.injective_iff_bijective.mp mix_injective
  · exact Finite.injective_iff_bijective.mp (pairHash_injective_seed index)
  · exact Finite.injective_iff_bijective.mp (pairHash_injective_index seed)
  · exact (pairHash_injective_seed (widen offset)).comp widen_injective
  · exact (pairHash_injective_index (widen seed)).comp widen_injective

end LaneGraph.Mixer
