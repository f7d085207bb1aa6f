import LaneGraph.Word.Half
import Mathlib

/-!
# Halves are rounded correctly

Finite numbers of either precision are whole multiples of `2 ^ -149`, so their
magnitudes are compared as natural numbers in that unit. The magnitude patterns of
halves ascend with their values, and between two neighbours narrowing decides by one
rounding shift: below the least normal half the shift grows as the exponent falls, and
above it the shift is constant while the exponent passes into the pattern. The pattern
after the largest finite half is that of infinity and stands where the next number
would be, which is why a carry may run into it.
-/

namespace LaneGraph

/-- The factor of a sign. -/
def signFactor (negative : Bool) : ℚ := if negative then -1 else 1

namespace Single

/-- Neither infinite nor a NaN. -/
def isFinite (x : Single) : Bool := x.exponentField < 255

/-- The value of a finite number. -/
def value (x : Single) : ℚ :=
  signFactor x.negative * x.significand * (2 : ℚ) ^ ((x.scale : ℤ) - 150)

/-- The magnitude of a finite number, counted in the unit `2 ^ -149`. -/
def units (x : Single) : Nat := x.significand * 2 ^ (x.scale - 1)

end Single

namespace Half

/-- The pattern without its sign bit. -/
def magnitude (h : Half) : Nat := h.bits.toNat % 2 ^ 15

/-- Neither infinite nor a NaN. -/
def isFinite (h : Half) : Bool := h.exponentField < 31

/-- The pattern is an infinity of either sign. -/
def isInfinite (h : Half) : Bool := h.exponentField = 31 && h.fraction = 0

/-- The integer significand: a normal number has its leading one restored. -/
def significand (h : Half) : Nat :=
  if h.exponentField = 0 then h.fraction else 2 ^ 10 + h.fraction

/-- The exponent that goes with the significand, biased by 25. -/
def scale (h : Half) : Nat := max 1 h.exponentField

/-- The value of a finite number. -/
def value (h : Half) : ℚ :=
  signFactor h.negative * h.significand * (2 : ℚ) ^ ((h.scale : ℤ) - 25)

/-- The magnitude with a pattern, counted in the unit `2 ^ -149`. -/
def unitsAt (m : Nat) : Nat :=
  (if m / 2 ^ 10 = 0 then m else 2 ^ 10 + m % 2 ^ 10) * 2 ^ (m / 2 ^ 10 - 1 + 125)

/-- A half is nearest to a number, and its fraction is even if another one is as near. -/
structure Nearest (q : ℚ) (h : Half) : Prop where
  finite : h.isFinite = true
  least : ∀ other : Half, other.isFinite = true → |q - h.value| ≤ |q - other.value|
  even : ∀ other : Half, other.isFinite = true → |q - other.value| = |q - h.value| →
    other.value ≠ h.value → h.fraction % 2 = 0

/-! ## The ladder of magnitudes -/

/-- With its shift written out, a pattern below the first carry counts its significand. -/
theorem unitsAt_shift {t q : Nat} (hq : q < 2 ^ 11) (hnormal : t = 0 ∨ 2 ^ 10 ≤ q) :
    unitsAt (t * 2 ^ 10 + q) = q * 2 ^ (t + 125) ∧ (t * 2 ^ 10 + q) / 2 ^ 10 - 1 = t := by
  have hexponent : (t * 2 ^ 10 + q) / 2 ^ 10 - 1 = t := by omega
  refine ⟨?_, hexponent⟩
  unfold unitsAt
  rw [hexponent]
  congr 1
  split <;> omega

/-- From one pattern to the next the magnitude grows by one unit of its binade. -/
theorem unitsAt_succ (m : Nat) :
    unitsAt (m + 1) = unitsAt m + 2 ^ (m / 2 ^ 10 - 1 + 125) := by
  by_cases hcarry : (m + 1) / 2 ^ 10 = m / 2 ^ 10
  · unfold unitsAt
    rw [hcarry, ← Nat.succ_mul]
    congr 1
    split <;> omega
  · -- the fraction is full, and the next binade begins
    have hfull : m % 2 ^ 10 = 2 ^ 10 - 1 := by omega
    have hnext : (m + 1) / 2 ^ 10 = m / 2 ^ 10 + 1 := by omega
    have hzero : (m + 1) % 2 ^ 10 = 0 := by omega
    unfold unitsAt
    rw [if_neg (by omega), hnext, hzero]
    by_cases hfirst : m / 2 ^ 10 = 0
    · rw [if_pos hfirst, hfirst, ← Nat.succ_mul]
      congr 1
      omega
    · rw [if_neg hfirst, hfull, ← Nat.succ_mul,
        show m / 2 ^ 10 + 1 - 1 + 125 = (m / 2 ^ 10 - 1 + 125) + 1 by omega, Nat.pow_succ]
      ring

/-- Larger patterns have larger magnitudes. -/
theorem unitsAt_strictMono : StrictMono unitsAt := by
  refine strictMono_nat_of_lt_succ fun m => ?_
  rw [unitsAt_succ]
  exact Nat.lt_add_of_pos_right (Nat.two_pow_pos _)

/-- A pattern is closest to a magnitude among all of them, and even if another one is as
close. -/
structure Closest (n m : Nat) : Prop where
  least : ∀ other, Nat.dist n (unitsAt m) ≤ Nat.dist n (unitsAt other)
  even : ∀ other, other ≠ m → Nat.dist n (unitsAt other) = Nat.dist n (unitsAt m) → m % 2 = 0

/-- Between two neighbours the closer one, and the even one of two as close, is closest of
all. -/
theorem closest_of_between {n m rounded rest unit : Nat} (hn : n = unitsAt m + rest)
    (hrest : rest < unit) (hnext : unitsAt (m + 1) = unitsAt m + unit)
    (hrounded : (rounded = m + 1 ∧ (unit < 2 * rest ∨ (2 * rest = unit ∧ m % 2 = 1))) ∨
      (rounded = m ∧ (2 * rest < unit ∨ (2 * rest = unit ∧ m % 2 = 0)))) :
    Closest n rounded := by
  -- the neighbours have these distances, and every other pattern lies beyond one of them
  have hplace : ∀ other, (other = m ∧ Nat.dist n (unitsAt other) = rest) ∨
      (other = m + 1 ∧ Nat.dist n (unitsAt other) = unit - rest) ∨
      (other < m ∧ rest < Nat.dist n (unitsAt other)) ∨
      (m + 1 < other ∧ unit - rest < Nat.dist n (unitsAt other)) := by
    intro other
    have hcases : other < m ∨ other = m ∨ other = m + 1 ∨ m + 1 < other := by omega
    unfold Nat.dist
    rcases hcases with hbelow | rfl | rfl | habove
    · have hless := unitsAt_strictMono hbelow
      omega
    · omega
    · omega
    · have hless := unitsAt_strictMono habove
      omega
  have hchosen := hplace rounded
  constructor
  · intro other
    have hother := hplace other
    omega
  · intro other hne hsame
    have hother := hplace other
    omega

/-! ## Narrowing -/

/-- Whole multiples of the unit pass a rounding shift; even ones keep ties where they are. -/
theorem shiftRightEven_add (whole value shift : Nat) (heven : whole % 2 = 0) :
    shiftRightEven (whole * 2 ^ shift + value) shift = whole + shiftRightEven value shift := by
  unfold shiftRightEven
  have hdiv : (whole * 2 ^ shift + value) / 2 ^ shift = whole + value / 2 ^ shift := by
    rw [Nat.add_comm, Nat.add_mul_div_right _ _ (Nat.two_pow_pos _), Nat.add_comm]
  dsimp only
  rw [hdiv, Nat.mul_add_mod_self_right, show (whole + value / 2 ^ shift) % 2 =
    value / 2 ^ shift % 2 by omega]
  split
  · rfl
  · rfl

/-- A value below half of the unit is rounded away. -/
theorem shiftRightEven_small {value shift : Nat} (h : 2 * value < 2 ^ shift) :
    shiftRightEven value shift = 0 := by
  unfold shiftRightEven
  dsimp only
  rw [Nat.div_eq_of_lt (by omega), Nat.mod_eq_of_lt (by omega), if_neg (by omega)]

end Half

namespace Single

variable {x : Single}

/-- The fraction field has twenty-three bits. -/
theorem fraction_lt (x : Single) : x.fraction < 2 ^ 23 := Nat.mod_lt _ (by decide)

/-- The significand of a normal number has its leading one. -/
theorem significand_normal (h : 0 < x.exponentField) :
    x.significand = 2 ^ 23 + x.fraction ∧ x.scale = x.exponentField := by
  unfold significand scale
  exact ⟨if_neg (by omega), by omega⟩

/-- Significands have at most twenty-four bits. -/
theorem significand_lt (x : Single) : x.significand < 2 ^ 24 := by
  have hfraction := x.fraction_lt
  unfold significand
  split <;> omega

end Single

namespace Half

variable {x : Single}

/-- How many bits of the significand a half has no place for. -/
def dropped (x : Single) : Nat := max 13 (126 - x.scale)

/-- The pattern of the largest half that is not above the magnitude of a number. -/
def floorOfSingle (x : Single) : Nat :=
  (x.scale - 113) * 2 ^ 10 + x.significand / 2 ^ dropped x

/-- Narrowing below the range of infinity is one rounding shift of the significand, wide
enough for subnormal halves. -/
theorem magnitudeOfSingle_eq (h : x.scale < 143) :
    magnitudeOfSingle x =
      (x.scale - 113) * 2 ^ 10 + shiftRightEven x.significand (dropped x) := by
  have hle : x.exponentField ≤ x.scale := Nat.le_max_right _ _
  unfold magnitudeOfSingle dropped
  rw [if_neg (by omega), if_neg (by omega)]
  split
  · -- a normal half: the leading one of the significand is in the pattern already
    obtain ⟨hsignificand, hscale⟩ := Single.significand_normal (x := x) (by omega)
    rw [hsignificand, hscale, show max 13 (126 - x.exponentField) = 13 by omega,
      show 2 ^ 23 = 2 ^ 10 * 2 ^ 13 by rfl, shiftRightEven_add _ _ _ (by decide)]
    omega
  · split
    · obtain ⟨hsignificand, hscale⟩ := Single.significand_normal (x := x) (by omega)
      rw [hsignificand, hscale,
        show max 13 (126 - x.exponentField) = 126 - x.exponentField by omega,
        show x.exponentField - 113 = 0 by omega, Nat.zero_mul, Nat.zero_add]
    · have hscale : x.scale < 102 := by
        unfold Single.scale
        omega
      have hwide : 2 ^ 25 ≤ 2 ^ (max 13 (126 - x.scale)) :=
        Nat.pow_le_pow_right (by decide) (by omega)
      have hsignificand := x.significand_lt
      rw [shiftRightEven_small (by omega), show x.scale - 113 = 0 by omega]

/-- What is kept of a significand has at most eleven bits, and all of them unless the half
is subnormal. -/
theorem kept_bits (x : Single) :
    x.significand / 2 ^ dropped x < 2 ^ 11 ∧
      (x.scale - 113 = 0 ∨ 2 ^ 10 ≤ x.significand / 2 ^ dropped x) := by
  constructor
  · have hwide : 2 ^ 13 ≤ 2 ^ dropped x :=
      Nat.pow_le_pow_right (by decide) (Nat.le_max_left _ _)
    have hsignificand := x.significand_lt
    exact Nat.div_lt_of_lt_mul (by omega)
  · refine (Nat.eq_zero_or_pos _).imp_right fun hnormal => ?_
    have hexponent : 0 < x.exponentField := by
      unfold Single.scale at hnormal
      omega
    have hdropped : dropped x = 13 := by
      unfold dropped
      omega
    rw [hdropped, (Single.significand_normal hexponent).1]
    omega

/-- One unit of the binade in which a number is rounded. -/
theorem unit_eq (x : Single) :
    2 ^ (x.scale - 113 + 125) = 2 ^ dropped x * 2 ^ (x.scale - 1) := by
  have hpos : 1 ≤ x.scale := Nat.le_max_left _ _
  rw [← Nat.pow_add]
  unfold dropped
  exact congrArg (2 ^ ·) (by omega)

/-- A magnitude is that of its floor and what the shift drops. -/
theorem units_floor (x : Single) :
    x.units = unitsAt (floorOfSingle x) +
      x.significand % 2 ^ dropped x * 2 ^ (x.scale - 1) := by
  obtain ⟨hbits, hnormal⟩ := kept_bits x
  have hdecompose := Nat.div_add_mod x.significand (2 ^ dropped x)
  calc x.units
      = (2 ^ dropped x * (x.significand / 2 ^ dropped x) + x.significand % 2 ^ dropped x) *
          2 ^ (x.scale - 1) := by rw [hdecompose, Single.units]
    _ = x.significand / 2 ^ dropped x * (2 ^ dropped x * 2 ^ (x.scale - 1)) +
          x.significand % 2 ^ dropped x * 2 ^ (x.scale - 1) := by
        rw [Nat.add_mul, Nat.mul_comm (2 ^ dropped x), Nat.mul_assoc]
    _ = _ := by rw [floorOfSingle, (unitsAt_shift hbits hnormal).1, unit_eq]

/-- The next pattern is one unit above the floor. -/
theorem unitsAt_floor_succ (x : Single) :
    unitsAt (floorOfSingle x + 1) =
      unitsAt (floorOfSingle x) + 2 ^ dropped x * 2 ^ (x.scale - 1) := by
  obtain ⟨hbits, hnormal⟩ := kept_bits x
  rw [unitsAt_succ, floorOfSingle, (unitsAt_shift hbits hnormal).2, unit_eq]

/-- Below the range of infinity the floor is finite. -/
theorem floorOfSingle_lt (h : x.scale < 143) : floorOfSingle x < 0x7c00 := by
  have hbits := (kept_bits x).1
  unfold floorOfSingle
  omega

/-- Below the range of infinity narrowing finds the closest pattern, at most the one after
the largest finite half. -/
theorem closest_magnitudeOfSingle (h : x.scale < 143) :
    Closest x.units (magnitudeOfSingle x) ∧ magnitudeOfSingle x ≤ 0x7c00 := by
  have hc : 0 < 2 ^ (x.scale - 1) := Nat.two_pow_pos _
  have hinside : x.significand % 2 ^ dropped x * 2 ^ (x.scale - 1) <
      2 ^ dropped x * 2 ^ (x.scale - 1) :=
    Nat.mul_lt_mul_of_pos_right (Nat.mod_lt _ (Nat.two_pow_pos _)) hc
  have hlt := floorOfSingle_lt h
  have hparity : floorOfSingle x % 2 = x.significand / 2 ^ dropped x % 2 := by
    unfold floorOfSingle
    omega
  have hrounded := magnitudeOfSingle_eq h
  rw [shiftRightEven] at hrounded
  split at hrounded
  · rename_i hup
    have hnext : magnitudeOfSingle x = floorOfSingle x + 1 := by
      rw [hrounded, floorOfSingle, Nat.add_assoc]
    refine ⟨closest_of_between (units_floor x) hinside (unitsAt_floor_succ x)
      (.inl ⟨hnext, ?_⟩), hnext ▸ hlt⟩
    rw [← Nat.mul_assoc, hparity]
    exact hup.imp (Nat.mul_lt_mul_of_pos_right · hc) (And.imp_left fun htie => by rw [htie])
  · rename_i hdown
    have hfloor : magnitudeOfSingle x = floorOfSingle x := by rw [hrounded, floorOfSingle]
    refine ⟨closest_of_between (units_floor x) hinside (unitsAt_floor_succ x)
      (.inr ⟨hfloor, ?_⟩), hfloor ▸ Nat.le_of_lt hlt⟩
    rw [← Nat.mul_assoc, hparity]
    rcases Nat.lt_or_eq_of_le (Nat.le_of_not_lt fun h => hdown (.inl h)) with hbelow | htie
    · exact .inl (Nat.mul_lt_mul_of_pos_right hbelow hc)
    · exact .inr ⟨by rw [htie], Nat.mod_two_ne_one.mp fun hodd => hdown (.inr ⟨htie, hodd⟩)⟩

/-- From the exponent of `2 ^ 16` on numbers become infinite. -/
theorem magnitudeOfSingle_large (hlarge : 143 ≤ x.exponentField) (hfinite : x.isFinite = true) :
    magnitudeOfSingle x = 0x7c00 := by
  have hlt : x.exponentField < 255 := of_decide_eq_true hfinite
  unfold magnitudeOfSingle
  rw [if_neg (by omega), if_pos hlarge]

/-- The finite halves are the results of numbers below the middle between the largest of
them and the number after it. -/
theorem magnitudeOfSingle_lt_iff (hfinite : x.isFinite = true) :
    magnitudeOfSingle x < 0x7c00 ↔ x.units < 65520 * 2 ^ 149 := by
  by_cases hscale : x.scale < 143
  · obtain ⟨hclosest, hle⟩ := closest_magnitudeOfSingle hscale
    have hlast : unitsAt 0x7bff = 65504 * 2 ^ 149 := by decide
    have hafter : unitsAt 0x7c00 = 65536 * 2 ^ 149 := by decide
    constructor
    · intro hlt
      have hmono := unitsAt_strictMono.monotone (show magnitudeOfSingle x ≤ 0x7bff by omega)
      have hleast := hclosest.least 0x7c00
      by_contra hge
      -- only the middle itself would be as close to the last half, which is odd
      have htie : unitsAt (magnitudeOfSingle x) = unitsAt 0x7bff := by
        unfold Nat.dist at hleast
        omega
      have hodd := unitsAt_strictMono.injective htie
      have heven := hclosest.even 0x7c00 (by omega) (by
        unfold Nat.dist at hleast ⊢
        omega)
      omega
    · intro hlt
      by_contra hge
      obtain heq : magnitudeOfSingle x = 0x7c00 := by omega
      have hleast := hclosest.least 0x7bff
      rw [heq] at hleast
      unfold Nat.dist at hleast
      omega
  · have hexponent : 143 ≤ x.exponentField := by
      unfold Single.scale at hscale
      omega
    have hsignificand := (Single.significand_normal (x := x) (by omega)).1
    have hunits : 2 ^ 23 * 2 ^ 142 ≤ x.units :=
      Nat.mul_le_mul (by omega) (Nat.pow_le_pow_right (by decide) (by omega))
    rw [magnitudeOfSingle_large hexponent hfinite]
    omega

/-- No result passes the pattern of the quiet NaN. -/
theorem magnitudeOfSingle_le (x : Single) : magnitudeOfSingle x ≤ 0x7e00 := by
  by_cases hscale : x.scale < 143
  · exact Nat.le_trans (closest_magnitudeOfSingle hscale).2 (by decide)
  · unfold Single.scale at hscale
    unfold magnitudeOfSingle
    split
    · split <;> decide
    · rw [if_pos (by omega)]
      decide

/-- Narrowing keeps the sign and puts the rounded magnitude behind it. -/
theorem fields_ofSingle (x : Single) :
    (ofSingle x).magnitude = magnitudeOfSingle x ∧ (ofSingle x).negative = x.negative := by
  have hle := magnitudeOfSingle_le x
  unfold magnitude negative ofSingle
  dsimp only
  rw [UInt16.toNat_ofNat']
  cases x.negative with
  | false =>
    rw [if_neg Bool.false_ne_true]
    exact ⟨by omega, decide_eq_false (by omega)⟩
  | true =>
    rw [if_pos rfl]
    exact ⟨by omega, decide_eq_true (by omega)⟩

variable {h : Half}

/-- The fields of a half are those of its magnitude. -/
theorem fields_eq (h : Half) :
    h.exponentField = h.magnitude / 2 ^ 10 ∧ h.fraction = h.magnitude % 2 ^ 10 := by
  unfold exponentField fraction magnitude
  omega

/-- The finite halves are those below infinity. -/
theorem isFinite_iff (h : Half) : h.isFinite = true ↔ h.magnitude < 0x7c00 := by
  obtain ⟨hexponent, -⟩ := h.fields_eq
  unfold isFinite
  rw [decide_eq_true_eq, hexponent]
  omega

/-- There is one infinity of each sign. -/
theorem isInfinite_iff (h : Half) : h.isInfinite = true ↔ h.magnitude = 0x7c00 := by
  obtain ⟨hexponent, hfraction⟩ := h.fields_eq
  unfold isInfinite
  rw [Bool.and_eq_true, decide_eq_true_eq, decide_eq_true_eq, hexponent, hfraction]
  omega

/-- The NaNs are those above infinity. -/
theorem isNaN_iff (h : Half) : h.isNaN = true ↔ 0x7c00 < h.magnitude := by
  obtain ⟨hexponent, hfraction⟩ := h.fields_eq
  have hlt : h.magnitude < 2 ^ 15 := Nat.mod_lt _ (by decide)
  unfold isNaN
  rw [Bool.and_eq_true, decide_eq_true_eq, bne_iff_ne, hexponent, hfraction]
  omega

/-- A half is its sign and its magnitude. -/
theorem eq_of_fields {h h' : Half} (hmagnitude : h.magnitude = h'.magnitude)
    (hnegative : h.negative = h'.negative) : h = h' := by
  have hbits : h.bits.toNat = h'.bits.toNat := by
    have hlt := h.bits.toNat_lt
    have hlt' := h'.bits.toNat_lt
    unfold magnitude at hmagnitude
    unfold negative at hnegative
    rw [decide_eq_decide] at hnegative
    omega
  exact congrArg mk (UInt16.toNat_inj.mp hbits)

end Half

/-! ## Widening -/

namespace Single

variable {x : Single}

/-- A sign and a magnitude are found again. -/
theorem fields_ofSigned (negative : Bool) {m : Nat} (hm : m < 2 ^ 31) :
    (ofSigned negative m).magnitude = m ∧ (ofSigned negative m).negative = negative := by
  unfold ofSigned magnitude Single.negative
  dsimp only
  rw [UInt32.toNat_ofNat']
  cases negative with
  | false =>
    rw [if_neg Bool.false_ne_true]
    exact ⟨by omega, decide_eq_false (by omega)⟩
  | true =>
    rw [if_pos rfl]
    exact ⟨by omega, decide_eq_true (by omega)⟩

/-- A pattern written as a significand with its leading one, which carries into the
exponent. -/
theorem units_of_normal {e w : Nat} (h : x.magnitude = e * 2 ^ 23 + w)
    (hnormal : 2 ^ 23 ≤ w) (hw : w < 2 ^ 24) :
    x.units = w * 2 ^ e ∧ x.exponentField = e + 1 := by
  have hexponent : x.exponentField = e + 1 := by
    unfold exponentField
    omega
  obtain ⟨hsignificand, hscale⟩ := significand_normal (x := x) (by omega)
  have hfraction : 2 ^ 23 + x.fraction = w := by
    unfold fraction
    omega
  refine ⟨?_, hexponent⟩
  rw [units, hsignificand, hfraction, hscale, hexponent, Nat.add_sub_cancel]

end Single

namespace Half

variable {h : Half}

/-- A magnitude with its exponent and fraction is counted by its significand. -/
theorem unitsAt_magnitude (h : Half) :
    unitsAt h.magnitude = h.significand * 2 ^ (h.scale - 1 + 125) := by
  obtain ⟨hexponent, hfraction⟩ := h.fields_eq
  unfold unitsAt significand scale
  rw [← hexponent, ← hfraction]
  have hscale : max 1 h.exponentField - 1 = h.exponentField - 1 := by omega
  rw [hscale]
  congr 1
  split <;> omega

/-- A nonzero fraction is shifted until its leading one stands before the point. -/
theorem normalised_fraction {f : Nat} (hpos : f ≠ 0) (hlt : f < 2 ^ 10) :
    f.log2 < 10 ∧ 2 ^ 23 ≤ f * 2 ^ (23 - f.log2) ∧ f * 2 ^ (23 - f.log2) < 2 ^ 24 := by
  have htop : f.log2 < 10 := (Nat.log2_lt hpos).mpr hlt
  have hjoin : ∀ k, k ≤ f.log2 + 1 →
      2 ^ k * 2 ^ (23 - f.log2) = 2 ^ (k + 23 - f.log2) := fun k _ => by
    rw [← Nat.pow_add]
    exact congrArg (2 ^ ·) (by omega)
  refine ⟨htop, ?_, ?_⟩
  · calc 2 ^ 23 = 2 ^ (f.log2 + 23 - f.log2) := by rw [Nat.add_sub_cancel_left]
      _ = 2 ^ f.log2 * 2 ^ (23 - f.log2) := (hjoin _ (by omega)).symm
      _ ≤ f * 2 ^ (23 - f.log2) := Nat.mul_le_mul_right _ (Nat.log2_self_le hpos)
  · calc f * 2 ^ (23 - f.log2)
        < 2 ^ (f.log2 + 1) * 2 ^ (23 - f.log2) :=
          Nat.mul_lt_mul_of_pos_right Nat.lt_log2_self (Nat.two_pow_pos _)
      _ = 2 ^ (f.log2 + 1 + 23 - f.log2) := hjoin _ (by omega)
      _ = 2 ^ 24 := congrArg (2 ^ ·) (by omega)

/-- A finite half is zero or widened to a normal number of the same magnitude. -/
theorem singleMagnitude_finite (hfinite : h.isFinite = true) :
    (h.singleMagnitude = 0 ∧ unitsAt h.magnitude = 0) ∨
      ∃ e w, h.singleMagnitude = e * 2 ^ 23 + w ∧ 2 ^ 23 ≤ w ∧ w < 2 ^ 24 ∧ e < 142 ∧
        unitsAt h.magnitude = w * 2 ^ e := by
  have hexponent : h.exponentField < 31 := of_decide_eq_true hfinite
  have hfraction : h.fraction < 2 ^ 10 := Nat.mod_lt _ (by decide)
  rw [unitsAt_magnitude]
  unfold singleMagnitude significand scale
  rw [if_neg (by omega)]
  split
  · rename_i hsubnormal
    rw [hsubnormal]
    split
    · rename_i hzero
      rw [hzero, Nat.zero_mul]
      exact .inl ⟨rfl, rfl⟩
    · rename_i hpos
      obtain ⟨htop, hlow, hhigh⟩ := normalised_fraction hpos hfraction
      refine .inr ⟨_, _, rfl, hlow, hhigh, by omega, ?_⟩
      rw [Nat.mul_assoc, ← Nat.pow_add]
      exact congrArg (h.fraction * 2 ^ ·) (by omega)
  · refine .inr ⟨h.exponentField + 111, (2 ^ 10 + h.fraction) * 2 ^ 13,
      by omega, by omega, by omega, by omega, ?_⟩
    rw [Nat.mul_assoc, ← Nat.pow_add]
    exact congrArg ((2 ^ 10 + h.fraction) * 2 ^ ·) (by omega)

/-- The infinities and NaNs are widened to those with the same fraction in front. -/
theorem singleMagnitude_special (hspecial : h.isFinite = false) :
    h.singleMagnitude = 0x7f800000 + h.fraction * 2 ^ 13 := by
  have hexponent : h.exponentField < 2 ^ 5 := Nat.mod_lt _ (by decide)
  have hlarge : ¬ h.exponentField < 31 := of_decide_eq_false hspecial
  unfold singleMagnitude
  rw [if_pos (by omega)]

/-- Widening keeps the sign and puts the magnitude behind it. -/
theorem fields_toSingle (h : Half) :
    h.toSingle.magnitude = h.singleMagnitude ∧ h.toSingle.negative = h.negative := by
  have hfraction : h.fraction < 2 ^ 10 := Nat.mod_lt _ (by decide)
  refine Single.fields_ofSigned _ ?_
  cases hfinite : h.isFinite with
  | false =>
    rw [singleMagnitude_special hfinite]
    omega
  | true =>
    rcases singleMagnitude_finite hfinite with ⟨hzero, -⟩ | ⟨e, w, heq, -, hw, he, -⟩
    · omega
    · omega

/-- Widening keeps the magnitude of a finite half. -/
theorem units_toSingle (hfinite : h.isFinite = true) :
    h.toSingle.units = unitsAt h.magnitude ∧ h.toSingle.exponentField < 143 := by
  have hfields := h.fields_toSingle.1
  rcases singleMagnitude_finite hfinite with ⟨hzero, hunits⟩ | ⟨e, w, heq, hlow, hw, he, hunits⟩
  · have hfields : h.toSingle.magnitude = 0 := hfields.trans hzero
    have hexponent : h.toSingle.exponentField = 0 := by
      rw [Single.exponentField, hfields]
    refine ⟨?_, by omega⟩
    rw [Single.units, Single.significand, if_pos hexponent, Single.fraction, hfields, hunits]
    exact Nat.zero_mul _
  · obtain ⟨hsame, hexponent⟩ := Single.units_of_normal (hfields.trans heq) hlow hw
    exact ⟨hsame.trans hunits.symm, by omega⟩

end Half

/-! ## Values -/

/-- A scaled significand counted in the common unit. -/
theorem scaled_eq (c e : Nat) :
    (c : ℚ) * 2 ^ ((e : ℤ) - 149) = ((c * 2 ^ e : Nat) : ℚ) / 2 ^ 149 := by
  rw [zpow_sub₀ two_ne_zero, zpow_natCast, Nat.cast_mul, Nat.cast_pow, Nat.cast_two, mul_div_assoc]
  rfl

/-- The distance of two natural numbers is that of the rationals they are. -/
theorem cast_dist (n m : Nat) : (Nat.dist n m : ℚ) = |(n : ℚ) - m| := by
  rcases Nat.le_total n m with h | h
  · have hcast : (n : ℚ) ≤ m := Nat.cast_le.mpr h
    rw [Nat.dist_eq_sub_of_le h, Nat.cast_sub h, abs_sub_comm, abs_of_nonneg (sub_nonneg.mpr hcast)]
  · have hcast : (m : ℚ) ≤ n := Nat.cast_le.mpr h
    rw [Nat.dist_eq_sub_of_le_right h, Nat.cast_sub h, abs_of_nonneg (sub_nonneg.mpr hcast)]

/-- The distance of two signed magnitudes. -/
def signedDist (same : Bool) (n m : Nat) : Nat := if same then Nat.dist n m else n + m

/-- Numbers in the common unit differ by a natural number of it: by the distance of their
magnitudes if their signs agree and by the sum of these otherwise. -/
theorem abs_sub_units (b b' : Bool) (n m : Nat) :
    |signFactor b * ((n : ℚ) / 2 ^ 149) - signFactor b' * ((m : ℚ) / 2 ^ 149)| =
      (signedDist (b == b') n m : ℚ) / 2 ^ 149 := by
  have hunit : (0 : ℚ) < 2 ^ 149 := by positivity
  have hsum : (0 : ℚ) ≤ n + m := by positivity
  have hfactor : |signFactor b * n - signFactor b' * m| = (signedDist (b == b') n m : ℚ) := by
    have hplus : signFactor false = 1 := rfl
    have hminus : signFactor true = -1 := rfl
    cases b <;> cases b' <;> simp only [hplus, hminus, one_mul, neg_one_mul]
    · exact (cast_dist n m).symm
    · rw [sub_neg_eq_add, abs_of_nonneg hsum]
      exact (Nat.cast_add n m).symm
    · rw [← neg_add', abs_neg, abs_of_nonneg hsum]
      exact (Nat.cast_add n m).symm
    · rw [neg_sub_neg, abs_sub_comm]
      exact (cast_dist n m).symm
  rw [← mul_div_assoc, ← mul_div_assoc, ← sub_div, abs_div, abs_of_pos hunit, hfactor]

/-- The value of a single counted in the common unit. -/
theorem Single.value_eq (x : Single) :
    x.value = signFactor x.negative * ((x.units : ℚ) / 2 ^ 149) := by
  have hpos : 1 ≤ x.scale := Nat.le_max_left _ _
  have hscale : (x.scale : ℤ) - 150 = ((x.scale - 1 : Nat) : ℤ) - 149 := by omega
  rw [value, mul_assoc, hscale, scaled_eq, units]

/-- A single is below a natural bound if its count of the common unit is. -/
theorem Single.abs_value_lt_iff (x : Single) (bound : Nat) :
    |x.value| < bound ↔ x.units < bound * 2 ^ 149 := by
  have hunit : (0 : ℚ) < 2 ^ 149 := by positivity
  have hvalue : |x.value| = (x.units : ℚ) / 2 ^ 149 := by
    have hdist := abs_sub_units x.negative x.negative x.units 0
    rw [Nat.cast_zero, zero_div, mul_zero, sub_zero, ← x.value_eq, beq_self_eq_true] at hdist
    rw [hdist, signedDist, if_pos rfl, Nat.dist_zero_right]
  rw [hvalue, div_lt_iff₀ hunit]
  exact_mod_cast Iff.rfl

namespace Half

variable {x : Single} {h : Half}

/-- The value of a half counted in the common unit. -/
theorem value_eq (h : Half) :
    h.value = signFactor h.negative * ((unitsAt h.magnitude : ℚ) / 2 ^ 149) := by
  have hpos : 1 ≤ h.scale := Nat.le_max_left _ _
  have hscale : (h.scale : ℤ) - 25 = ((h.scale - 1 + 125 : Nat) : ℤ) - 149 := by omega
  rw [value, mul_assoc, hscale, scaled_eq, unitsAt_magnitude]

/-- The distance between a single and a half counted in the common unit. -/
theorem abs_sub_value (x : Single) (h : Half) :
    |x.value - h.value| =
      (signedDist (x.negative == h.negative) x.units (unitsAt h.magnitude) : ℚ) / 2 ^ 149 := by
  rw [x.value_eq, h.value_eq, abs_sub_units]

/-- A half with the sign of a number and the closest magnitude is nearest to it: those of
the other sign are not closer than zero is. -/
theorem nearest_of_closest (hfinite : h.isFinite = true) (hsign : h.negative = x.negative)
    (hclosest : Closest x.units h.magnitude) : Nearest x.value h := by
  have hunit : (0 : ℚ) < 2 ^ 149 := by positivity
  have hzero : unitsAt 0 = 0 := rfl
  have hsame : signedDist (x.negative == h.negative) x.units (unitsAt h.magnitude) =
      Nat.dist x.units (unitsAt h.magnitude) := by
    rw [hsign, beq_self_eq_true]
    rfl
  have hnull := hclosest.least 0
  rw [hzero, Nat.dist_zero_right] at hnull
  refine ⟨hfinite, fun other _ => ?_, fun other _ htie hne => ?_⟩
  · rw [abs_sub_value, abs_sub_value, div_le_div_iff_of_pos_right hunit, Nat.cast_le, hsame]
    cases hother : x.negative == other.negative with
    | true => exact hclosest.least _
    | false => exact Nat.le_trans hnull (Nat.le_add_right _ _)
  · rw [abs_sub_value, abs_sub_value, div_left_inj' hunit.ne', Nat.cast_inj, hsame] at htie
    have hparity : h.fraction % 2 = h.magnitude % 2 := by
      have hfraction := h.fields_eq.2
      omega
    rw [hparity]
    cases hother : x.negative == other.negative with
    | true =>
      rw [hother] at htie
      refine hclosest.even other.magnitude (fun hmagnitude => hne ?_) htie
      rw [value_eq, value_eq, hmagnitude, hsign, beq_iff_eq.mp hother]
    | false =>
      rw [hother] at htie
      by_cases hm : h.magnitude = 0
      · rw [hm]
      · refine hclosest.even 0 (Ne.symm hm) ?_
        rw [hzero, Nat.dist_zero_right]
        exact Nat.le_antisymm (htie ▸ Nat.le_add_right _ _) hnull

/-- Below the middle between the largest finite half and the number after it narrowing
finds the nearest half. -/
theorem nearest_ofSingle (hfinite : x.isFinite = true) (hsmall : x.units < 65520 * 2 ^ 149) :
    Nearest x.value (ofSingle x) := by
  obtain ⟨hmagnitude, hsign⟩ := fields_ofSingle x
  have hlt := (magnitudeOfSingle_lt_iff hfinite).mpr hsmall
  have hscale : x.scale < 143 := by
    by_contra hlarge
    have hexponent : 143 ≤ x.exponentField := by
      unfold Single.scale at hlarge
      omega
    exact absurd (magnitudeOfSingle_large hexponent hfinite) (Nat.ne_of_lt hlt)
  refine nearest_of_closest ((isFinite_iff _).mpr (hmagnitude.symm ▸ hlt)) hsign ?_
  exact hmagnitude.symm ▸ (closest_magnitudeOfSingle hscale).1

/-- From there on narrowing overflows. -/
theorem isInfinite_ofSingle_large (hfinite : x.isFinite = true)
    (hlarge : 65520 * 2 ^ 149 ≤ x.units) : (ofSingle x).isInfinite = true := by
  have hge : ¬ magnitudeOfSingle x < 0x7c00 := fun hlt =>
    Nat.not_lt.mpr hlarge ((magnitudeOfSingle_lt_iff hfinite).mp hlt)
  have hle : magnitudeOfSingle x ≤ 0x7c00 := by
    by_cases hscale : x.scale < 143
    · exact (closest_magnitudeOfSingle hscale).2
    · refine Nat.le_of_eq (magnitudeOfSingle_large ?_ hfinite)
      unfold Single.scale at hscale
      omega
  rw [isInfinite_iff, (fields_ofSingle x).1]
  omega

/-- Infinities are narrowed to infinities and NaNs to NaNs. -/
theorem ofSingle_special (x : Single) :
    (x.isInfinite = true → (ofSingle x).isInfinite = true) ∧
      (x.isNaN = true → (ofSingle x).isNaN = true) := by
  have hmagnitude : x.magnitude < 2 ^ 31 := Nat.mod_lt _ (by decide)
  rw [isInfinite_iff, isNaN_iff, (fields_ofSingle x).1]
  unfold magnitudeOfSingle Single.isInfinite Single.isNaN Single.exponentField Single.fraction
  rw [decide_eq_true_eq, decide_eq_true_eq]
  constructor
  · intro hinfinite
    rw [if_pos (by omega), if_pos (by omega)]
  · intro hnan
    rw [if_pos (by omega), if_neg (by omega)]
    decide

/-- Infinities are widened to infinities and NaNs to NaNs. -/
theorem toSingle_special (h : Half) :
    (h.isInfinite = true → h.toSingle.isInfinite = true) ∧
      (h.isNaN = true → h.toSingle.isNaN = true) := by
  obtain ⟨hexponent, hfraction⟩ := h.fields_eq
  have hspecial : ¬ h.magnitude < 0x7c00 → h.toSingle.magnitude =
      0x7f800000 + h.fraction * 2 ^ 13 := fun hlarge =>
    h.fields_toSingle.1.trans (singleMagnitude_special
      (Bool.eq_false_iff.mpr fun hfinite => hlarge (h.isFinite_iff.mp hfinite)))
  have hlt : h.magnitude < 2 ^ 15 := Nat.mod_lt _ (by decide)
  rw [isInfinite_iff, isNaN_iff]
  unfold Single.isInfinite Single.isNaN
  rw [decide_eq_true_eq, decide_eq_true_eq]
  constructor
  · intro hinfinite
    have hmagnitude := hspecial (by omega)
    omega
  · intro hnan
    have hmagnitude := hspecial (by omega)
    omega

/-- A half that is not a NaN comes back from single precision. -/
theorem ofSingle_toSingle (hnan : h.isNaN = false) : ofSingle h.toSingle = h := by
  obtain ⟨hmagnitude, hsign⟩ := fields_ofSingle h.toSingle
  refine eq_of_fields ?_ (hsign.trans h.fields_toSingle.2)
  cases hfinite : h.isFinite with
  | true =>
    obtain ⟨hunits, hexponent⟩ := units_toSingle hfinite
    have hscale : h.toSingle.scale < 143 := by
      unfold Single.scale
      omega
    -- the half itself is at distance zero, and patterns of one magnitude are one
    have hleast := (closest_magnitudeOfSingle hscale).1.least h.magnitude
    rw [hunits, Nat.dist_self] at hleast
    have hsame := Nat.eq_of_dist_eq_zero (Nat.le_zero.mp hleast)
    exact hmagnitude.trans (unitsAt_strictMono.injective hsame.symm)
  | false =>
    have hinfinite : h.magnitude = 0x7c00 := by
      rw [Bool.eq_false_iff, Ne, isFinite_iff] at hfinite
      rw [Bool.eq_false_iff, Ne, isNaN_iff] at hnan
      omega
    have hback := (ofSingle_special h.toSingle).1
      (h.toSingle_special.1 (h.isInfinite_iff.mpr hinfinite))
    exact ((isInfinite_iff _).mp hback).trans hinfinite.symm

/-- Widening is exact. Narrowing finds the nearest half, the even one of two as near, up
to the numbers that are nearer to the one after the largest half, which it makes
infinite. Infinities, NaNs and signs are kept either way, and a half that is not a NaN
comes back. -/
theorem conversion_rounds_correctly :
    (∀ h : Half,
      h.toSingle.negative = h.negative ∧
      (h.isFinite = true → h.toSingle.isFinite = true ∧ h.toSingle.value = h.value) ∧
      (h.isInfinite = true → h.toSingle.isInfinite = true) ∧
      (h.isNaN = true → h.toSingle.isNaN = true)) ∧
    (∀ x : Single,
      (ofSingle x).negative = x.negative ∧
      (x.isFinite = true → |x.value| < 65520 → Nearest x.value (ofSingle x)) ∧
      (x.isFinite = true → 65520 ≤ |x.value| → (ofSingle x).isInfinite = true) ∧
      (x.isInfinite = true → (ofSingle x).isInfinite = true) ∧
      (x.isNaN = true → (ofSingle x).isNaN = true)) ∧
    ∀ h : Half, h.isNaN = false → ofSingle h.toSingle = h := by
  refine ⟨fun h => ⟨h.fields_toSingle.2, fun hfinite => ?_, h.toSingle_special⟩,
    fun x => ⟨(fields_ofSingle x).2, fun hfinite hsmall => ?_, fun hfinite hlarge => ?_,
      ofSingle_special x⟩,
    fun h hnan => ofSingle_toSingle hnan⟩
  · obtain ⟨hunits, hexponent⟩ := units_toSingle hfinite
    refine ⟨decide_eq_true (by omega), ?_⟩
    rw [Single.value_eq, value_eq, hunits, h.fields_toSingle.2]
  · exact nearest_ofSingle hfinite ((x.abs_value_lt_iff 65520).mp (by exact_mod_cast hsmall))
  · refine isInfinite_ofSingle_large hfinite (Nat.le_of_not_lt fun hsmall => ?_)
    exact absurd ((x.abs_value_lt_iff 65520).mpr hsmall) (not_lt.mpr (by exact_mod_cast hlarge))

/-- One tenth is not a half: the number nearest to it in single precision is narrowed to
the half nearest to that, which comes back from single precision. The middle above the
largest half becomes infinite. -/
theorem tenth_narrowed :
    (|(Single.mk 0x3dcccccd).value| < 65520 ∧ Nearest (Single.mk 0x3dcccccd).value ⟨0x2e66⟩) ∧
      (65520 ≤ |(Single.mk 0xc77ff000).value| ∧
        (ofSingle ⟨0xc77ff000⟩).isInfinite = true) ∧
      ((mk 0x2e66).isNaN = false ∧ ofSingle (mk 0x2e66).toSingle = ⟨0x2e66⟩) := by
  have htenth : |(Single.mk 0x3dcccccd).value| < 65520 := by
    exact_mod_cast (Single.abs_value_lt_iff _ 65520).mpr (by decide)
  have hmiddle : 65520 ≤ |(Single.mk 0xc77ff000).value| := by
    refine not_lt.mp fun hsmall => ?_
    exact absurd ((Single.abs_value_lt_iff ⟨0xc77ff000⟩ 65520).mp (by exact_mod_cast hsmall))
      (by decide)
  have hnearest := (conversion_rounds_correctly.2.1 ⟨0x3dcccccd⟩).2.1 (by decide) htenth
  rw [show ofSingle ⟨0x3dcccccd⟩ = ⟨0x2e66⟩ by decide] at hnearest
  exact ⟨⟨htenth, hnearest⟩,
    ⟨hmiddle, (conversion_rounds_correctly.2.1 ⟨0xc77ff000⟩).2.2.1 (by decide) hmiddle⟩,
    by decide, conversion_rounds_correctly.2.2 ⟨0x2e66⟩ (by decide)⟩

end Half

end LaneGraph
