import Criteria.Proofs.Decoding
import Criteria.Proofs.Rounding
import Criteria.Proofs.TotalOrder
import Mathlib.Algebra.Order.Field.Rat
import Mathlib.Tactic.Positivity

/-!
# The numbers that doubles are

A pattern has a sign, an exponent and a fraction, and these say what it denotes: a rational number,
or with the greatest exponent an infinity or no number at all (`Binary64.datum`). A double is made of
every pattern of a rational number and of no other. It has the bits of that pattern, except that there
is only one zero; and with that exception settled, equality of numbers, equality of bits and the order
of patterns all agree with the order of the rational numbers (`compare_eq_compare_number`).

The order holds because a larger magnitude is a larger number: within an exponent the fraction decides,
and the first number of an exponent lies above all numbers of the one below (`units_lt_units`). Of two
negative patterns the one with the larger magnitude comes first on both sides.
-/

namespace Criteria

namespace Binary64

def exponentField (b : UInt64) : Nat :=
  b.toNat / 2 ^ 52 % 2 ^ 11

def fractionField (b : UInt64) : Nat :=
  b.toNat % 2 ^ 52

/-- The absolute value of a pattern that denotes a number. With the exponent 0 the significand begins
with 0, with every other one with 1. -/
def absolute (b : UInt64) : ℚ :=
  if exponentField b = 0 then fractionField b / 2 ^ 52 * 2 ^ (-1022 : ℤ)
  else (1 + fractionField b / 2 ^ 52) * 2 ^ ((exponentField b : ℤ) - 1023)

inductive Datum where
  | nan
  | infinite (negative : Bool)
  | number (x : ℚ)

def datum (b : UInt64) : Datum :=
  if exponentField b = 2047 then
    if fractionField b = 0 then .infinite (isNegative b) else .nan
  else .number (if isNegative b then -absolute b else absolute b)

section
variable {a b : UInt64} {m n : Nat}

theorem fractionField_lt (b : UInt64) : fractionField b < 2 ^ 52 :=
  Nat.mod_lt _ (by decide)

theorem magnitude_eq (b : UInt64) : magnitude b = exponentField b * 2 ^ 52 + fractionField b := by
  have hlt := b.toNat_lt
  unfold magnitude exponentField fractionField
  omega

theorem isFinite_iff : isFinite b = true ↔ exponentField b ≠ 2047 := by
  have hlt := b.toNat_lt
  rw [isFinite, decide_eq_true_iff]
  unfold magnitude infinity exponentField
  omega

/-- A larger magnitude is a larger number: a significand is less than twice the least one of a
larger scale. -/
theorem units_lt_units (h : m < n) : units m < units n := by
  have hm := scale_significand m
  have hn := scale_significand n
  have hlt := significand_lt m
  have hle : scale m ≤ scale n := by
    unfold scale
    omega
  unfold units
  rcases Nat.lt_or_eq_of_le hle with hscale | hscale
  · have hleast := le_significand (m := n) (by omega)
    calc significand m * 2 ^ scale m
      _ < 2 ^ 53 * 2 ^ scale m := Nat.mul_lt_mul_of_pos_right hlt (Nat.two_pow_pos _)
      _ = 2 ^ 52 * 2 ^ (scale m + 1) := by rw [Nat.pow_succ 2 (scale m)]; omega
      _ ≤ 2 ^ 52 * 2 ^ scale n := Nat.mul_le_mul_left _ (Nat.pow_le_pow_right (by decide) hscale)
      _ ≤ significand n * 2 ^ scale n := Nat.mul_le_mul_right _ hleast
  · rw [hscale] at hm ⊢
    exact Nat.mul_lt_mul_of_pos_right (by omega) (Nat.two_pow_pos _)

/-! ## Numbers -/

theorem units_magnitude (b : UInt64) :
    units (magnitude b) =
      if exponentField b = 0 then fractionField b
      else (2 ^ 52 + fractionField b) * 2 ^ (exponentField b - 1) := by
  have hmagnitude := magnitude_eq b
  have hfraction := fractionField_lt b
  have hscale : scale (magnitude b) = exponentField b - 1 := by
    unfold scale
    omega
  unfold units significand
  rw [hscale, hmagnitude]
  split
  · next h =>
    rw [h]
    omega
  · next h =>
    congr 1
    omega

/-- Every number is a whole number of units of `2 ^ (-1074)`. -/
theorem absolute_eq (b : UInt64) : absolute b = units (magnitude b) / 2 ^ 1074 := by
  have hunit : (2 : ℚ) ^ 1074 = 2 ^ 52 * 2 ^ 1022 := by rw [← pow_add]
  rw [units_magnitude, absolute, hunit]
  split
  · have hleast : (2 : ℚ) ^ (-1022 : ℤ) = 1 / 2 ^ 1022 := by
      rw [zpow_neg, one_div]
      exact congrArg Inv.inv (zpow_natCast 2 1022)
    rw [hleast, div_mul_div_comm, mul_one]
  · next h =>
    obtain ⟨k, hk⟩ : ∃ k, exponentField b = k + 1 := ⟨exponentField b - 1, by omega⟩
    have hexponent : ((k + 1 : ℕ) : ℤ) - 1023 = (k : ℤ) - (1022 : ℕ) := by omega
    have hpower : (2 : ℚ) ^ (((k + 1 : ℕ) : ℤ) - 1023) = 2 ^ k / 2 ^ 1022 := by
      rw [hexponent, zpow_sub₀ two_ne_zero, zpow_natCast, zpow_natCast]
    have hsignificand : 1 + (fractionField b : ℚ) / 2 ^ 52 = (2 ^ 52 + fractionField b) / 2 ^ 52 := by
      rw [add_div, div_self (by positivity)]
    rw [hk, hpower, hsignificand, div_mul_div_comm, Nat.add_sub_cancel]
    push_cast
    rfl

/-- The number of a pattern, in units of `2 ^ (-1074)`. -/
def signedUnits (b : UInt64) : ℤ :=
  if isNegative b then -units (magnitude b) else units (magnitude b)

theorem datum_of_isFinite (h : isFinite b = true) :
    datum b = .number (signedUnits b / 2 ^ 1074) := by
  rw [datum, if_neg (isFinite_iff.mp h), absolute_eq, signedUnits]
  split
  · rw [Int.cast_neg, Int.cast_natCast, neg_div]
  · rw [Int.cast_natCast]

theorem datum_of_not_isFinite (h : ¬ isFinite b = true) :
    datum b = .nan ∨ ∃ negative, datum b = .infinite negative := by
  have hexponent : exponentField b = 2047 := not_not.mp (mt isFinite_iff.mpr h)
  rw [datum, if_pos hexponent]
  split
  · exact .inr ⟨_, rfl⟩
  · exact .inl rfl

end

end Binary64

namespace Float64

open Binary64

section
variable {a b : Float64} {p q : UInt64}

theorem bits_eq_iff : a.bits = b.bits ↔ a = b := by
  cases a
  cases b
  simp

theorem ofBits?_eq_some_iff :
    ofBits? p = some a ↔
      isFinite p = true ∧ a.bits = if p = pack true 0 then pack false 0 else p := by
  have hext (x : Float64) : x = a ↔ a.bits = x.bits := by rw [bits_eq_iff, eq_comm]
  unfold ofBits?
  by_cases h : isFinite p = true
  · by_cases hz : p = pack true 0
    · rw [dif_pos h, dif_pos hz, if_pos hz, Option.some.injEq, hext]
      exact ⟨fun hbits => ⟨h, hbits⟩, And.right⟩
    · rw [dif_pos h, dif_neg hz, if_neg hz, Option.some.injEq, hext]
      exact ⟨fun hbits => ⟨h, hbits⟩, And.right⟩
  · simp [h]

theorem ofBits?_eq_none_iff : ofBits? p = none ↔ ¬ isFinite p = true := by
  unfold ofBits?
  split
  · next h =>
    split <;> simp [h]
  · next h => simp [h]

/-- The zero that is stored for negative zero is the same number. -/
theorem signedUnits_of_ofBits? (h : ofBits? p = some a) : signedUnits a.bits = signedUnits p := by
  rw [(ofBits?_eq_some_iff.mp h).2]
  split
  · next hz =>
    rw [hz]
    decide
  · rfl

/-! ## The order of numbers -/

/-- There is no negative zero among the patterns that are stored. -/
theorem magnitude_pos (h : Binary64.isNegative a.bits = true) : 0 < Binary64.magnitude a.bits := by
  refine Nat.pos_of_ne_zero ?_
  intro hzero
  rw [bits_eq_zero_of_magnitude hzero] at h
  exact absurd h (by decide)

theorem signedUnits_lt (h : rank a.bits < rank b.bits) : signedUnits a.bits < signedUnits b.bits := by
  have hzero : units 0 = 0 := by decide
  unfold rank at h
  unfold signedUnits
  by_cases ha : Binary64.isNegative a.bits = true <;> by_cases hb : Binary64.isNegative b.bits = true
  · rw [if_pos ha, if_pos hb] at h ⊢
    have := units_lt_units (m := Binary64.magnitude b.bits) (n := Binary64.magnitude a.bits) (by omega)
    omega
  · rw [if_pos ha, if_neg hb]
    have := units_lt_units (magnitude_pos ha)
    omega
  · rw [if_neg ha, if_pos hb] at h
    omega
  · rw [if_neg ha, if_neg hb] at h ⊢
    have := units_lt_units (m := Binary64.magnitude a.bits) (n := Binary64.magnitude b.bits) (by omega)
    omega

/-- Of two doubles the one that comes first is the smaller number. -/
theorem number_lt (h : rank a.bits < rank b.bits) :
    (signedUnits a.bits / 2 ^ 1074 : ℚ) < signedUnits b.bits / 2 ^ 1074 := by
  have hunit : (0 : ℚ) < 2 ^ 1074 := pow_pos two_pos 1074
  exact div_lt_div_of_pos_right (Int.cast_lt.mpr (signedUnits_lt h)) hunit

theorem compare_eq_compare_number :
    compare a b = compare (signedUnits a.bits / 2 ^ 1074 : ℚ) (signedUnits b.bits / 2 ^ 1074) := by
  show compare (rank a.bits) (rank b.bits) = _
  rcases lt_trichotomy (rank a.bits) (rank b.bits) with h | h | h
  · rw [compare_lt_iff_lt.mpr h, compare_lt_iff_lt.mpr (number_lt h)]
  · rw [rank_injective h, compare_eq_iff_eq.mpr rfl, compare_eq_iff_eq.mpr rfl]
  · rw [compare_gt_iff_gt.mpr h, compare_gt_iff_gt.mpr (number_lt h)]

end

end Float64

/-- The pattern of the double nearest to a numeral, an infinity where there is no finite one. -/
def Numeral.pattern (n : Numeral) : UInt64 :=
  Binary64.pack n.negative (min (Float64.magnitudeOf n.decimal) Binary64.infinity)

theorem Numeral.toFloat?_eq (n : Numeral) : n.toFloat? = Float64.ofBits? n.pattern := by
  have hinfinite (negative : Bool) :
      Float64.ofBits? (Binary64.pack negative Binary64.infinity) = none := by
    cases negative <;> decide
  rw [toFloat?, Float64.ofDecimal?, pattern]
  split
  · next h => rw [Nat.min_eq_left (Nat.le_of_lt h)]
  · next h => rw [Nat.min_eq_right (Nat.not_lt.mp h), hinfinite]

namespace Float64

open Binary64

/-- A text is decoded if it is a numeral and for its pattern a double is stored. -/
theorem decode_eq_ok_iff {text : String} {a : Float64} :
    decode text = .ok a ↔
      ∃ n, Json.ofText text = (some (.number n), true) ∧ ofBits? n.pattern = some a := by
  rw [decode, Json.decode_eq_ok_iff]
  constructor
  · rintro ⟨j, hj, hread⟩
    unfold Json.readFloat at hread
    split at hread
    · next n =>
      rw [Json.expect_eq_ok_iff, n.toFloat?_eq] at hread
      exact ⟨n, hj, hread⟩
    · cases hread
  · rintro ⟨n, hj, h⟩
    refine ⟨.number n, hj, ?_⟩
    rw [Json.readFloat, Json.expect_eq_ok_iff, n.toFloat?_eq, h]

/-- A double is refused just for the patterns of what is no number or infinite, and stored with the
bits of any other pattern, negative zero as zero. Equality of numbers, equality of bits and the order
of doubles are those of the rational numbers that the patterns denote. A text gives the double of the
pattern nearest to its numeral. -/
theorem ofBits?_exact :
    (∀ p, ofBits? p = none ↔ datum p = .nan ∨ ∃ negative, datum p = .infinite negative) ∧
    (∀ p a, ofBits? p = some a → a.bits = if p = pack true 0 then pack false 0 else p) ∧
    (∀ p q a b, ofBits? p = some a → ofBits? q = some b →
      ∃ x y, datum p = .number x ∧ datum q = .number y ∧
        compare a b = compare x y ∧
        (a.equal b = true ↔ a.bits = b.bits) ∧
        (compare a b = .eq ↔ a.bits = b.bits)) ∧
    ∀ text a, decode text = .ok a ↔
      ∃ n, Json.ofText text = (some (.number n), true) ∧ ofBits? n.pattern = some a := by
  refine ⟨?_, fun p a h => (ofBits?_eq_some_iff.mp h).2, ?_, fun _ _ => decode_eq_ok_iff⟩
  · intro p
    rw [ofBits?_eq_none_iff]
    constructor
    · exact datum_of_not_isFinite
    · rintro (hp | ⟨negative, hp⟩) hfinite
      · rw [datum_of_isFinite hfinite] at hp
        cases hp
      · rw [datum_of_isFinite hfinite] at hp
        cases hp
  · intro p q a b hp hq
    refine ⟨_, _, datum_of_isFinite (ofBits?_eq_some_iff.mp hp).1,
      datum_of_isFinite (ofBits?_eq_some_iff.mp hq).1, ?_, ?_, ?_⟩
    · rw [← signedUnits_of_ofBits? hp, ← signedUnits_of_ofBits? hq]
      exact compare_eq_compare_number
    · rw [bits_eq_iff, equal_iff]
    · rw [bits_eq_iff, compare_eq_iff]

/-- Negative zero, and the negative number of the largest fraction with the exponent 0. -/
theorem ofBits?_exact_subnormal :
    let least : Float64 := ⟨pack true (2 ^ 52 - 1), by decide, by decide⟩
    (ofBits? (pack true 0) = some zero ∧ zero.bits = pack false 0) ∧
      ofBits? (pack true (2 ^ 52 - 1)) = some least ∧
      ∃ x y, datum (pack true (2 ^ 52 - 1)) = .number x ∧ datum (pack true 0) = .number y ∧
        compare least zero = compare x y ∧
        (least.equal zero = true ↔ least.bits = zero.bits) ∧
        (compare least zero = .eq ↔ least.bits = zero.bits) := by
  intro least
  have hzero : ofBits? (pack true 0) = some zero := by decide
  have hleast : ofBits? (pack true (2 ^ 52 - 1)) = some least := ofBits?_bits least
  obtain ⟨-, hstored, horder, -⟩ := ofBits?_exact
  have hbits : zero.bits = pack false 0 := hstored _ _ hzero
  exact ⟨⟨hzero, hbits⟩, hleast, horder _ _ _ _ hleast hzero⟩

end Float64

end Criteria
