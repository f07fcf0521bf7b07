import Criteria.Json.Numeral
import Criteria.Proofs.Rounding

/-!
# Doubles as decimals

The decimal with the fewest digits is read back by the way it is chosen; what has to be shown is
that one is found, and among so few digits that none is left out when it is read. Eighteen digits
are always enough (`magnitudeOf_truncated`). The numeral that is written has the same value, so a
double is read back from its numeral (`Numeral.toFloat?_ofFloat`).
-/

namespace Criteria

section
variable {n k j a : Nat}

theorem length_digitsOf_le_iff (h : 0 < k) : (digitsOf n).length ≤ k ↔ n < 10 ^ k :=
  Nat.length_toDigits_le_iff (by decide) h

theorem length_digitsOf (lower : 10 ^ a ≤ n) (upper : n < 10 ^ (a + 1)) :
    (digitsOf n).length = a + 1 := by
  have hle := (length_digitsOf_le_iff (Nat.succ_pos a)).mpr upper
  rcases Nat.eq_zero_or_pos a with rfl | ha
  · have : 0 < (digitsOf n).length := Nat.length_toDigits_pos
    omega
  · have : ¬ (digitsOf n).length ≤ a := by
      rw [length_digitsOf_le_iff ha]
      omega
    omega

theorem lt_pow_length (n : Nat) : n < 10 ^ (digitsOf n).length :=
  (length_digitsOf_le_iff Nat.length_toDigits_pos).mp (Nat.le_refl _)

theorem pow_length_le (h : 0 < n) : 10 ^ ((digitsOf n).length - 1) ≤ n := by
  rcases Nat.eq_zero_or_pos ((digitsOf n).length - 1) with h1 | h1
  · rw [h1]
    exact h
  · have : ¬ (digitsOf n).length ≤ (digitsOf n).length - 1 := by omega
    rw [length_digitsOf_le_iff h1] at this
    omega

theorem length_digitsOf_mul_pow (h : 0 < n) :
    (digitsOf (n * 10 ^ j)).length = (digitsOf n).length + j := by
  have hpos : 0 < (digitsOf n).length := Nat.length_toDigits_pos
  have hp : 0 < 10 ^ j := Nat.pow_pos (by decide)
  obtain ⟨a, ha⟩ : ∃ a, (digitsOf n).length = a + 1 := ⟨(digitsOf n).length - 1, by omega⟩
  have hlo := pow_length_le h
  have hhi := lt_pow_length n
  rw [ha, Nat.add_sub_cancel] at hlo
  rw [ha] at hhi
  rw [ha, Nat.add_right_comm]
  refine length_digitsOf ?_ ?_
  · rw [Nat.pow_add]
    exact Nat.mul_le_mul_right _ hlo
  · rw [Nat.add_right_comm, Nat.pow_add]
    exact (Nat.mul_lt_mul_right hp).mpr hhi

theorem length_digitsOf_div_pow (h : j < (digitsOf n).length) :
    (digitsOf (n / 10 ^ j)).length = (digitsOf n).length - j := by
  have hp : 0 < 10 ^ j := Nat.pow_pos (by decide)
  have hhi := lt_pow_length n
  obtain ⟨a, ha⟩ : ∃ a, (digitsOf n).length = a + 1 + j := ⟨(digitsOf n).length - j - 1, by omega⟩
  rw [ha, Nat.add_sub_cancel]
  rw [ha] at hhi
  rcases Nat.eq_zero_or_pos n with rfl | hn
  · have : (digitsOf 0).length = 1 := rfl
    obtain rfl : a = 0 := by omega
    rw [Nat.zero_div]
    rfl
  · have hlo := pow_length_le hn
    rw [ha, Nat.add_right_comm, Nat.add_sub_cancel] at hlo
    refine length_digitsOf ((Nat.le_div_iff_mul_le hp).mpr ?_) ((Nat.div_lt_iff_lt_mul hp).mpr ?_)
    · rwa [← Nat.pow_add]
    · rwa [← Nat.pow_add]

theorem five_pow_pos (n : Nat) : 0 < 5 ^ n :=
  Nat.pow_pos (by decide)

theorem two_pow_mul_five_pow (n : Nat) : 2 ^ n * 5 ^ n = 10 ^ n :=
  (Nat.mul_pow 2 5 n).symm

theorem numberOf_append (ds es : List Char) :
    numberOf (ds ++ es) = numberOf ds * 10 ^ es.length + numberOf es := by
  unfold numberOf
  rw [Nat.ofDigitChars_append, Nat.ofDigitChars_eq_ofDigitChars_zero, Nat.mul_comm]

end

namespace Float64

/-- Zeros at the end of the digits do not matter while all of them are looked at. -/
theorem magnitudeOf_shift {k j : Nat} (e : Int) (short : (digitsOf (k * 10 ^ j)).length ≤ digitLimit) :
    magnitudeOf ⟨k * 10 ^ j, e⟩ = magnitudeOf ⟨k, e + j⟩ := by
  have hp : 0 < 10 ^ j := Nat.pow_pos (by decide)
  rcases Nat.eq_zero_or_pos k with rfl | hk
  · simp [magnitudeOf]
  · have hlen := length_digitsOf_mul_pow (j := j) hk
    have hne : k * 10 ^ j ≠ 0 := Nat.ne_of_gt (Nat.mul_pos hk hp)
    have hpoint : (⟨k * 10 ^ j, e⟩ : Decimal).point = (⟨k, e + j⟩ : Decimal).point := by
      simp only [Decimal.point, hlen]
      omega
    have hvalue : Binary64.nearest (⟨k * 10 ^ j, e⟩ : Decimal).numerator
          (⟨k * 10 ^ j, e⟩ : Decimal).denominator =
        Binary64.nearest (⟨k, e + j⟩ : Decimal).numerator (⟨k, e + j⟩ : Decimal).denominator := by
      refine Binary64.nearest_congr (Decimal.denominator_pos _) (Decimal.denominator_pos _) ?_
      simp only [Decimal.numerator, Decimal.denominator, Nat.mul_assoc, ← Nat.pow_add]
      congr 2
      omega
    unfold magnitudeOf
    simp only [hpoint, hne, Nat.ne_of_gt hk]
    rw [Decimal.condense_of_length_le short, Decimal.condense_of_length_le (by simp only; omega),
      hvalue]

/-! ## The shortest digits -/

section
variable {x : Float64}

theorem units_pos (h : x.magnitude ≠ 0) : 0 < Binary64.units x.magnitude := by
  have hsum := Binary64.scale_significand x.magnitude
  have hge := Binary64.le_significand (m := x.magnitude)
  refine Nat.mul_pos ?_ (Nat.two_pow_pos _)
  omega

theorem scale_le (x : Float64) : Binary64.scale x.magnitude ≤ 2045 := by
  have h : x.magnitude < Binary64.infinity := of_decide_eq_true x.finite
  unfold Binary64.infinity at h
  unfold Binary64.scale
  omega

theorem exact_digits (x : Float64) : x.exact.digits = Binary64.units x.magnitude * 5 ^ 1074 := rfl

theorem exact_digits_lt (x : Float64) :
    x.exact.digits < 2 ^ 53 * (2 ^ Binary64.scale x.magnitude * 5 ^ 1074) := by
  have hfive := five_pow_pos 1074
  rw [exact_digits, Binary64.units, Nat.mul_assoc]
  generalize 5 ^ 1074 = p at *
  exact (Nat.mul_lt_mul_right (Nat.mul_pos (Nat.two_pow_pos _) hfive)).mpr
    (Binary64.significand_lt _)

theorem pow_le_exact_digits (h : x.magnitude ≠ 0) : 5 ^ 1074 ≤ x.exact.digits := by
  rw [exact_digits]
  generalize 5 ^ 1074 = p at *
  exact Nat.le_mul_of_pos_left p (units_pos h)

theorem exact_digits_lt_pow (x : Float64) : x.exact.digits < 10 ^ 1474 := by
  obtain ⟨top, hscale, hlarge⟩ : ∃ top, 2 ^ Binary64.scale x.magnitude ≤ top ∧
      2 ^ 53 * (top * 5 ^ 1074) ≤ 10 ^ 1474 :=
    ⟨_, Nat.pow_le_pow_right (show 0 < 2 by decide) (scale_le x), by decide +kernel⟩
  refine Nat.lt_of_lt_of_le (exact_digits_lt x) (Nat.le_trans ?_ hlarge)
  exact Nat.mul_le_mul_left _ (Nat.mul_le_mul_right _ hscale)

theorem exact_length_bounds (h : x.magnitude ≠ 0) :
    674 ≤ (digitsOf x.exact.digits).length ∧ (digitsOf x.exact.digits).length ≤ 1474 := by
  have hsmall : 10 ^ 673 ≤ 5 ^ 1074 := by decide +kernel
  constructor
  · have : ¬ (digitsOf x.exact.digits).length ≤ 673 := by
      rw [length_digitsOf_le_iff (by decide)]
      exact Nat.not_lt.mpr (Nat.le_trans hsmall (pow_le_exact_digits h))
    omega
  · exact (length_digitsOf_le_iff (by decide)).mpr (exact_digits_lt_pow x)

/-- What is dropped behind eighteen digits is less than a quarter of a step. -/
theorem truncated_close {f : Nat} (h : x.magnitude ≠ 0)
    (hf : (digitsOf x.exact.digits).length = f + 18) :
    4 * x.exact.digits <
        4 * (x.exact.digits / 10 ^ f * 10 ^ f) + 2 ^ Binary64.scale x.magnitude * 5 ^ 1074 ∧
      4 * (x.exact.digits / 10 ^ f * 10 ^ f) <
        4 * x.exact.digits + 2 ^ Binary64.scale x.magnitude * 5 ^ 1074 := by
  have hpos := Nat.lt_of_lt_of_le (five_pow_pos 1074) (pow_le_exact_digits h)
  have hlo := pow_length_le hpos
  have hhi := exact_digits_lt x
  have hdiv := Nat.div_add_mod' x.exact.digits (10 ^ f)
  have hmod := Nat.mod_lt x.exact.digits (Nat.pow_pos (n := f) (show 0 < 10 by decide))
  rw [hf, show f + 18 - 1 = f + 17 from rfl, Nat.pow_add] at hlo
  generalize 2 ^ Binary64.scale x.magnitude * 5 ^ 1074 = step at *
  generalize x.exact.digits / 10 ^ f * 10 ^ f = kept at *
  generalize x.exact.digits % 10 ^ f = dropped at *
  omega

/-- A decimal in units of `10 ^ (-1074)`. -/
theorem numerator_mul (q f : Nat) :
    (⟨q, f - 1074⟩ : Decimal).numerator * 10 ^ 1074 =
      q * 10 ^ f * (⟨q, f - 1074⟩ : Decimal).denominator := by
  simp only [Decimal.numerator, Decimal.denominator, Nat.mul_assoc, ← Nat.pow_add]
  congr 2
  omega

/-- The first eighteen digits, all of which are looked at, are close enough to be read back. -/
theorem magnitudeOf_truncated {f : Nat} (h : x.magnitude ≠ 0)
    (hf : (digitsOf x.exact.digits).length = f + 18) :
    magnitudeOf ⟨x.exact.digits / 10 ^ f, f - 1074⟩ = x.magnitude := by
  have hbounds := exact_length_bounds h
  have hlen : (digitsOf (x.exact.digits / 10 ^ f)).length = 18 := by
    rw [length_digitsOf_div_pow (by omega)]
    omega
  have hvalue := numerator_mul (x.exact.digits / 10 ^ f) f
  generalize hd : (⟨x.exact.digits / 10 ^ f, f - 1074⟩ : Decimal) = d at *
  have hdigits : d.digits = x.exact.digits / 10 ^ f := by rw [← hd]
  have hpoint : -400 ≤ d.point ∧ d.point ≤ 400 := by
    rw [← hd]
    simp only [Decimal.point, hlen]
    omega
  have hne : d.digits ≠ 0 := by
    intro h0
    rw [← hdigits, h0] at hlen
    cases hlen
  unfold magnitudeOf
  rw [if_neg (by omega), if_neg (by omega),
    Decimal.condense_of_length_le (by rw [hdigits, hlen]; decide)]
  have hten := two_pow_mul_five_pow 1074
  have hnum : d.numerator * 2 ^ 1074 * 5 ^ 1074 =
      x.exact.digits / 10 ^ f * 10 ^ f * d.denominator := by
    rw [Nat.mul_assoc, hten, hvalue]
  obtain ⟨hlo, hhi⟩ := truncated_close h hf
  exact Binary64.nearest_eq_of_close_parts (Decimal.denominator_pos d) hnum (exact_digits x) hlo hhi

/-! ## The search -/

variable {tie : Tie} {n : Nat} {d : Decimal}

/-- The absolute value cut off after `n` digits. -/
def below (x : Float64) (n : Nat) : Decimal :=
  ⟨x.exact.digits / 10 ^ ((digitsOf x.exact.digits).length - n),
    ((digitsOf x.exact.digits).length - n : Nat) - 1074⟩

/-- The next decimal with `n` digits. -/
def above (x : Float64) (n : Nat) : Decimal :=
  ⟨x.exact.digits / 10 ^ ((digitsOf x.exact.digits).length - n) + 1,
    ((digitsOf x.exact.digits).length - n : Nat) - 1074⟩

theorem nearer_reads {reads : Decimal → Bool} {lower upper : Decimal} {up : Bool}
    (h : nearer reads lower upper up = some d) :
    reads d = true ∧ (d = lower ∨ d = upper) := by
  unfold nearer at h
  split at h
  · next hl hu =>
    split at h
    · cases h
      exact ⟨hu, Or.inr rfl⟩
    · cases h
      exact ⟨hl, Or.inl rfl⟩
  · next hl _ =>
    cases h
    exact ⟨hl, Or.inl rfl⟩
  · next _ hu =>
    cases h
    exact ⟨hu, Or.inr rfl⟩
  · cases h

theorem nearer_ne_none {reads : Decimal → Bool} {lower upper : Decimal} {up : Bool}
    (h : reads lower = true) : nearer reads lower upper up ≠ none := by
  unfold nearer
  rw [h]
  cases reads upper <;> simp

theorem candidate_eq (tie : Tie) (x : Float64) (n : Nat) :
    ∃ up, candidate tie x n =
      nearer (fun d => magnitudeOf d == x.magnitude) (below x n) (above x n) up :=
  ⟨_, rfl⟩

theorem candidate_spec (h : candidate tie x n = some d) :
    magnitudeOf d = x.magnitude ∧ (d = below x n ∨ d = above x n) := by
  obtain ⟨up, heq⟩ := candidate_eq tie x n
  rw [heq] at h
  obtain ⟨hreads, hd⟩ := nearer_reads h
  exact ⟨beq_iff_eq.mp hreads, hd⟩

theorem candidate_eighteen (tie : Tie) (h : x.magnitude ≠ 0) : candidate tie x 18 ≠ none := by
  have hbounds := exact_length_bounds h
  obtain ⟨up, heq⟩ := candidate_eq tie x 18
  rw [heq]
  refine nearer_ne_none (beq_iff_eq.mpr ?_)
  exact magnitudeOf_truncated h (by omega)

theorem candidate_length (h : candidate tie x n = some d) :
    (digitsOf d.digits).length ≤ n + 1 := by
  have hlt : (below x n).digits < 10 ^ n := by
    refine (Nat.div_lt_iff_lt_mul (Nat.pow_pos (by decide))).mpr ?_
    rw [← Nat.pow_add]
    exact Nat.lt_of_lt_of_le (lt_pow_length _) (Nat.pow_le_pow_right (by decide) (by omega))
  have hd : d.digits ≤ 10 ^ n := by
    rcases (candidate_spec h).2 with rfl | rfl
    · exact Nat.le_of_lt hlt
    · exact hlt
  refine (length_digitsOf_le_iff (Nat.succ_pos n)).mpr ?_
  rw [Nat.pow_succ]
  have : 0 < 10 ^ n := Nat.pow_pos (by decide)
  omega

/-- The search ends with at most eighteen digits. -/
theorem exists_candidate (tie : Tie) (h : x.magnitude ≠ 0) :
    ∃ n d, n ≤ 18 ∧ candidate tie x n = some d ∧ x.shortest tie = d.trim := by
  have hfound := candidate_eighteen tie h
  have hbounds := exact_length_bounds h
  unfold shortest
  rw [if_neg h]
  dsimp only
  generalize hw : (List.range (digitsOf x.exact.digits).length).map (· + 1) = widths
  have hsorted : widths.Pairwise (· < ·) := by
    rw [← hw, List.pairwise_map]
    exact List.pairwise_lt_range.imp (by omega)
  have hmem : 18 ∈ widths := by
    rw [← hw, List.mem_map]
    exact ⟨17, List.mem_range.mpr (by omega), rfl⟩
  cases hs : widths.findSome? (candidate tie x) with
  | none => exact absurd (List.findSome?_eq_none_iff.mp hs 18 hmem) hfound
  | some d =>
    obtain ⟨shorter, n, longer, hsplit, hn, hnone⟩ := List.findSome?_eq_some_iff.mp hs
    refine ⟨n, d, ?_, hn, rfl⟩
    rw [hsplit, List.mem_append, List.mem_cons] at hmem
    rw [hsplit, List.pairwise_append, List.pairwise_cons] at hsorted
    rcases hmem with hmem | hmem | hmem
    · exact absurd (hnone 18 hmem) hfound
    · exact Nat.le_of_eq hmem.symm
    · exact Nat.le_of_lt (hsorted.2.1.1 18 hmem)

end

end Float64

theorem Decimal.trim_eq (d : Decimal) :
    ∃ j : Nat, d.digits = d.trim.digits * 10 ^ j ∧ d.trim.exponent = d.exponent + j := by
  fun_induction Decimal.trim d with
  | case1 d h => exact ⟨0, by simp⟩
  | case2 d h ih =>
    obtain ⟨j, hdigits, hexponent⟩ := ih
    refine ⟨j + 1, ?_, ?_⟩
    · rw [Nat.pow_succ, ← Nat.mul_assoc, ← hdigits]
      dsimp only
      omega
    · rw [hexponent]
      dsimp only
      omega

namespace Float64

/-- The shortest digits are few, and are read back. -/
theorem magnitudeOf_shortest (tie : Tie) (x : Float64) :
    magnitudeOf (x.shortest tie) = x.magnitude ∧
      (digitsOf (x.shortest tie).digits).length ≤ 19 := by
  by_cases h : x.magnitude = 0
  · rw [shortest, if_pos h, h]
    exact ⟨rfl, by decide⟩
  · obtain ⟨n, d, hn, hd, heq⟩ := exists_candidate tie h
    have hlen := candidate_length hd
    have hreads := (candidate_spec hd).1
    obtain ⟨j, hdigits, hexponent⟩ := d.trim_eq
    rw [heq]
    obtain ⟨digits, exponent⟩ := d
    generalize hk : (Decimal.trim ⟨digits, exponent⟩) = t at *
    obtain ⟨k, e⟩ := t
    dsimp only at hdigits hexponent hlen ⊢
    subst hdigits hexponent
    constructor
    · rw [← hreads, magnitudeOf_shift]
      unfold digitLimit
      omega
    · rcases Nat.eq_zero_or_pos k with rfl | hpos
      · decide
      · rw [length_digitsOf_mul_pow hpos] at hlen
        omega

end Float64

/-! ## Numerals -/

theorem dropZeros_append (ds : List Char) :
    ∃ j, ds = dropZeros ds ++ List.replicate j '0' := by
  have hsplit := List.takeWhile_append_dropWhile (p := (· == '0')) (l := ds.reverse)
  have hzeros : ∀ c ∈ ds.reverse.takeWhile (· == '0'), c = '0' := fun c hc =>
    beq_iff_eq.mp (List.all_eq_true.mp List.all_takeWhile c hc)
  refine ⟨(ds.reverse.takeWhile (· == '0')).length, ?_⟩
  rw [dropZeros, ← List.reverse_replicate, ← List.eq_replicate_of_mem hzeros, ← List.reverse_append,
    hsplit, List.reverse_reverse]

namespace Numeral

/-- The absolute value with all the places. -/
def plain (n : Numeral) : Decimal :=
  ⟨n.whole * 10 ^ n.places.length + numberOf n.places, n.exponent.getD 0 - n.places.length⟩

open Float64 in
theorem magnitudeOf_decimal {n : Numeral}
    (short : (digitsOf n.plain.digits).length ≤ digitLimit) :
    magnitudeOf n.decimal = magnitudeOf n.plain := by
  obtain ⟨j, hj⟩ := dropZeros_append n.places
  have hlen : n.places.length = (dropZeros n.places).length + j := by
    conv => lhs; rw [hj]
    rw [List.length_append, List.length_replicate]
  have hnum : numberOf n.places = numberOf (dropZeros n.places) * 10 ^ j := by
    conv => lhs; rw [hj]
    rw [numberOf_append, List.length_replicate]
    simp [numberOf]
  unfold decimal
  unfold plain at short ⊢
  dsimp only at short ⊢
  rw [hnum, hlen, Nat.pow_add, ← Nat.mul_assoc, ← Nat.add_mul] at short ⊢
  rw [magnitudeOf_shift _ short]
  congr 2
  omega

theorem plain_positional (negative : Bool) {d : Decimal} (h : d.exponent < 0) :
    (⟨negative, d.whole, d.fraction, none⟩ : Numeral).plain = d ∧ d.fraction ≠ [] := by
  obtain ⟨digits, exponent⟩ := d
  obtain ⟨p, rfl⟩ : ∃ p : Nat, exponent = -(p + 1 : Nat) := ⟨(-exponent).toNat - 1, by
    dsimp only at h
    omega⟩
  have hnone : (-(p + 1 : Nat) : Int).toNat = 0 := by omega
  have hplaces : (- -(p + 1 : Nat) : Int).toNat = p + 1 := by omega
  have hlen : (digitsOf (digits % 10 ^ (p + 1))).length ≤ p + 1 :=
    (length_digitsOf_le_iff (Nat.succ_pos p)).mpr (Nat.mod_lt _ (Nat.pow_pos (by decide)))
  have hfraction : (⟨digits, -(p + 1 : Nat)⟩ : Decimal).fraction =
      List.replicate (p + 1 - (digitsOf (digits % 10 ^ (p + 1))).length) '0' ++
        digitsOf (digits % 10 ^ (p + 1)) := by
    simp only [Decimal.fraction, Decimal.numerator, Decimal.denominator, hnone, hplaces,
      Nat.pow_zero, Nat.mul_one, Nat.succ_ne_zero, if_false]
  have hlength : (⟨digits, -(p + 1 : Nat)⟩ : Decimal).fraction.length = p + 1 := by
    rw [hfraction, List.length_append, List.length_replicate]
    omega
  have hnumber : numberOf (⟨digits, -(p + 1 : Nat)⟩ : Decimal).fraction = digits % 10 ^ (p + 1) := by
    rw [hfraction, numberOf_append, numberOf_digitsOf]
    simp [numberOf]
  have hwhole : (⟨digits, -(p + 1 : Nat)⟩ : Decimal).whole = digits / 10 ^ (p + 1) := by
    simp only [Decimal.whole, Decimal.numerator, Decimal.denominator, hnone, hplaces,
      Nat.pow_zero, Nat.mul_one]
  constructor
  · unfold plain
    dsimp only
    rw [hlength, hnumber, hwhole, Nat.div_add_mod', Option.getD_none, Int.zero_sub]
  · intro h0
    rw [h0] at hlength
    cases hlength

theorem plain_scientific (negative : Bool) (d : Decimal) :
    (⟨negative, numberOf ((digitsOf d.digits).take 1), (digitsOf d.digits).drop 1,
      some (d.point - 1)⟩ : Numeral).plain = d := by
  have hpos : 0 < (digitsOf d.digits).length := Nat.length_toDigits_pos
  unfold plain
  dsimp only
  rw [← numberOf_append, List.take_append_drop, numberOf_digitsOf, List.length_drop,
    Option.getD_some, Decimal.point]
  congr 1
  omega

/-- The numeral of a double has the value of its shortest digits, with at most 17 zeros more. -/
theorem plain_ofFloat (x : Float64) :
    ∃ j : Nat, (ofFloat x).plain =
      ⟨(x.shortest .even).digits * 10 ^ j, (x.shortest .even).exponent - j⟩ ∧ j ≤ 17 := by
  unfold ofFloat
  dsimp only
  generalize x.shortest .even = d
  split
  · next hp =>
    have hpos : 0 < (digitsOf d.digits).length := Nat.length_toDigits_pos
    rw [isPositional, decide_eq_true_iff, Decimal.point] at hp
    rcases Int.lt_or_le d.exponent 0 with he | he
    · obtain ⟨hplain, hne⟩ := plain_positional x.isNegative he
      refine ⟨0, ?_, by decide⟩
      rw [if_neg (by simpa using hne), hplain]
      simp
    · obtain ⟨e, he⟩ := Int.eq_ofNat_of_zero_le he
      refine ⟨e + 1, ?_, by omega⟩
      have hfraction : d.fraction = [] := by simp [Decimal.fraction, he]
      have hwhole : d.whole = d.digits * 10 ^ e := by
        simp [Decimal.whole, Decimal.numerator, Decimal.denominator, he]
      rw [hfraction, hwhole, he]
      show (⟨d.digits * 10 ^ e * 10 ^ 1 + 0, 0 - (1 : Nat)⟩ : Decimal) = _
      rw [Nat.add_zero, Nat.mul_assoc, ← Nat.pow_add]
      congr 1
      omega
  · refine ⟨0, ?_, by decide⟩
    rw [plain_scientific]
    simp

open Float64 in
theorem toFloat?_ofFloat (x : Float64) : (ofFloat x).toFloat? = some x := by
  obtain ⟨hreads, hlen⟩ := magnitudeOf_shortest .even x
  obtain ⟨j, hplain, hj⟩ := plain_ofFloat x
  have hsign : (ofFloat x).negative = x.isNegative := by
    unfold ofFloat
    dsimp only
    split <;> rfl
  have hshort : (digitsOf ((x.shortest .even).digits * 10 ^ j)).length ≤ digitLimit := by
    unfold digitLimit
    rcases Nat.eq_zero_or_pos (x.shortest .even).digits with h | h
    · rw [h, Nat.zero_mul]
      decide
    · rw [length_digitsOf_mul_pow h]
      omega
  have hmagnitude : magnitudeOf (ofFloat x).decimal = x.magnitude := by
    rw [magnitudeOf_decimal (by rwa [hplain]), hplain, magnitudeOf_shift _ hshort,
      Int.sub_add_cancel, ← hreads]
  have hfinite : x.magnitude < Binary64.infinity := of_decide_eq_true x.finite
  rw [toFloat?, ofDecimal?, hmagnitude, hsign, if_pos hfinite]
  rw [isNegative, magnitude, Binary64.pack_isNegative_magnitude, ofBits?_bits]

end Numeral

end Criteria
