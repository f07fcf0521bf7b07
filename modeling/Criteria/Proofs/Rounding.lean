import Criteria.Float64.Shortest

/-!
# Rounding to doubles

A number less than a quarter of a step away from a double rounds to that double
(`nearest_eq_of_close`). A quarter is needed where the double is a power of two: below it the steps
are half as wide. What a decimal is read as depends on its value only, as long as all its digits are
looked at (`magnitudeOf_shift`).
-/

namespace Criteria

namespace Binary64

section
variable {n d n' d' k u a : Nat}

theorem roundDiv_eq_of_close (lower : 2 * (k * d) < 2 * n + d) (upper : 2 * n < 2 * (k * d) + d) :
    roundDiv n d = k := by
  unfold roundDiv
  rcases Nat.le_total (k * d) n with h | h
  · obtain ⟨r, rfl⟩ := Nat.exists_eq_add_of_le h
    have hr : r < d := by omega
    have hq : (k * d + r) / d = k := by
      rw [Nat.mul_comm, Nat.mul_add_div (by omega), Nat.div_eq_of_lt hr, Nat.add_zero]
    have hm : (k * d + r) % d = r := by
      rw [Nat.mul_comm, Nat.mul_add_mod, Nat.mod_eq_of_lt hr]
    rw [hq, hm, if_pos (Or.inl (by omega))]
  · cases k with
    | zero =>
      obtain rfl : n = 0 := by omega
      rw [if_pos (by rw [Nat.zero_mod]; omega), Nat.zero_div]
    | succ k =>
      rw [Nat.add_one_mul k d] at lower upper h
      obtain ⟨r, rfl⟩ := Nat.exists_eq_add_of_le (show k * d ≤ n by omega)
      rcases Nat.lt_or_ge r d with hr | hr
      · have hq : (k * d + r) / d = k := by
          rw [Nat.mul_comm, Nat.mul_add_div (by omega), Nat.div_eq_of_lt hr, Nat.add_zero]
        have hm : (k * d + r) % d = r := by
          rw [Nat.mul_comm, Nat.mul_add_mod, Nat.mod_eq_of_lt hr]
        rw [hq, hm, if_neg (by omega)]
      · obtain rfl : r = d := by omega
        have hq : (k * r + r) / r = k + 1 := by
          rw [← Nat.add_one_mul, Nat.mul_div_cancel _ (by omega)]
        have hm : (k * r + r) % r = 0 := by rw [← Nat.add_one_mul, Nat.mul_mod_left]
        rw [hq, hm, if_pos (Or.inl (by omega))]

theorem roundDiv_mul_right (h : 0 < a) : roundDiv (n * a) (d * a) = roundDiv n d := by
  have hlt : 2 * (n % d * a) < d * a ↔ 2 * (n % d) < d := by
    rw [← Nat.mul_assoc]
    exact Nat.mul_lt_mul_right h
  have heq : 2 * (n % d * a) = d * a ↔ 2 * (n % d) = d := by
    rw [← Nat.mul_assoc]
    exact Nat.mul_left_inj (by omega)
  unfold roundDiv
  simp only [Nat.mul_div_mul_right _ _ h, Nat.mul_mod_mul_right, hlt, heq]

theorem log2_div (hd : 0 < d) (lower : 2 ^ a * d ≤ u) (upper : u < 2 ^ (a + 1) * d) :
    (u / d).log2 = a := by
  have hlo : 2 ^ a ≤ u / d := (Nat.le_div_iff_mul_le hd).mpr lower
  have hhi : u / d < 2 ^ (a + 1) := (Nat.div_lt_iff_lt_mul hd).mpr upper
  have hne : u / d ≠ 0 := by
    have := Nat.two_pow_pos a
    omega
  exact (Nat.log2_eq_iff hne).mpr ⟨hlo, hhi⟩

theorem log2_div_lt (hd : 0 < d) (ha : 0 < a) (upper : u < 2 ^ a * d) : (u / d).log2 < a := by
  rcases Nat.eq_zero_or_pos (u / d) with h | h
  · rw [h, Nat.log2_zero]
    exact ha
  · exact (Nat.log2_lt (by omega)).mpr ((Nat.div_lt_iff_lt_mul hd).mpr upper)

theorem nearest_mul_right (h : 0 < a) : nearest (n * a) (d * a) = nearest n d := by
  unfold nearest
  simp only [Nat.mul_right_comm _ a, Nat.mul_div_mul_right _ _ h, roundDiv_mul_right h]

theorem nearest_congr (hd : 0 < d) (hd' : 0 < d') (h : n * d' = n' * d) :
    nearest n d = nearest n' d' := by
  rw [← nearest_mul_right (n := n) (d := d) hd', ← nearest_mul_right (n := n') (d := d') hd, h,
    Nat.mul_comm d d']

end

/-! ## Magnitudes -/

theorem scale_significand (m : Nat) : scale m * 2 ^ 52 + significand m = m := by
  unfold significand scale
  omega

theorem significand_lt (m : Nat) : significand m < 2 ^ 53 := by
  unfold significand scale
  omega

theorem le_significand {m : Nat} (h : 0 < scale m) : 2 ^ 52 ≤ significand m := by
  unfold significand scale at *
  omega

/-- The first magnitude of a scale, counted from the scale below. -/
theorem scale_succ (t : Nat) : (t + 1) * 2 ^ 52 + 2 ^ 52 = t * 2 ^ 52 + 2 ^ 53 := by
  omega

theorem nearest_eq_of_close {n d m : Nat} (hd : 0 < d)
    (lower : 4 * (units m * d) < 4 * (n * 2 ^ 1074) + 2 ^ scale m * d)
    (upper : 4 * (n * 2 ^ 1074) < 4 * (units m * d) + 2 ^ scale m * d) : nearest n d = m := by
  have hsum := scale_significand m
  have hlt := significand_lt m
  have hge := le_significand (m := m)
  unfold units at lower upper
  unfold nearest
  dsimp only
  generalize significand m = k at *
  generalize scale m = t at *
  generalize n * 2 ^ 1074 = u at *
  simp only [Nat.mul_assoc k] at lower upper
  generalize hD : 2 ^ t * d = D at *
  have hpos : 0 < D := hD ▸ Nat.mul_pos (Nat.two_pow_pos t) hd
  have same (hs : (u / d).log2 - 52 = t) :
      ((u / d).log2 - 52) * 2 ^ 52 + roundDiv u (d * 2 ^ ((u / d).log2 - 52)) = m := by
    rw [hs, Nat.mul_comm d, hD, roundDiv_eq_of_close (k := k) (by omega) (by omega)]
    exact hsum
  have hk : k * D ≤ (2 ^ 53 - 1) * D := Nat.mul_le_mul_right D (by omega)
  rcases Nat.lt_or_ge u (2 ^ 52 * D) with hu | hu
  · rcases Nat.eq_zero_or_pos t with rfl | ht
    · have hlog := log2_div_lt (u := u) (a := 52) hd (by decide) (by
        rw [Nat.pow_zero, Nat.one_mul] at hD
        rwa [hD])
      exact same (by omega)
    · obtain ⟨t, rfl⟩ : ∃ s, t = s + 1 := ⟨t - 1, by omega⟩
      have hk52 : k = 2 ^ 52 := by
        have : ¬ 2 ^ 52 + 1 ≤ k := by
          intro h
          have := Nat.mul_le_mul_right D h
          omega
        have := hge ht
        omega
      subst hk52
      have hhalf : D = 2 * (d * 2 ^ t) := by
        rw [← hD, Nat.pow_succ, Nat.mul_comm d]
        ac_rfl
      generalize hE : d * 2 ^ t = E at *
      have hlog : (u / d).log2 = 52 + t := by
        refine log2_div hd ?_ ?_
        · rw [Nat.pow_add, Nat.mul_assoc, Nat.mul_comm _ d, hE]
          omega
        · rw [Nat.add_right_comm, Nat.pow_add, Nat.mul_assoc, Nat.mul_comm _ d, hE]
          omega
      rw [hlog, Nat.add_sub_cancel_left, hE,
        roundDiv_eq_of_close (k := 2 ^ 53) (by omega) (by omega), ← hsum, scale_succ]
  · have hlog : (u / d).log2 = 52 + t := by
      refine log2_div hd ?_ ?_
      · rw [Nat.pow_add, Nat.mul_assoc, hD]
        exact hu
      · rw [Nat.add_right_comm, Nat.pow_add, Nat.mul_assoc, hD]
        omega
    exact same (by omega)

/-- The same with the number and the double counted in `p`-th parts of a unit. -/
theorem nearest_eq_of_close_parts {n d m p num all : Nat} (hd : 0 < d)
    (hnum : n * 2 ^ 1074 * p = num * d) (hall : all = units m * p)
    (lower : 4 * all < 4 * num + 2 ^ scale m * p) (upper : 4 * num < 4 * all + 2 ^ scale m * p) :
    nearest n d = m := by
  refine nearest_eq_of_close hd ?_ ?_
  · refine Nat.lt_of_mul_lt_mul_right (a := p) ?_
    generalize n * 2 ^ 1074 = u at *
    calc 4 * (units m * d) * p = 4 * all * d := by rw [hall]; ac_rfl
      _ < (4 * num + 2 ^ scale m * p) * d := (Nat.mul_lt_mul_right hd).mpr lower
      _ = (4 * u + 2 ^ scale m * d) * p := by
          rw [Nat.add_mul, Nat.add_mul, Nat.mul_assoc 4, ← hnum]
          ac_rfl
  · refine Nat.lt_of_mul_lt_mul_right (a := p) ?_
    generalize n * 2 ^ 1074 = u at *
    calc 4 * u * p = 4 * num * d := by rw [Nat.mul_assoc, hnum, Nat.mul_assoc]
      _ < (4 * all + 2 ^ scale m * p) * d := (Nat.mul_lt_mul_right hd).mpr upper
      _ = (4 * (units m * d) + 2 ^ scale m * d) * p := by
          rw [Nat.add_mul, Nat.add_mul, hall]
          ac_rfl

end Binary64

end Criteria
