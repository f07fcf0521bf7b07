/-!
# Double-precision bit patterns

A pattern is a sign bit and a 63-bit magnitude. Below `infinity` a magnitude denotes the finite
number `significand · 2 ^ scale`, counted in units of `2 ^ (-1074)`: every finite double is a whole
number of those units, and a larger magnitude is a larger number. `infinity` itself is infinite,
and what lies above it is no number.

Powers of natural numbers are the core's, whatever else a module imports.
-/

namespace Criteria

@[default_instance 20000]
instance (priority := 20000) powNat : Pow Nat Nat := instPowNat

namespace Binary64

def isNegative (b : UInt64) : Bool :=
  decide (2 ^ 63 ≤ b.toNat)

/-- The pattern without its sign. -/
def magnitude (b : UInt64) : Nat :=
  b.toNat % 2 ^ 63

def pack (negative : Bool) (magnitude : Nat) : UInt64 :=
  .ofNat (if negative then 2 ^ 63 + magnitude else magnitude)

/-- The magnitude of the infinities. -/
def infinity : Nat :=
  2047 * 2 ^ 52

def isFinite (b : UInt64) : Bool :=
  decide (magnitude b < infinity)

def isNaN (b : UInt64) : Bool :=
  decide (infinity < magnitude b)

/-- Numeric equality: what is no number differs from everything, and the two zeros are equal. -/
def equal (a b : UInt64) : Bool :=
  !isNaN a && !isNaN b && (a == b || (magnitude a == 0 && magnitude b == 0))

/-- The place of a pattern in the total order of all patterns, negative zero before zero. -/
def rank (b : UInt64) : Int :=
  if isNegative b then -1 - magnitude b else magnitude b

/-- The exponent of two of a finite magnitude, in units. -/
def scale (m : Nat) : Nat :=
  m / 2 ^ 52 - 1

/-- The integer that `scale` scales; below `2 ^ 52` only where the scale is 0. -/
def significand (m : Nat) : Nat :=
  m - scale m * 2 ^ 52

/-- The number that a finite magnitude denotes, in units of `2 ^ (-1074)`. -/
def units (m : Nat) : Nat :=
  significand m * 2 ^ scale m

/-- The quotient rounded to the nearest integer, a half to the even one. -/
def roundDiv (n d : Nat) : Nat :=
  if 2 * (n % d) < d ∨ (2 * (n % d) = d ∧ n / d % 2 = 0) then n / d else n / d + 1

/-- The magnitude nearest to `n / d`, of two equally near ones the even one. Rounding up past the
last significand of a scale gives the first of the next, and past the last finite magnitude
infinity. -/
def nearest (n d : Nat) : Nat :=
  let u := n * 2 ^ 1074
  let s := (u / d).log2 - 52
  s * 2 ^ 52 + roundDiv u (d * 2 ^ s)

theorem rank_injective {a b : UInt64} (h : rank a = rank b) : a = b := by
  have ha := a.toNat_lt
  have hb := b.toNat_lt
  apply UInt64.toNat_inj.1
  unfold rank isNegative magnitude at h
  split at h <;> split at h <;> simp_all <;> omega

theorem pack_isNegative_magnitude (b : UInt64) : pack (isNegative b) (magnitude b) = b := by
  have hlt := b.toNat_lt
  apply UInt64.toNat_inj.mp
  unfold pack isNegative magnitude
  split
  · simp_all
    omega
  · simp_all

end Binary64

end Criteria
