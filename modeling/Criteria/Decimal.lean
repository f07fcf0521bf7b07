import Criteria.Binary64

/-!
# Decimal numbers

A decimal is `digits · 10 ^ exponent`. Written positionally it has a whole part, and a fraction
with as many places as the exponent is below zero. The digits of a number are characters, the most
significant first and without a leading zero.
-/

namespace Criteria

def digitsOf (n : Nat) : List Char :=
  Nat.toDigits 10 n

def numberOf (ds : List Char) : Nat :=
  Nat.ofDigitChars 10 ds 0

@[simp] theorem numberOf_digitsOf (n : Nat) : numberOf (digitsOf n) = n :=
  Nat.ofDigitChars_toDigits (by decide) (by decide)

/-- Digits without the zeros at their end. -/
def dropZeros (ds : List Char) : List Char :=
  (ds.reverse.dropWhile (· == '0')).reverse

/-- An integer with a minus sign when it is negative. -/
def signedDigits : Int → List Char
  | .ofNat n => digitsOf n
  | .negSucc n => '-' :: digitsOf (n + 1)

structure Decimal where
  digits : Nat
  exponent : Int
  deriving DecidableEq, Repr

namespace Decimal

/-- The value is `numerator / denominator`. -/
def numerator (d : Decimal) : Nat :=
  d.digits * 10 ^ d.exponent.toNat

def denominator (d : Decimal) : Nat :=
  10 ^ (-d.exponent).toNat

theorem denominator_pos (d : Decimal) : 0 < d.denominator :=
  Nat.pow_pos (by decide)

/-- The number of digits before the point; below zero it counts the zeros behind the point. -/
def point (d : Decimal) : Int :=
  (digitsOf d.digits).length + d.exponent

/-- The same number without zeros at the end of its digits. -/
def trim (d : Decimal) : Decimal :=
  if d.digits = 0 ∨ d.digits % 10 ≠ 0 then d else trim ⟨d.digits / 10, d.exponent + 1⟩
termination_by d.digits
decreasing_by omega

/-- The decimal of the first `limit` digits; any further digits, zeros too, become a single 1. -/
def condense (limit : Nat) (d : Decimal) : Decimal :=
  let further := (digitsOf d.digits).length - limit
  if further = 0 then d else ⟨d.digits / 10 ^ further * 10 + 1, d.exponent + further - 1⟩

theorem condense_of_length_le {limit : Nat} {d : Decimal} (h : (digitsOf d.digits).length ≤ limit) :
    d.condense limit = d := by
  simp [condense, Nat.sub_eq_zero_of_le h]

def whole (d : Decimal) : Nat :=
  d.numerator / d.denominator

def fraction (d : Decimal) : List Char :=
  let places := (-d.exponent).toNat
  let ds := digitsOf (d.numerator % d.denominator)
  if places = 0 then [] else List.replicate (places - ds.length) '0' ++ ds

/-- The positional form; a point is written only before places. -/
def positional (d : Decimal) : List Char :=
  digitsOf d.whole ++ if d.fraction.isEmpty then [] else '.' :: d.fraction

end Decimal

end Criteria
