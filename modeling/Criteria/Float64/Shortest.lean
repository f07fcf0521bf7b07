import Criteria.Decimal
import Criteria.Float64

/-!
# Decimal forms of doubles

A decimal is read as the nearest double, of two equally near ones as the even one. Only its first
768 digits are looked at: a number halfway between two doubles has no more, so it is enough to know
that there are digits behind them, and these count as a single 1. They do so even if they are
zeros, and a halfway number that is spelled out so far is read as the double beyond it.

A double is written with the fewest digits that are read back as it; where both neighbours on that
grid of decimals are, the nearer one is taken, and a `Tie` says which of two equally near ones.
-/

namespace Criteria

/-- Which of two equally near decimals is taken. -/
inductive Tie where
  | up
  | even
  deriving DecidableEq, Repr

/-- Whether a remainder rounds up, for a quotient with the given last digit. -/
def Tie.roundsUp (tie : Tie) (quotient remainder divisor : Nat) : Bool :=
  match compare (2 * remainder) divisor, tie with
  | .lt, _ => false
  | .gt, _ => true
  | .eq, .up => true
  | .eq, .even => quotient % 2 == 1

namespace Float64

/-- How many digits of a decimal are looked at. -/
def digitLimit : Nat := 768

/-- The magnitude a decimal is read as. Its power of ten is computed only where the result could
be neither zero nor infinite. -/
def magnitudeOf (d : Decimal) : Nat :=
  if d.digits = 0 ∨ d.point < -400 then 0
  else if 400 < d.point then Binary64.infinity
  else
    let d := d.condense digitLimit
    Binary64.nearest d.numerator d.denominator

/-- The number nearest to a decimal, none if that is infinite. -/
def ofDecimal? (negative : Bool) (d : Decimal) : Option Float64 :=
  let m := magnitudeOf d
  if m < Binary64.infinity then ofBits? (Binary64.pack negative m) else none

/-- The absolute value, exactly. -/
def exact (x : Float64) : Decimal :=
  ⟨Binary64.units x.magnitude * 5 ^ 1074, -1074⟩

/-- Of two neighbours the one that is read back, of both the upper one if that is wanted. -/
def nearer (reads : Decimal → Bool) (below above : Decimal) (up : Bool) : Option Decimal :=
  match reads below, reads above with
  | true, true => some (if up then above else below)
  | true, false => some below
  | false, true => some above
  | false, false => none

/-- The neighbour of the absolute value among the decimals with `n` digits that is read back. -/
def candidate (tie : Tie) (x : Float64) (n : Nat) : Option Decimal :=
  let all := x.exact.digits
  let dropped := (digitsOf all).length - n
  let step := 10 ^ dropped
  nearer (fun d => magnitudeOf d == x.magnitude) ⟨all / step, dropped - 1074⟩
    ⟨all / step + 1, dropped - 1074⟩ (tie.roundsUp (all / step) (all % step) step)

/-- The absolute value with the fewest digits that are read back. -/
def shortest (tie : Tie) (x : Float64) : Decimal :=
  if x.magnitude = 0 then ⟨0, 0⟩
  else
    let widths := (List.range (digitsOf x.exact.digits).length).map (· + 1)
    ((widths.findSome? (candidate tie x)).getD x.exact).trim

/-- The displayed form: always positional, and a tie goes up. -/
def display (x : Float64) : List Char :=
  (if x.isNegative then ['-'] else []) ++ (x.shortest .up).positional

end Float64

end Criteria
