import Criteria.Float64.Shortest

/-!
# JSON numbers

A numeral is a whole part without leading zeros, the places behind the point and an exponent of
ten. It is an integer when it has neither places nor an exponent; a negative zero is no integer.
Integers are written as such. A double is written with the fewest digits that are read back, of two
equally near decimals the even one: positionally and with at least one place from `10 ^ (-5)` up to
`10 ^ 16`, else with one digit before the point and a signed exponent.
-/

namespace Criteria

structure Numeral where
  negative : Bool
  whole : Nat
  /-- The digits behind the point; without any there is no point. -/
  places : List Char
  exponent : Option Int
  deriving DecidableEq

namespace Numeral

def ofInt (n : Int) : Numeral :=
  ⟨decide (n < 0), n.natAbs, [], none⟩

/-- The exponents of the first digit that are written positionally. -/
def isPositional (lead : Int) : Bool :=
  decide (-5 ≤ lead ∧ lead < 16)

def ofFloat (x : Float64) : Numeral :=
  let d := x.shortest .even
  let lead := d.point - 1
  if isPositional lead then
    ⟨x.isNegative, d.whole, if d.fraction.isEmpty then ['0'] else d.fraction, none⟩
  else
    let ds := digitsOf d.digits
    ⟨x.isNegative, numberOf (ds.take 1), ds.drop 1, some lead⟩

/-- The integer, if the numeral is one. -/
def toInt? (n : Numeral) : Option Int :=
  if n.places.isEmpty && n.exponent.isNone && !(n.negative && n.whole == 0) then
    some (if n.negative then -n.whole else n.whole)
  else none

/-- The absolute value; zeros at the end of the places are none of its digits. -/
def decimal (n : Numeral) : Decimal :=
  let places := dropZeros n.places
  ⟨n.whole * 10 ^ places.length + numberOf places, n.exponent.getD 0 - places.length⟩

/-- The nearest double, if that is finite. -/
def toFloat? (n : Numeral) : Option Float64 :=
  Float64.ofDecimal? n.negative n.decimal

/-- An exponent, which always has a sign. -/
def exponentChars (e : Int) : List Char :=
  'e' :: (if e < 0 then '-' else '+') :: digitsOf e.natAbs

def chars (n : Numeral) : List Char :=
  (if n.negative then ['-'] else []) ++ digitsOf n.whole ++
    (if n.places.isEmpty then [] else '.' :: n.places) ++
    (n.exponent.map exponentChars).getD []

/-- Reads digits of which only a single one may be a leading zero. -/
def readWhole (ds : List Char) : Option Nat :=
  match ds with
  | [] => none
  | ['0'] => some 0
  | '0' :: _ => none
  | ds => some (numberOf ds)

def readDigits (ds : List Char) : Option Nat :=
  if ds.isEmpty || !ds.all Char.isDigit then none else some (numberOf ds)

def readExponent : List Char → Option (Option Int)
  | [] => some none
  | e :: rest =>
    if e = 'e' ∨ e = 'E' then
      match rest with
      | '+' :: ds => (readDigits ds).map fun n => some n
      | '-' :: ds => (readDigits ds).map fun n => some (-n)
      | ds => (readDigits ds).map fun n => some n
    else none

/-- Reads what follows the sign. -/
def readUnsigned (negative : Bool) (cs : List Char) : Option Numeral := do
  let whole ← readWhole (cs.takeWhile Char.isDigit)
  match cs.dropWhile Char.isDigit with
  | '.' :: rest =>
    let places := rest.takeWhile Char.isDigit
    if places.isEmpty then none
    else return ⟨negative, whole, places, ← readExponent (rest.dropWhile Char.isDigit)⟩
  | rest => return ⟨negative, whole, [], ← readExponent rest⟩

def ofChars? : List Char → Option Numeral
  | '-' :: cs => readUnsigned true cs
  | cs => readUnsigned false cs

end Numeral

end Criteria
