import Criteria.Binary64

/-!
# Finite doubles

The numbers an operand can hold: finite, and with a single zero, so that equality of numbers,
equality of patterns and the total order of patterns agree.
-/

namespace Criteria

structure Float64 where
  bits : UInt64
  finite : Binary64.isFinite bits = true
  canonical : bits ≠ Binary64.pack true 0
  deriving DecidableEq, Repr

namespace Float64

def zero : Float64 :=
  ⟨0, by decide, by decide⟩

/-- The number of a pattern, none for the infinities and what is no number; negative zero is
stored as zero. -/
def ofBits? (b : UInt64) : Option Float64 :=
  if h : Binary64.isFinite b then
    if hz : b = Binary64.pack true 0 then some zero else some ⟨b, h, hz⟩
  else none

/-- The refusal of a pattern for which there is no number. -/
def refusal : String :=
  "non-finite float64 operand"

def isNegative (x : Float64) : Bool :=
  Binary64.isNegative x.bits

def magnitude (x : Float64) : Nat :=
  Binary64.magnitude x.bits

def equal (a b : Float64) : Bool :=
  Binary64.equal a.bits b.bits

instance : Ord Float64 where
  compare a b := compare (Binary64.rank a.bits) (Binary64.rank b.bits)

theorem compare_eq_iff {a b : Float64} : compare a b = .eq ↔ a = b := by
  constructor
  · intro h
    have := Binary64.rank_injective (Std.LawfulEqOrd.eq_of_compare h)
    cases a; cases b; simp_all
  · rintro rfl; exact Std.ReflOrd.compare_self (α := Int)

theorem ofBits?_bits (x : Float64) : ofBits? x.bits = some x := by
  simp [ofBits?, x.finite, x.canonical]

end Float64

end Criteria
