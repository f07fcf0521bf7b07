import Criteria.Float64.Shortest

/-!
# Operands

What a field is compared with. Operands are ordered first by kind, in the order of the constructors
below, and within a kind by value: bytes and sets lexicographically, `false` before `true`, numbers
by size, texts by code points. Numbers of different kinds are different operands. A set is the
ascending list of its elements without repetition.
-/

namespace Criteria

inductive Operand where
  | blob (bytes : List UInt8)
  | bool (b : Bool)
  | float (x : Float64)
  | int (n : Int64)
  | null
  | set (elements : List Operand)
  | text (s : String)
  | uint (n : UInt64)
  deriving Inhabited

namespace Operand

/-- The place of an operand's kind in the order. -/
def rank : Operand → Nat
  | blob _ => 0
  | bool _ => 1
  | float _ => 2
  | int _ => 3
  | null => 4
  | set _ => 5
  | text _ => 6
  | uint _ => 7

mutual

def compare : Operand → Operand → Ordering
  | blob a, blob b => Ord.compare a b
  | bool a, bool b => Ord.compare a b
  | float a, float b => Ord.compare a b
  | int a, int b => Ord.compare a b
  | null, null => .eq
  | set a, set b => compareAll a b
  | text a, text b => Ord.compare a.toList b.toList
  | uint a, uint b => Ord.compare a b
  | a, b => Ord.compare a.rank b.rank

/-- The lexicographic order of lists of operands. -/
def compareAll : List Operand → List Operand → Ordering
  | [], [] => .eq
  | [], _ :: _ => .lt
  | _ :: _, [] => .gt
  | a :: as, b :: bs => (compare a b).then (compareAll as bs)

end

instance : Ord Operand := ⟨compare⟩

def isNull : Operand → Bool
  | null => true
  | _ => false

theorem isNull_iff {a : Operand} : a.isNull = true ↔ a = null := by
  cases a <;> simp [isNull]

def asText : Operand → Option String
  | text s => some s
  | _ => none

def asSet : Operand → Option (List Operand)
  | set es => some es
  | _ => none

/-- Induction over the sets in each other, with the hypothesis for every element. -/
@[elab_as_elim, induction_eliminator]
theorem induct {motive : Operand → Prop} (scalar : ∀ a, a.asSet = none → motive a)
    (set : ∀ es, (∀ a ∈ es, motive a) → motive (.set es)) (a : Operand) : motive a := by
  refine @Operand.rec motive (fun es => ∀ a ∈ es, motive a) (fun _ => scalar _ rfl)
    (fun _ => scalar _ rfl) (fun _ => scalar _ rfl) (fun _ => scalar _ rfl) (scalar _ rfl) set
    (fun _ => scalar _ rfl) (fun _ => scalar _ rfl) ?_ ?_ a
  · simp
  · intro a es ha hes
    exact List.forall_mem_cons.mpr ⟨ha, hes⟩

/-- The operand of a double's pattern: there is none for what is not finite, so it is absent. -/
def ofBits (b : UInt64) : Operand :=
  match Float64.ofBits? b with
  | some x => float x
  | none => null

mutual

theorem compare_eq_iff {a b : Operand} : compare a b = .eq ↔ a = b := by
  match a with
  | .set as => cases b <;> simp [compare, rank, compareAll_eq_iff (l := as)]
  | .blob _ | .bool _ | .float _ | .int _ | .null | .text _ | .uint _ =>
    cases b <;> simp [compare, rank, Float64.compare_eq_iff, String.toList_inj]

theorem compareAll_eq_iff {l m : List Operand} : compareAll l m = .eq ↔ l = m := by
  match l, m with
  | [], [] | [], _ :: _ | _ :: _, [] => simp [compareAll]
  | a :: as, b :: bs =>
    simp [compareAll, Ordering.then_eq_eq, compare_eq_iff (a := a), compareAll_eq_iff (l := as)]

end

instance : DecidableEq Operand := fun _ _ => decidable_of_iff _ compare_eq_iff

end Operand

end Criteria
