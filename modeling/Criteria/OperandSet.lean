import Criteria.Operand

/-!
# Sets of operands

A set is kept as the ascending list of its elements, each once, so that equal sets are equal lists.
An element may be absent only in a set that is collected as it stands: `ofList?` refuses a list
with an absent operand.
-/

namespace Criteria

namespace OperandSet

/-- Puts an operand in its place; one that is there already stays as it is. -/
def insert (a : Operand) : List Operand → List Operand
  | [] => [a]
  | b :: rest =>
    match a.compare b with
    | .lt => a :: b :: rest
    | .eq => b :: rest
    | .gt => b :: insert a rest

/-- The set of the operands of a list. -/
def ofList (as : List Operand) : List Operand :=
  as.foldr insert []

/-- The set of the operands of a list in which none is absent. -/
def ofList? (as : List Operand) : Option (List Operand) :=
  if as.any Operand.isNull then none else some (ofList as)

@[simp] theorem mem_insert {a b : Operand} {es : List Operand} :
    b ∈ insert a es ↔ b = a ∨ b ∈ es := by
  induction es with
  | nil => simp [insert]
  | cons c rest ih =>
    simp only [insert]
    split
    · simp
    · rename_i h
      simp [Operand.compare_eq_iff.1 h]
    · simp [ih, or_left_comm]

@[simp] theorem mem_ofList {a : Operand} {as : List Operand} : a ∈ ofList as ↔ a ∈ as := by
  induction as with
  | nil => simp [ofList]
  | cons b rest ih => simp_all [ofList]

theorem ofList?_eq_none_iff {as : List Operand} : ofList? as = none ↔ .null ∈ as := by
  simp [ofList?, Operand.isNull_iff]

theorem ofList?_eq_some {as : List Operand} (given : .null ∉ as) :
    ofList? as = some (ofList as) := by
  simpa [ofList?, Operand.isNull_iff] using given

end OperandSet

namespace Operand

/-- The operands in ascending order; equal ones keep their places. -/
def sort (as : List Operand) : List Operand :=
  as.mergeSort fun a b => (a.compare b).isLE

end Operand

end Criteria
