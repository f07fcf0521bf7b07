import Criteria.OperandSet
import Mathlib.Data.List.Chain

/-!
# Canonical operands

Comparing two operands the other way round gives the opposite result (`compare_swap`), so that a set
that is built by insertion is ascending, and an ascending list is already the set of its elements.
An operand is canonical if this holds of every set in it.
-/

namespace Criteria

theorem Float64.compare_swap (x y : Float64) : compare y x = (compare x y).swap :=
  Std.OrientedOrd.eq_swap (α := Int)

namespace Operand

mutual

theorem compare_swap (a b : Operand) : b.compare a = (a.compare b).swap := by
  match a with
  | .set as =>
    cases b with
    | set bs => exact compareAll_swap as bs
    | _ => rfl
  | .float x =>
    cases b with
    | float y => exact Float64.compare_swap x y
    | _ => rfl
  | .blob _ | .bool _ | .int _ | .null | .text _ | .uint _ =>
    cases b <;> first | rfl | exact Std.OrientedOrd.eq_swap

theorem compareAll_swap (as bs : List Operand) : compareAll bs as = (compareAll as bs).swap := by
  match as, bs with
  | [], [] | [], _ :: _ | _ :: _, [] => rfl
  | a :: as, b :: bs =>
    rw [compareAll, compareAll, compare_swap a b, compareAll_swap as bs, Ordering.swap_then]

end

end Operand

namespace OperandSet

/-- Whether each element comes before the next. -/
def Ascending (es : List Operand) : Prop :=
  es.IsChain fun a b => a.compare b = .lt

instance (es : List Operand) : Decidable (Ascending es) :=
  inferInstanceAs (Decidable (es.IsChain fun a b => a.compare b = .lt))

theorem ascending_insert (a : Operand) {es : List Operand} (h : Ascending es) :
    Ascending (insert a es) := by
  induction es with
  | nil => exact .singleton a
  | cons b rest ih =>
    unfold insert
    cases hab : a.compare b with
    | lt => exact .cons_cons hab h
    | eq => exact h
    | gt =>
      have hba : b.compare a = .lt := by rw [Operand.compare_swap a b, hab, Ordering.swap]
      cases rest with
      | nil => exact .cons_cons hba (.singleton a)
      | cons c rest =>
        obtain ⟨hbc, hrest⟩ := List.isChain_cons_cons.mp h
        have hi := ih hrest
        unfold insert at hi ⊢
        cases hac : a.compare c with
        | lt | eq | gt =>
          rw [hac] at hi
          first | exact .cons_cons hba hi | exact .cons_cons hbc hi

theorem ascending_ofList (as : List Operand) : Ascending (ofList as) := by
  induction as with
  | nil => exact .nil
  | cons a as ih => exact ascending_insert a ih

/-- An ascending list is the set of its elements. -/
theorem ofList_of_ascending {es : List Operand} (h : Ascending es) : ofList es = es := by
  induction es with
  | nil => rfl
  | cons a es ih =>
    show insert a (ofList es) = a :: es
    cases es with
    | nil => rfl
    | cons b es =>
      obtain ⟨hab, hes⟩ := List.isChain_cons_cons.mp h
      rw [ih hes, insert, hab]

end OperandSet

/-- What an operand is, or has in it at any depth of its sets. -/
inductive Operand.Holds : Operand → Operand → Prop where
  | self (a : Operand) : Holds a a
  | element {es : List Operand} {e a : Operand} (mem : e ∈ es) (h : Holds e a) : Holds (.set es) a

inductive Operand.Canonical : Operand → Prop where
  | scalar {a : Operand} (h : a.asSet = none) : Canonical a
  | set {es : List Operand} (ascending : OperandSet.Ascending es)
      (elements : ∀ a ∈ es, Canonical a) : Canonical (.set es)

theorem OperandSet.canonical_ofList {as : List Operand} (h : ∀ a ∈ as, a.Canonical) :
    (Operand.set (ofList as)).Canonical :=
  .set (ascending_ofList as) fun a ha => h a (mem_ofList.mp ha)

end Criteria
