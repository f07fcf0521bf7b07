/-!
# Connectives

How the parts of a composite condition are joined: `all` is conjunction and `any` is disjunction.
Each is the dual of the other, and the composite of no parts is the connective's neutral element.
-/

namespace Criteria

inductive Connective where
  | all
  | any
  deriving DecidableEq, Repr

namespace Connective

/-- The name in displayed text and on the wire. -/
def name : Connective → String
  | all => "ALL"
  | any => "ANY"

def ofName? (s : String) : Option Connective :=
  [all, any].find? fun k => k.name = s

def dual : Connective → Connective
  | all => any
  | any => all

/-- What stands between two displayed parts. -/
def word : Connective → String
  | all => " AND "
  | any => " OR "

/-- How a composite without parts is displayed. -/
def constant : Connective → String
  | all => "TRUE"
  | any => "FALSE"

/-- `all` comes before `any`. -/
instance : Ord Connective where
  compare
    | all, any => .lt
    | any, all => .gt
    | _, _ => .eq

@[simp] theorem dual_dual (k : Connective) : k.dual.dual = k := by
  cases k <;> rfl

theorem dual_ne (k : Connective) : k.dual ≠ k := by
  cases k <;> decide

theorem eq_dual_of_ne {j k : Connective} (h : j ≠ k) : j = k.dual := by
  cases j <;> cases k <;> simp_all [dual]

@[simp] theorem ofName?_name (k : Connective) : ofName? k.name = some k := by
  cases k <;> decide

end Connective

end Criteria
