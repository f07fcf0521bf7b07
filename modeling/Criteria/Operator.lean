/-!
# Operators

The ten operators of an atomic condition. They come in dual pairs: on every operand one holds
exactly when its dual does not. `isIn` and `notIn` want a set of operands, every other operator
can also be applied to a text, and `like` and `notLike` read their text as a pattern. The order
of the operators is the order of their tags.
-/

namespace Criteria

inductive Operator where
  | eq
  | ne
  | gt
  | ge
  | lt
  | le
  | isIn
  | notIn
  | like
  | notLike
  deriving DecidableEq, Repr

namespace Operator

/-- Every operator, in ascending order. -/
def all : List Operator :=
  [eq, ne, gt, ge, lt, le, isIn, notIn, like, notLike]

/-- The name in messages and on the wire. -/
def name : Operator → String
  | eq => "EQUAL"
  | ne => "NOT_EQUAL"
  | gt => "GREATER_THAN"
  | ge => "GREATER_THAN_EQUAL"
  | lt => "LESS_THAN"
  | le => "LESS_THAN_EQUAL"
  | isIn => "IN"
  | notIn => "NOT_IN"
  | like => "LIKE"
  | notLike => "NOT_LIKE"

def ofName? (s : String) : Option Operator :=
  all.find? fun op => op.name = s

/-- The sign between field and operand in a displayed condition. -/
def symbol : Operator → String
  | eq => "="
  | ne => "<>"
  | gt => ">"
  | ge => ">="
  | lt => "<"
  | le => "<="
  | isIn => "IN"
  | notIn => "NOT IN"
  | like => "LIKE"
  | notLike => "NOT LIKE"

/-- A stable number, starting at 1. -/
def tag : Operator → Nat
  | eq => 1
  | ne => 2
  | gt => 3
  | ge => 4
  | lt => 5
  | le => 6
  | isIn => 7
  | notIn => 8
  | like => 9
  | notLike => 10

/-- The operator that holds exactly when this one fails. -/
def dual : Operator → Operator
  | eq => ne
  | ne => eq
  | gt => le
  | ge => lt
  | lt => ge
  | le => gt
  | isIn => notIn
  | notIn => isIn
  | like => notLike
  | notLike => like

/-- Whether the operand has to be a set. -/
def isMembership : Operator → Bool
  | isIn | notIn => true
  | _ => false

/-- Whether the operator can be applied to a text. -/
def isText (op : Operator) : Bool :=
  !op.isMembership

def isOrdering : Operator → Bool
  | gt | ge | lt | le => true
  | _ => false

/-- Whether the text is read as a pattern. -/
def isPattern : Operator → Bool
  | like | notLike => true
  | _ => false

instance : Ord Operator where
  compare a b := compare a.tag b.tag

/-- The operators in ascending order; equal ones keep their places. -/
def sort (ops : List Operator) : List Operator :=
  ops.mergeSort fun a b => (compare a b).isLE

@[simp] theorem dual_dual (op : Operator) : op.dual.dual = op := by
  cases op <;> rfl

@[simp] theorem isMembership_dual (op : Operator) : op.dual.isMembership = op.isMembership := by
  cases op <;> rfl

@[simp] theorem isText_dual (op : Operator) : op.dual.isText = op.isText := by
  cases op <;> rfl

@[simp] theorem isPattern_dual (op : Operator) : op.dual.isPattern = op.isPattern := by
  cases op <;> rfl

@[simp] theorem ofName?_name (op : Operator) : ofName? op.name = some op := by
  cases op <;> decide

end Operator

end Criteria
