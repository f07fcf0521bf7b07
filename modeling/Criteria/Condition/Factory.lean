import Criteria.Condition
import Criteria.OperandSet
import Criteria.Wildcards

/-!
# Building conditions

The factories check what they are given and record what they return, once, by the shape at its
root; a refusal is recorded instead. A comparison with a text is a text test, with every other
operand a comparison. A pattern is compiled before the field is looked at.
-/

namespace Criteria

namespace Condition

/-- A condition that a factory returns, or its refusal. -/
def announce (c : Except BuildError Condition) : Recorded BuildError Condition := do
  let c ← .ofBuild c
  .record (.built c.shape)
  return c

/-- The composite of the parts, recorded. -/
def gather {ε : Type} (k : Connective) (parts : List Condition) : Recorded ε Condition := do
  .record (.built .composite)
  return composite k parts

protected def all {ε : Type} (parts : List Condition) : Recorded ε Condition :=
  gather .all parts

protected def any {ε : Type} (parts : List Condition) : Recorded ε Condition :=
  gather .any parts

protected def and (a b : Condition) : Condition :=
  composite .all [a, b]

protected def or (a b : Condition) : Condition :=
  composite .any [a, b]

/-- The negation of a condition, recorded. -/
protected def not {ε : Type} (c : Condition) : Recorded ε Condition := do
  .record (.negated c.shape)
  return c.negate

/-- A field compared with an operand, which is checked before the field. -/
def compared (operator : Operator) (operand : Operand) (field : String) :
    Except BuildError Condition := do
  requireOperand operand
  match operand with
  | .text s => text <$> TextTest.build field operator s false
  | operand => comparison <$> Comparison.build field operator operand

protected def eq (operand : Operand) (field : String) : Recorded BuildError Condition :=
  announce (compared .eq operand field)

protected def ne (operand : Operand) (field : String) : Recorded BuildError Condition :=
  announce (compared .ne operand field)

protected def gt (operand : Operand) (field : String) : Recorded BuildError Condition :=
  announce (compared .gt operand field)

protected def ge (operand : Operand) (field : String) : Recorded BuildError Condition :=
  announce (compared .ge operand field)

protected def lt (operand : Operand) (field : String) : Recorded BuildError Condition :=
  announce (compared .lt operand field)

protected def le (operand : Operand) (field : String) : Recorded BuildError Condition :=
  announce (compared .le operand field)

/-- Both bounds are included; only the composite is recorded. -/
def between (min max : Operand) (field : String) : Recorded BuildError Condition :=
  announce do
    let lower ← compared .ge min field
    let upper ← compared .le max field
    return composite .all [lower, upper]

/-- A field looked up in a set of operands, none of which may be absent. -/
def member (operator : Operator) (operands : List Operand) (field : String) :
    Except BuildError Condition :=
  match OperandSet.ofList? operands with
  | none => .error (.missingArgument .values)
  | some es => comparison <$> Comparison.build field operator (.set es)

def isIn (operands : List Operand) (field : String) : Recorded BuildError Condition :=
  announce (member .isIn operands field)

def notIn (operands : List Operand) (field : String) : Recorded BuildError Condition :=
  announce (member .notIn operands field)

/-! ## Patterns -/

/-- A pattern as it stands. -/
def like (pattern field : String) : Recorded BuildError Condition :=
  announce (text <$> TextTest.build field .like pattern false)

def notLike (pattern field : String) : Recorded BuildError Condition :=
  announce (text <$> TextTest.build field .notLike pattern false)

def matching (operator : Operator) (single multi : Char) (before : Bool) (literal : String)
    (after : Bool) (field : String) : Recorded BuildError Condition := do
  let pattern ← compileLike single multi before literal after
  announce (text <$> TextTest.build field operator pattern true)

/-- A literal of the pattern language with the given wildcards. -/
def likeWith (literal : String) (single multi : Char) (field : String) :
    Recorded BuildError Condition :=
  matching .like single multi false literal false field

def notLikeWith (literal : String) (single multi : Char) (field : String) :
    Recorded BuildError Condition :=
  matching .notLike single multi false literal false field

/-- A literal in which the canonical wildcards stand for themselves. -/
def searching (operator : Operator) (before : Bool) (literal : String) (after : Bool)
    (field : String) : Recorded BuildError Condition :=
  matching operator singleWildcard multiWildcard before literal after field

def startsWith (literal field : String) : Recorded BuildError Condition :=
  searching .like false literal true field

def endsWith (literal field : String) : Recorded BuildError Condition :=
  searching .like true literal false field

def contains (literal field : String) : Recorded BuildError Condition :=
  searching .like true literal true field

def notStartsWith (literal field : String) : Recorded BuildError Condition :=
  searching .notLike false literal true field

def notEndsWith (literal field : String) : Recorded BuildError Condition :=
  searching .notLike true literal false field

def notContains (literal field : String) : Recorded BuildError Condition :=
  searching .notLike true literal true field

end Condition

end Criteria
