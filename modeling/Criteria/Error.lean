import Criteria.Operator

/-!
# Errors

Why a construction is refused, and why a text cannot be decoded.
-/

namespace Criteria

inductive Argument where
  | field
  | value
  | values
  deriving DecidableEq, Repr

def Argument.name : Argument → String
  | field => "field"
  | value => "value"
  | values => "values"

inductive BuildError where
  /-- The field is blank, the operand absent, or absent operands are among the values. -/
  | missingArgument (argument : Argument)
  /-- One character cannot stand for one character and for any text. -/
  | sameWildcard (wildcard : Char)
  /-- The operator is not for texts. -/
  | textOperator (operator : Operator)
  /-- The operator wants a set. -/
  | setOperand (operator : Operator)
  deriving DecidableEq, Repr

/-- A refusal without its details. -/
inductive Rejection where
  | missingArgument
  | sameWildcard
  | textOperator
  | setOperand
  deriving DecidableEq, Repr

/-- Whether an argument is at fault or the operator is none for such an operand. -/
inductive Category where
  | invalidArgument
  | unsupported
  deriving DecidableEq, Repr

namespace BuildError

def rejection : BuildError → Rejection
  | missingArgument _ => .missingArgument
  | sameWildcard _ => .sameWildcard
  | textOperator _ => .textOperator
  | setOperand _ => .setOperand

def category : BuildError → Category
  | missingArgument _ | sameWildcard _ => .invalidArgument
  | textOperator _ | setOperand _ => .unsupported

def message : BuildError → String
  | missingArgument argument => "required argument '" ++ argument.name ++ "' is missing"
  | sameWildcard wildcard =>
    "cannot use the same character (" ++ wildcard.toString ++ ") for both types of wildcards"
  | textOperator operator =>
    "operator " ++ operator.name ++ " is not valid for a text restriction"
  | setOperand operator => "operator " ++ operator.name ++ " requires a set operand"

end BuildError

inductive DecodeError where
  /-- The text is not the JSON that was wanted. -/
  | malformed
  /-- A value in it was refused. -/
  | rejected (e : BuildError)
  deriving DecidableEq, Repr

end Criteria
