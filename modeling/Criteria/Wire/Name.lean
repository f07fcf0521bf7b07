import Criteria.Connective
import Criteria.Json.Reader

/-!
# Names on the wire

Operators and connectives are written as their names, and the library goes by its version.
-/

namespace Criteria

def version : String :=
  "0.4.0"

def Operator.toJson (op : Operator) : Json :=
  .ofString op.name

def Operator.read : Nat → Json.Reader Operator :=
  Json.readUnit ofName?

def Operator.decode (text : String) : Except DecodeError Operator :=
  Json.decode (read Json.nestingLimit) text

def Connective.toJson (k : Connective) : Json :=
  .ofString k.name

def Connective.read : Nat → Json.Reader Connective :=
  Json.readUnit ofName?

def Connective.decode (text : String) : Except DecodeError Connective :=
  Json.decode (read Json.nestingLimit) text

end Criteria
