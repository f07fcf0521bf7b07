import Criteria.Condition
import Criteria.Operand.Display

/-!
# Displayed conditions

A leaf is its field, the symbol of its operator and its operand; an escaped pattern names the
escape character. The parts of a composite stand between parentheses, joined by the word of the
connective, and a composite without parts is the connective's constant.
-/

namespace Criteria

def Comparison.chars (c : Comparison) : List Char :=
  c.field.toList ++ ' ' :: c.operator.symbol.toList ++ ' ' :: c.operand.chars

def TextTest.chars (t : TextTest) : List Char :=
  t.field.toList ++ ' ' :: t.operator.symbol.toList ++ ' ' :: quoted t.text ++
    if t.escaped then " ESCAPE '\\'".toList else []

def Comparison.display (c : Comparison) : String :=
  .ofList c.chars

def TextTest.display (t : TextTest) : String :=
  .ofList t.chars

namespace Condition

mutual

def chars : Condition → List Char
  | atom (.comparison c) => c.chars
  | atom (.text t) => t.chars
  | composite k [] => k.constant.toList
  | composite k (c :: cs) => '(' :: chars c ++ charsAll k.word.toList cs ++ [')']

/-- Further parts, each after the word that joins them. -/
def charsAll (word : List Char) : List Condition → List Char
  | [] => []
  | c :: cs => word ++ chars c ++ charsAll word cs

end

def display (c : Condition) : String :=
  .ofList c.chars

end Condition

end Criteria
