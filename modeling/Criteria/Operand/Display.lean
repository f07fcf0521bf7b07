import Criteria.Operand

/-!
# Displayed operands

Bytes are written in hexadecimal, texts between single quotes, with a quote inside written twice,
and the elements of a set between parentheses, separated by a comma and a blank.
-/

namespace Criteria

def quoteMark : Char := '\x27'

/-- The text with every quote doubled. -/
def doubleQuotes (cs : List Char) : List Char :=
  cs.flatMap fun c => if c = quoteMark then [quoteMark, quoteMark] else [c]

def quoted (s : String) : List Char :=
  quoteMark :: doubleQuotes s.toList ++ [quoteMark]

namespace Operand

/-- A byte as two lower-case hexadecimal digits. -/
def hexPair (b : UInt8) : List Char :=
  [(b.toNat / 16).digitChar, (b.toNat % 16).digitChar]

mutual

def chars : Operand → List Char
  | blob bytes => '0' :: 'x' :: bytes.flatMap hexPair
  | bool b => if b then ['t', 'r', 'u', 'e'] else ['f', 'a', 'l', 's', 'e']
  | float x => x.display
  | int n => signedDigits n.toInt
  | null => ['N', 'U', 'L', 'L']
  | set es => '(' :: [',', ' '].intercalate (charsAll es) ++ [')']
  | text s => quoted s
  | uint n => digitsOf n.toNat

def charsAll : List Operand → List (List Char)
  | [] => []
  | a :: as => chars a :: charsAll as

end

@[simp] theorem charsAll_eq_map (as : List Operand) : charsAll as = as.map chars := by
  induction as <;> simp_all [charsAll]

def display (a : Operand) : String :=
  .ofList a.chars

end Operand

namespace OperandSet

def display (es : List Operand) : String :=
  (Operand.set es).display

end OperandSet

end Criteria
