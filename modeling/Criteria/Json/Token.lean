import Criteria.Json.Numeral

/-!
# JSON tokens

A text is scanned character by character into brackets, separators, the three words, numbers and
strings. Where it stops being JSON the tokens end with `junk`. A string whose escapes name half of
a surrogate pair has no value.
-/

namespace Criteria

inductive Token where
  | openList
  | closeList
  | openObject
  | closeObject
  | comma
  | colon
  | null
  | bool (b : Bool)
  | number (n : Numeral)
  | string (s : Option String)
  /-- What no JSON text contains here. -/
  | junk
  deriving DecidableEq

namespace Token

/-- A character of a string, or the code unit that an escape names by number. -/
inductive Piece where
  | char (c : Char)
  | unit (u : Nat)
  deriving DecidableEq

/-- The first half of a surrogate pair. -/
def isLead (u : Nat) : Bool :=
  decide (0xd800 ≤ u ∧ u < 0xdc00)

/-- The second half of a surrogate pair. -/
def isTrail (u : Nat) : Bool :=
  decide (0xdc00 ≤ u ∧ u < 0xe000)

def pair (lead trail : Nat) : Char :=
  .ofNat (0x10000 + (lead - 0xd800) * 0x400 + (trail - 0xdc00))

/-- The text that the pieces of a string spell. -/
def spell : List Piece → Option (List Char)
  | [] => some []
  | .char c :: rest => (spell rest).map (c :: ·)
  | .unit u :: .unit v :: rest =>
    if isLead u then
      if isTrail v then (spell rest).map (pair u v :: ·) else none
    else if isTrail u then none
    else (spell (.unit v :: rest)).map (.ofNat u :: ·)
  | .unit u :: rest =>
    if isLead u || isTrail u then none else (spell rest).map (.ofNat u :: ·)

/-- The string of its pieces, the latest first. -/
def ofPieces (read : List Piece) : Token :=
  string ((spell read.reverse).map String.ofList)

/-- The character that a backslash and a letter stand for. -/
def unescape? : Char → Option Char
  | '"' => some '"'
  | '\\' => some '\\'
  | '/' => some '/'
  | 'b' => some '\x08'
  | 'f' => some '\x0c'
  | 'n' => some '\n'
  | 'r' => some '\r'
  | 't' => some '\t'
  | _ => none

def hexDigit? (c : Char) : Option Nat :=
  if '0' ≤ c ∧ c ≤ '9' then some (c.toNat - '0'.toNat)
  else if 'a' ≤ c ∧ c ≤ 'f' then some (c.toNat - 'a'.toNat + 10)
  else if 'A' ≤ c ∧ c ≤ 'F' then some (c.toNat - 'A'.toNat + 10)
  else none

/-- How a character is written in a string: quotes, backslashes and control characters are
escaped, by a letter where there is one. -/
def escape (c : Char) : List Char :=
  if c = '"' ∨ c = '\\' then ['\\', c]
  else if c = '\x08' then ['\\', 'b']
  else if c = '\x0c' then ['\\', 'f']
  else if c = '\n' then ['\\', 'n']
  else if c = '\r' then ['\\', 'r']
  else if c = '\t' then ['\\', 't']
  else if c.toNat < 0x20 then
    ['\\', 'u', '0', '0', (c.toNat / 16).digitChar, (c.toNat % 16).digitChar]
  else [c]

def chars : Token → List Char
  | openList => ['[']
  | closeList => [']']
  | openObject => ['\x7b']
  | closeObject => ['\x7d']
  | comma => [',']
  | colon => [':']
  | null => ['n', 'u', 'l', 'l']
  | bool true => ['t', 'r', 'u', 'e']
  | bool false => ['f', 'a', 'l', 's', 'e']
  | number n => n.chars
  | string (some s) => '"' :: s.toList.flatMap escape ++ ['"']
  | string none => ['"', '\\', 'u', 'd', '8', '0', '0', '"']
  | junk => ['?']

/-! ## Scanning -/

/-- What the scanner is inside of, with what it has read of it, the latest first. -/
inductive Mode where
  | between
  | word (read : List Char)
  | number (read : List Char)
  | string (read : List Piece)
  /-- After the backslash in a string. -/
  | escape (read : List Piece)
  /-- After a backslash and a `u`, with the digits so far. -/
  | unit (read : List Piece) (digits : List Nat)

def ofWord (read : List Char) : Option Token :=
  match read.reverse with
  | ['n', 'u', 'l', 'l'] => some null
  | ['t', 'r', 'u', 'e'] => some (bool true)
  | ['f', 'a', 'l', 's', 'e'] => some (bool false)
  | _ => none

def ofNumber (read : List Char) : Option Token :=
  (Numeral.ofChars? read.reverse).map number

def isNumberChar (c : Char) : Bool :=
  c.isDigit || c == '+' || c == '-' || c == '.' || c == 'e' || c == 'E'

/-- A character between two tokens: the token that it is, or the mode that it begins. -/
def start (c : Char) : Option (List Token × Mode) :=
  match c with
  | ' ' | '\n' | '\r' | '\t' => some ([], .between)
  | '[' => some ([openList], .between)
  | ']' => some ([closeList], .between)
  | '\x7b' => some ([openObject], .between)
  | '\x7d' => some ([closeObject], .between)
  | ',' => some ([comma], .between)
  | ':' => some ([colon], .between)
  | '"' => some ([], .string [])
  | c =>
    if c == '-' || c.isDigit then some ([], .number [c])
    else if c.isLower then some ([], .word [c])
    else none

/-- The tokens that a character completes and the mode after it, none where it is no JSON. -/
def step : Mode → Char → Option (List Token × Mode)
  | .between, c => start c
  | .word read, c =>
    if c.isLower then some ([], .word (c :: read))
    else do
      let token ← ofWord read
      let (tokens, mode) ← start c
      return (token :: tokens, mode)
  | .number read, c =>
    if isNumberChar c then some ([], .number (c :: read))
    else do
      let token ← ofNumber read
      let (tokens, mode) ← start c
      return (token :: tokens, mode)
  | .string read, c =>
    if c = '"' then some ([ofPieces read], .between)
    else if c = '\\' then some ([], .escape read)
    else if c.toNat < 0x20 then none
    else some ([], .string (.char c :: read))
  | .escape read, c =>
    if c = 'u' then some ([], .unit read [])
    else (unescape? c).map fun d => ([], .string (.char d :: read))
  | .unit read digits, c =>
    (hexDigit? c).map fun d =>
      let digits := digits ++ [d]
      if digits.length = 4 then
        ([], .string (.unit (digits.foldl (fun n d => 16 * n + d) 0) :: read))
      else ([], .unit read digits)

/-- The tokens that the end of the text completes. -/
def finish : Mode → List Token
  | .between => []
  | .word read => [(ofWord read).getD junk]
  | .number read => [(ofNumber read).getD junk]
  | .string _ | .escape _ | .unit _ _ => [junk]

/-- The tokens of a text that begins in the given mode. -/
def scan : Mode → List Char → List Token
  | mode, [] => finish mode
  | mode, c :: cs =>
    match step mode c with
    | none => [junk]
    | some (tokens, mode) => tokens ++ scan mode cs

def ofText (text : String) : List Token :=
  scan .between text.toList

end Token

end Criteria
