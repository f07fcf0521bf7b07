import Criteria.Json.Token

/-!
# JSON trees

A text is read up to where it stops being JSON, and the lists and objects that are open there end
with `cut`, so that a reader who follows the text sees what stands before the fault. A key, like a
string, may have no value.
-/

namespace Criteria

mutual

inductive Json where
  | null
  | bool (b : Bool)
  | number (n : Numeral)
  | string (s : Option String)
  | list (items : Items)
  | object (members : Members)

inductive Items where
  | done
  | cut
  | next (item : Json) (rest : Items)

inductive Members where
  | done
  | cut
  | next (key : Option String) (value : Json) (rest : Members)

end

def Items.ofList : List Json → Items
  | [] => done
  | v :: vs => next v (ofList vs)

def Members.ofList : List (String × Json) → Members
  | [] => done
  | (key, v) :: rest => next (some key) v (ofList rest)

/-- Puts items, the latest first, before others. -/
def Items.after (rest : Items) : List Json → Items
  | [] => rest
  | v :: before => Items.after (next v rest) before

/-- Puts members, the latest first, before others. -/
def Members.after (rest : Members) : List (Option String × Json) → Members
  | [] => rest
  | (key, v) :: before => Members.after (next key v rest) before

namespace Json

def ofString (s : String) : Json :=
  string (some s)

def ofList (vs : List Json) : Json :=
  list (.ofList vs)

def ofMembers (members : List (String × Json)) : Json :=
  object (.ofList members)

/-- An object with a single member. -/
def tagged (tag : String) (content : Json) : Json :=
  ofMembers [(tag, content)]

mutual

def tokens : Json → List Token
  | null => [.null]
  | bool b => [.bool b]
  | number n => [.number n]
  | string s => [.string s]
  | list items => .openList :: itemTokens [] items
  | object members => .openObject :: memberTokens [] members

/-- Every item after `separator`, which from the second on is a comma. -/
def itemTokens (separator : List Token) : Items → List Token
  | .done => [.closeList]
  | .cut => []
  | .next v rest => separator ++ tokens v ++ itemTokens [.comma] rest

def memberTokens (separator : List Token) : Members → List Token
  | .done => [.closeObject]
  | .cut => []
  | .next key v rest =>
    separator ++ .string key :: .colon :: tokens v ++ memberTokens [.comma] rest

end

/-- The text of a tree, without a blank. -/
def text (j : Json) : String :=
  .ofList (j.tokens.flatMap Token.chars)

/-! ## Reading -/

mutual

/-- Whether the text of the value was JSON to its end. -/
def isWhole : Json → Bool
  | list items => itemsWhole items
  | object members => membersWhole members
  | _ => true

def itemsWhole : Items → Bool
  | .done => true
  | .cut => false
  | .next v rest => isWhole v && itemsWhole rest

def membersWhole : Members → Bool
  | .done => true
  | .cut => false
  | .next _ v rest => isWhole v && membersWhole rest

end

/-- A list or an object that is being read, with what has been read of it, the latest first. -/
inductive Frame where
  | list (before : List Json)
  | object (before : List (Option String × Json)) (key : Option String)

/-- What has been read and what has to follow. -/
inductive State where
  | value (stack : List Frame)
  /-- The first item of a list, or its end. -/
  | listStart (stack : List Frame)
  /-- The first key of an object, or its end. -/
  | objectStart (stack : List Frame)
  | key (before : List (Option String × Json)) (stack : List Frame)
  | colon (before : List (Option String × Json)) (key : Option String) (stack : List Frame)
  /-- What may follow a value. -/
  | after (v : Json) (stack : List Frame)

namespace State

def onValue (stack : List Frame) : Token → Option State
  | .openList => some (listStart stack)
  | .openObject => some (objectStart stack)
  | .null => some (after .null stack)
  | .bool b => some (after (.bool b) stack)
  | .number n => some (after (.number n) stack)
  | .string s => some (after (.string s) stack)
  | _ => none

/-- The state after a token, none where the token must not stand. -/
def step : State → Token → Option State
  | value stack, t => onValue stack t
  | listStart stack, .closeList => some (after (.list .done) stack)
  | listStart stack, t => onValue (.list [] :: stack) t
  | objectStart stack, .closeObject => some (after (.object .done) stack)
  | objectStart stack, .string k => some (colon [] k stack)
  | key before stack, .string k => some (colon before k stack)
  | colon before k stack, .colon => some (value (.object before k :: stack))
  | after v (.list before :: stack), .comma => some (value (.list (v :: before) :: stack))
  | after v (.list before :: stack), .closeList =>
    some (after (.list (Items.done.after (v :: before))) stack)
  | after v (.object before k :: stack), .comma => some (key ((k, v) :: before) stack)
  | after v (.object before k :: stack), .closeObject =>
    some (after (.object (Members.done.after ((k, v) :: before))) stack)
  | _, _ => none

/-- Closes what is open, each list and object where it was cut. -/
def closeAll : Option Json → List Frame → Option Json
  | v, [] => v
  | v, .list before :: stack =>
    closeAll (some (.list (Items.cut.after (v.toList ++ before)))) stack
  | v, .object before k :: stack =>
    closeAll (some (.object (Members.cut.after (v.toList.map (k, ·) ++ before)))) stack

def tree : State → Option Json
  | value stack => closeAll none stack
  | listStart stack => closeAll (some (.list .cut)) stack
  | objectStart stack => closeAll (some (.object .cut)) stack
  | key before stack => closeAll (some (.object (Members.cut.after before))) stack
  | colon before _ stack => closeAll (some (.object (Members.cut.after before))) stack
  | after v stack => closeAll (some v) stack

/-- Follows the tokens as far as they are JSON; the flag tells whether that is to their end. -/
def run (s : State) : List Token → State × Bool
  | [] => (s, true)
  | t :: ts =>
    match s.step t with
    | none => (s, false)
    | some s => run s ts

end State

/-- The tree that tokens begin with, and whether they are that tree and nothing else. -/
def ofTokens (ts : List Token) : Option Json × Bool :=
  match (State.value []).run ts with
  | (.after v [], whole) => (some v, whole)
  | (s, _) => (s.tree, false)

def ofText (text : String) : Option Json × Bool :=
  ofTokens (Token.ofText text)

end Json

end Criteria
