import Criteria.Error
import Criteria.Json

/-!
# Reading values from JSON

Readers follow the text of a tree and stop at its first fault: where the text is not the JSON that
was wanted, or where a value that has been read to its end is refused. A reader of something that
stands in brackets is told how many may still be opened inside it; what is skipped may be of any
depth.

An enumeration is an object with a single member, which names the variant; a variant without
content is its name alone, or has the content `null`. A record is an object, in which unknown
members are skipped and known ones must occur once each, or the list of exactly its fields in
order.
-/

namespace Criteria

namespace Json

abbrev Reader (α : Type) := Json → Except DecodeError α

variable {α δ : Type}

def malformed : Except DecodeError α :=
  .error .malformed

/-- A value that is there, or none that was wanted. -/
def expect : Option α → Except DecodeError α
  | some a => .ok a
  | none => malformed

/-- A construction from what has been read. -/
def accept : Except BuildError α → Except DecodeError α
  | .ok a => .ok a
  | .error e => .error (.rejected e)

def readString : Reader String
  | string (some s) => .ok s
  | _ => malformed

def readChar : Reader Char
  | string (some s) =>
    match s.toList with
    | [c] => .ok c
    | _ => malformed
  | _ => malformed

def readBool : Reader Bool
  | bool b => .ok b
  | _ => malformed

/-- An integer for which there is a value. -/
def readInt (ofInt? : Int → Option α) : Reader α
  | number n => expect (n.toInt?.bind ofInt?)
  | _ => malformed

def readInt64 : Reader Int64 :=
  readInt fun n =>
    if Int64.minValue.toInt ≤ n ∧ n ≤ Int64.maxValue.toInt then some (.ofInt n) else none

def readUInt64 : Reader UInt64 :=
  readInt fun n => if 0 ≤ n ∧ n < UInt64.size then some (.ofNat n.toNat) else none

def readUInt8 : Reader UInt8 :=
  readInt fun n => if 0 ≤ n ∧ n < UInt8.size then some (.ofNat n.toNat) else none

/-- Any number; the nearest double has to be finite. -/
def readFloat : Reader Float64
  | number n => expect n.toFloat?
  | _ => malformed

def readItems (read : Reader α) : Items → Except DecodeError (List α)
  | .done => .ok []
  | .cut => malformed
  | .next v rest => do
    let a ← read v
    let as ← readItems read rest
    return a :: as

def readList (read : Reader α) : Reader (List α)
  | list items => readItems read items
  | _ => malformed

/-- A list of written values is read back if each of them is. -/
theorem readItems_ofList {read : Reader α} {write : α → Json} {as : List α}
    (h : ∀ a ∈ as, read (write a) = .ok a) :
    readItems read (Items.ofList (as.map write)) = .ok as := by
  induction as with
  | nil => rfl
  | cons a as ih =>
    have hr := ih fun b hb => h b (List.mem_cons_of_mem _ hb)
    simp only [List.map_cons, Items.ofList, readItems, h a List.mem_cons_self, hr]
    rfl

def readNull (a : α) : Reader α
  | null => .ok a
  | _ => malformed

/-- The name of a variant without content. -/
def readName (unit? : String → Option α) : Reader α
  | string (some s) => expect (unit? s)
  | _ => malformed

/-- A variant, named with its content. -/
def readTagged (content? : String → Option (Reader α)) : Reader α
  | object (.next (some tag) v rest) => do
    let read ← expect (content? tag)
    let a ← read v
    match rest with
    | .done => return a
    | _ => malformed
  | _ => malformed

/-- A variant that may have no content. -/
def readVariant (unit? : String → Option α) (content? : String → Option (Reader α)) : Reader α
  | string s => readName unit? (string s)
  | j => readTagged (fun tag =>
      match unit? tag with
      | some a => some (readNull a)
      | none => content? tag) j

/-- A variant of which none has content, with room for so many brackets. -/
def readUnit (unit? : String → Option α) : Nat → Reader α
  | 0 => readName unit?
  | _ + 1 => readVariant unit? fun _ => none

/-! ## Records -/

/-- A field of a record of which only some fields have been read. -/
structure Slot (δ : Type) where
  name : String
  isFilled : δ → Bool
  fill : δ → Reader δ

/-- The slot of a field of a draft. -/
def Slot.of (name : String) (get : δ → Option α) (put : δ → α → δ) (read : Reader α) : Slot δ where
  name
  isFilled d := (get d).isSome
  fill d j := put d <$> read j

/-- Fills the slots in the order of the members. -/
def readMembers (slots : List (Slot δ)) : δ → Members → Except DecodeError δ
  | d, .done => .ok d
  | _, .cut => malformed
  | _, .next none _ _ => malformed
  | d, .next (some key) v rest =>
    match slots.find? fun slot => slot.name = key with
    | none => if v.isWhole then readMembers slots d rest else malformed
    | some slot => do
      if slot.isFilled d then
        malformed
      let d ← slot.fill d v
      readMembers slots d rest

/-- Fills the slots in their own order. -/
def readFields : List (Slot δ) → δ → Items → Except DecodeError δ
  | [], d, .done => .ok d
  | slot :: slots, d, .next v rest => do
    let d ← slot.fill d v
    readFields slots d rest
  | _, _, _ => malformed

/-- A record, from a draft in which nothing is filled to one in which all is. -/
def readRecord (slots : List (Slot δ)) (empty : δ) (finish : δ → Option α) : Reader α
  | object members => do
    let d ← readMembers slots empty members
    expect (finish d)
  | list items => do
    let d ← readFields slots empty items
    expect (finish d)
  | _ => malformed

/-- How many brackets a text may have open at once. -/
def nestingLimit : Nat := 127

def decode (read : Reader α) (text : String) : Except DecodeError α :=
  match ofText text with
  | (none, _) => malformed
  | (some j, whole) => do
    let a ← read j
    if whole then return a else malformed

end Json

end Criteria
