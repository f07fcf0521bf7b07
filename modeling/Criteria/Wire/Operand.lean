import Criteria.Json.Reader
import Criteria.OperandSet

/-!
# Operands on the wire

An operand is written with the name of its kind; an absent one is that name alone. Bytes are a list
of integers, and a set is the list of its elements. A list that is read as a set may be in any
order and repeat itself, and absent elements are kept.
-/

namespace Criteria

namespace Operand

mutual

def toJson : Operand → Json
  | blob bytes => .tagged "Blob" (.ofList (bytes.map fun b => .number (.ofInt b.toNat)))
  | bool b => .tagged "Bool" (.bool b)
  | float x => .tagged "Float64" (.number (.ofFloat x))
  | int n => .tagged "Int" (.number (.ofInt n.toInt))
  | null => .ofString "Null"
  | set es => .tagged "Set" (.list (itemsOf es))
  | text s => .tagged "Text" (.ofString s)
  | uint n => .tagged "Uint" (.number (.ofInt n.toNat))

def itemsOf : List Operand → Items
  | [] => .done
  | a :: as => .next (toJson a) (itemsOf as)

end

@[simp] theorem itemsOf_eq_ofList (as : List Operand) :
    itemsOf as = Items.ofList (as.map toJson) := by
  induction as <;> simp_all [itemsOf, Items.ofList]

/-- The kind that has no content. -/
def unit? : String → Option Operand
  | "Null" => some null
  | _ => none

/-- Reads what stands in one bracket. -/
def readBytes : Nat → Json.Reader (List UInt8)
  | 0 => fun _ => Json.malformed
  | _ + 1 => Json.readList Json.readUInt8

mutual

/-- Reads an operand with room for so many brackets. -/
def read : Nat → Json.Reader Operand
  | 0 => Json.readName unit?
  | room + 1 => Json.readVariant unit? fun
    | "Blob" => some fun j => blob <$> readBytes room j
    | "Bool" => some fun j => bool <$> Json.readBool j
    | "Float64" => some fun j => float <$> Json.readFloat j
    | "Int" => some fun j => int <$> Json.readInt64 j
    | "Set" => some fun j => set <$> readSet room j
    | "Text" => some fun j => text <$> Json.readString j
    | "Uint" => some fun j => uint <$> Json.readUInt64 j
    | _ => none

/-- Reads a list of operands as a set. -/
def readSet : Nat → Json.Reader (List Operand)
  | 0 => fun _ => Json.malformed
  | room + 1 => fun j => OperandSet.ofList <$> Json.readList (read room) j

end

def decode (text : String) : Except DecodeError Operand :=
  Json.decode (read Json.nestingLimit) text

end Operand

namespace OperandSet

def toJson (es : List Operand) : Json :=
  .ofList (es.map Operand.toJson)

def decode (text : String) : Except DecodeError (List Operand) :=
  Json.decode (Operand.readSet Json.nestingLimit) text

end OperandSet

namespace Float64

def toJson (x : Float64) : Json :=
  .number (.ofFloat x)

def decode (text : String) : Except DecodeError Float64 :=
  Json.decode Json.readFloat text

end Float64

end Criteria
