import Criteria.Condition
import Criteria.Wire.Name
import Criteria.Wire.Operand

/-!
# Conditions on the wire

A condition is written with the name of its shape, and its atoms and composites are records. What
is read is checked as it is when it is built: an atom right after the bracket that closes it.
-/

namespace Criteria

open Json (Reader Slot)

namespace Comparison

def toJson (c : Comparison) : Json :=
  .ofMembers [("field", .ofString c.field), ("operator", c.operator.toJson),
    ("value", c.operand.toJson)]

structure Draft where
  field : Option String
  operator : Option Operator
  operand : Option Operand

def slots (room : Nat) : List (Slot Draft) :=
  [.of "field" (·.field) (fun d v => { d with field := some v }) Json.readString,
    .of "operator" (·.operator) (fun d v => { d with operator := some v }) (Operator.read room),
    .of "value" (·.operand) (fun d v => { d with operand := some v }) (Operand.read room)]

def Draft.finish (d : Draft) : Option (Except BuildError Comparison) := do
  return build (← d.field) (← d.operator) (← d.operand)

def read : Nat → Reader Comparison
  | 0 => fun _ => Json.malformed
  | room + 1 => fun j => do
    let c ← Json.readRecord (slots room) ⟨none, none, none⟩ Draft.finish j
    Json.accept c

def decode (text : String) : Except DecodeError Comparison :=
  Json.decode (read Json.nestingLimit) text

end Comparison

namespace TextTest

def toJson (t : TextTest) : Json :=
  .ofMembers [("field", .ofString t.field), ("operator", t.operator.toJson),
    ("value", .ofString t.text), ("escaped", .bool t.escaped)]

structure Draft where
  field : Option String
  operator : Option Operator
  text : Option String
  escaped : Option Bool

def slots (room : Nat) : List (Slot Draft) :=
  [.of "field" (·.field) (fun d v => { d with field := some v }) Json.readString,
    .of "operator" (·.operator) (fun d v => { d with operator := some v }) (Operator.read room),
    .of "value" (·.text) (fun d v => { d with text := some v }) Json.readString,
    .of "escaped" (·.escaped) (fun d v => { d with escaped := some v }) Json.readBool]

def Draft.finish (d : Draft) : Option (Except BuildError TextTest) := do
  return build (← d.field) (← d.operator) (← d.text) (← d.escaped)

def read : Nat → Reader TextTest
  | 0 => fun _ => Json.malformed
  | room + 1 => fun j => do
    let t ← Json.readRecord (slots room) ⟨none, none, none, none⟩ Draft.finish j
    Json.accept t

def decode (text : String) : Except DecodeError TextTest :=
  Json.decode (read Json.nestingLimit) text

end TextTest

/-! ## Trees -/

namespace Condition

/-- A composite is a record of its connective and the list of its parts. -/
def compositeJson (k : Connective) (parts : Items) : Json :=
  .ofMembers [("kind", k.toJson), ("children", .list parts)]

mutual

def toJson : Condition → Json
  | atom (.comparison c) => .tagged "Basic" c.toJson
  | atom (.text t) => .tagged "Text" t.toJson
  | composite k cs => .tagged "Composite" (compositeJson k (itemsOf cs))

def itemsOf : List Condition → Items
  | [] => .done
  | c :: cs => .next (toJson c) (itemsOf cs)

end

@[simp] theorem itemsOf_eq_ofList (cs : List Condition) :
    itemsOf cs = Items.ofList (cs.map toJson) := by
  induction cs <;> simp_all [itemsOf, Items.ofList]

structure Draft where
  kind : Option Connective
  parts : Option (List Condition)

def Draft.finish (d : Draft) : Option Condition := do
  return composite (← d.kind) (← d.parts)

def slots (room : Nat) (readParts : Reader (List Condition)) : List (Slot Draft) :=
  [.of "kind" (·.kind) (fun d v => { d with kind := some v }) (Connective.read room),
    .of "children" (·.parts) (fun d v => { d with parts := some v }) readParts]

mutual

/-- Reads a condition with room for so many brackets. -/
def read : Nat → Reader Condition
  | 0 => fun _ => Json.malformed
  | room + 1 => Json.readTagged fun
    | "Basic" => some fun j => comparison <$> Comparison.read room j
    | "Text" => some fun j => text <$> TextTest.read room j
    | "Composite" => some fun j => readComposite room j
    | _ => none

def readComposite : Nat → Reader Condition
  | 0 => fun _ => Json.malformed
  | room + 1 => Json.readRecord (slots room fun j => readParts room j) ⟨none, none⟩ Draft.finish

def readParts : Nat → Reader (List Condition)
  | 0 => fun _ => Json.malformed
  | room + 1 => Json.readList fun j => read room j

end

def encode (c : Condition) : String :=
  c.toJson.text

def decode (text : String) : Except DecodeError Condition :=
  Json.decode (read Json.nestingLimit) text

/-- Reads a composite that is written without the name of its shape. -/
def decodeComposite (text : String) : Except DecodeError Condition :=
  Json.decode (readComposite Json.nestingLimit) text

end Condition

end Criteria
