import Criteria.Counters
import Criteria.Json.Reader

/-!
# Counters on the wire

A report is a record of the counters, which are the records of the operations and the rejections.
-/

namespace Criteria

open Json (Reader Slot)

def countJson (n : UInt64) : Json :=
  .number (.ofInt n.toNat)

namespace OperationCounts

def toJson (o : OperationCounts) : Json :=
  .ofMembers [("basic_built", countJson o.comparisonsBuilt), ("text_built", countJson o.textsBuilt),
    ("composite_built", countJson o.compositesBuilt), ("negations", countJson o.negations),
    ("patterns_compiled", countJson o.patternsCompiled),
    ("pattern_escapes", countJson o.patternEscapes)]

structure Draft where
  comparisonsBuilt : Option UInt64 := none
  textsBuilt : Option UInt64 := none
  compositesBuilt : Option UInt64 := none
  negations : Option UInt64 := none
  patternsCompiled : Option UInt64 := none
  patternEscapes : Option UInt64 := none

def slots : List (Slot Draft) :=
  [.of "basic_built" (·.comparisonsBuilt) (fun d n => { d with comparisonsBuilt := some n })
      Json.readUInt64,
    .of "text_built" (·.textsBuilt) (fun d n => { d with textsBuilt := some n }) Json.readUInt64,
    .of "composite_built" (·.compositesBuilt) (fun d n => { d with compositesBuilt := some n })
      Json.readUInt64,
    .of "negations" (·.negations) (fun d n => { d with negations := some n }) Json.readUInt64,
    .of "patterns_compiled" (·.patternsCompiled) (fun d n => { d with patternsCompiled := some n })
      Json.readUInt64,
    .of "pattern_escapes" (·.patternEscapes) (fun d n => { d with patternEscapes := some n })
      Json.readUInt64]

def Draft.finish (d : Draft) : Option OperationCounts := do
  return ⟨← d.comparisonsBuilt, ← d.textsBuilt, ← d.compositesBuilt, ← d.negations,
    ← d.patternsCompiled, ← d.patternEscapes⟩

def read : Reader OperationCounts :=
  Json.readRecord slots {} Draft.finish

end OperationCounts

namespace RejectionCounts

def toJson (r : RejectionCounts) : Json :=
  .ofMembers [("missing_argument", countJson r.missingArgument),
    ("same_wildcard", countJson r.sameWildcard), ("text_operator", countJson r.textOperator),
    ("set_operand", countJson r.setOperand)]

structure Draft where
  missingArgument : Option UInt64 := none
  sameWildcard : Option UInt64 := none
  textOperator : Option UInt64 := none
  setOperand : Option UInt64 := none

def slots : List (Slot Draft) :=
  [.of "missing_argument" (·.missingArgument) (fun d n => { d with missingArgument := some n })
      Json.readUInt64,
    .of "same_wildcard" (·.sameWildcard) (fun d n => { d with sameWildcard := some n })
      Json.readUInt64,
    .of "text_operator" (·.textOperator) (fun d n => { d with textOperator := some n })
      Json.readUInt64,
    .of "set_operand" (·.setOperand) (fun d n => { d with setOperand := some n }) Json.readUInt64]

def Draft.finish (d : Draft) : Option RejectionCounts := do
  return ⟨← d.missingArgument, ← d.sameWildcard, ← d.textOperator, ← d.setOperand⟩

def read : Reader RejectionCounts :=
  Json.readRecord slots {} Draft.finish

end RejectionCounts

namespace Counters

def toJson (c : Counters) : Json :=
  .ofMembers [("ops", c.operations.toJson), ("rejections", c.rejections.toJson)]

structure Draft where
  operations : Option OperationCounts
  rejections : Option RejectionCounts

def slots : List (Slot Draft) :=
  [.of "ops" (·.operations) (fun d v => { d with operations := some v }) OperationCounts.read,
    .of "rejections" (·.rejections) (fun d v => { d with rejections := some v })
      RejectionCounts.read]

def Draft.finish (d : Draft) : Option Counters := do
  return ⟨← d.operations, ← d.rejections⟩

def read : Reader Counters :=
  Json.readRecord slots ⟨none, none⟩ Draft.finish

def reportJson (c : Counters) : Json :=
  .ofMembers [("counters", c.toJson)]

def readReport : Reader Counters :=
  Json.readRecord [.of "counters" id (fun _ c => some c) read] none id

def decodeReport (text : String) : Except DecodeError Counters :=
  Json.decode readReport text

end Counters

end Criteria
