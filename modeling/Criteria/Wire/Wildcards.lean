import Criteria.Json.Reader
import Criteria.Wildcards

/-!
# Wildcards on the wire

A pair of wildcards is a record of two characters, which have to differ.
-/

namespace Criteria

namespace Wildcards

def toJson (w : Wildcards) : Json :=
  .ofMembers [("single", .ofString w.single.toString), ("multi", .ofString w.multi.toString)]

structure Draft where
  single : Option Char
  multi : Option Char

def slots : List (Json.Slot Draft) :=
  [.of "single" (·.single) (fun d v => { d with single := some v }) Json.readChar,
    .of "multi" (·.multi) (fun d v => { d with multi := some v }) Json.readChar]

def Draft.finish (d : Draft) : Option (Except BuildError Wildcards) := do
  return build (← d.single) (← d.multi)

def read : Json.Reader Wildcards := fun j => do
  let w ← Json.readRecord slots ⟨none, none⟩ Draft.finish j
  Json.accept w

def decode (text : String) : Except DecodeError Wildcards :=
  Json.decode read text

end Wildcards

end Criteria
