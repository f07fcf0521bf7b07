import Criteria.Condition.Factory
import Criteria.Condition.Normal
import Criteria.Wire.Condition

/-!
# Recipes

A recipe is a finite sequence of calls that makes a condition: factories, direct constructions,
decoding, connectives, negation and normalization, applied to arguments, to what other recipes make
and to conditions made earlier and bound to names. Its parts are made first, from left to right,
and the first failure ends it.
-/

namespace Criteria

/-- Conditions with their names, the latest first. -/
abbrev Bindings := List (String × Condition)

namespace Recipe

/-- A call that makes a condition from no other. -/
inductive Call where
  | eq (operand : Operand) (field : String)
  | ne (operand : Operand) (field : String)
  | gt (operand : Operand) (field : String)
  | ge (operand : Operand) (field : String)
  | lt (operand : Operand) (field : String)
  | le (operand : Operand) (field : String)
  | between (min max : Operand) (field : String)
  | isIn (operands : List Operand) (field : String)
  | notIn (operands : List Operand) (field : String)
  | like (pattern field : String)
  | notLike (pattern field : String)
  | likeWith (literal : String) (single multi : Char) (field : String)
  | notLikeWith (literal : String) (single multi : Char) (field : String)
  | startsWith (literal field : String)
  | endsWith (literal field : String)
  | contains (literal field : String)
  | notStartsWith (literal field : String)
  | notEndsWith (literal field : String)
  | notContains (literal field : String)
  | comparison (field : String) (operator : Operator) (operand : Operand)
  | text (field : String) (operator : Operator) (text : String) (escaped : Bool)

/-- Whether the call is one of a factory, not a direct construction of an atom. -/
def Call.IsFactory : Call → Prop
  | comparison .. | text .. => False
  | _ => True

instance : DecidablePred Call.IsFactory
  | .comparison .. | .text .. => .isFalse id
  | .eq .. | .ne .. | .gt .. | .ge .. | .lt .. | .le .. | .between .. | .isIn .. | .notIn ..
  | .like .. | .notLike .. | .likeWith .. | .notLikeWith .. | .startsWith .. | .endsWith ..
  | .contains .. | .notStartsWith .. | .notEndsWith .. | .notContains .. => .isTrue trivial

/-- Why a recipe makes no condition. -/
inductive Failure where
  | refused (e : BuildError)
  | undecodable (e : DecodeError)
  | unbound (name : String)
  | noPart (index : Nat)
  deriving DecidableEq, Repr

def Call.run : Call → Recorded BuildError Condition
  | eq a field => Condition.eq a field
  | ne a field => Condition.ne a field
  | gt a field => Condition.gt a field
  | ge a field => Condition.ge a field
  | lt a field => Condition.lt a field
  | le a field => Condition.le a field
  | between min max field => Condition.between min max field
  | isIn as field => Condition.isIn as field
  | notIn as field => Condition.notIn as field
  | like pattern field => Condition.like pattern field
  | notLike pattern field => Condition.notLike pattern field
  | likeWith s single multi field => Condition.likeWith s single multi field
  | notLikeWith s single multi field => Condition.notLikeWith s single multi field
  | startsWith s field => Condition.startsWith s field
  | endsWith s field => Condition.endsWith s field
  | contains s field => Condition.contains s field
  | notStartsWith s field => Condition.notStartsWith s field
  | notEndsWith s field => Condition.notEndsWith s field
  | notContains s field => Condition.notContains s field
  | comparison field op a => .ofBuild (.comparison <$> Comparison.build field op a)
  | text field op s escaped => .ofBuild (.text <$> TextTest.build field op s escaped)

end Recipe

inductive Recipe where
  | call (c : Recipe.Call)
  | decode (text : String)
  | bound (name : String)
  /-- A composite from its factory. -/
  | gather (k : Connective) (parts : List Recipe)
  /-- A composite constructed directly. -/
  | composite (k : Connective) (parts : List Recipe)
  | and (a b : Recipe)
  | or (a b : Recipe)
  | not (r : Recipe)
  /-- The negation of a condition by its shape, which is not recorded. -/
  | negate (r : Recipe)
  | normalize (r : Recipe)
  | part (r : Recipe) (index : Nat)
  /-- A direct composite of so many times the same condition. -/
  | copies (k : Connective) (n : Nat) (r : Recipe)
  /-- So many composites around a condition, each holding the one before and the same further
  conditions, with the connectives taken in turn. -/
  | layers (kinds : List Connective) (n : Nat) (r : Recipe) (beside : List Recipe)

namespace Recipe

def wrap (kinds : List Connective) (n : Nat) (c : Condition) (beside : List Condition) :
    Recorded Failure Condition :=
  (List.range n).foldlM (fun c i =>
    Condition.gather (kinds[i % kinds.length]?.getD .all) (c :: beside)) c

mutual

def run (bindings : Bindings) : Recipe → Recorded Failure Condition
  | call c => c.run.mapError .refused
  | decode text => (Recorded.ofDecode (Condition.decode text)).mapError .undecodable
  | bound name =>
    match bindings.lookup name with
    | some c => return c
    | none => .error (.unbound name)
  | gather k parts => do
    let cs ← runAll bindings parts
    Condition.gather k cs
  | composite k parts => do
    let cs ← runAll bindings parts
    return .composite k cs
  | and a b => do
    let a ← run bindings a
    let b ← run bindings b
    return a.and b
  | or a b => do
    let a ← run bindings a
    let b ← run bindings b
    return a.or b
  | not r => do
    let c ← run bindings r
    c.not
  | negate r => do
    let c ← run bindings r
    return c.negate
  | normalize r => do
    let c ← run bindings r
    return c.normalize
  | part r index => do
    let c ← run bindings r
    match c.parts[index]? with
    | some c => return c
    | none => .error (.noPart index)
  | copies k n r => do
    let c ← run bindings r
    return .composite k (.replicate n c)
  | layers kinds n r beside => do
    let c ← run bindings r
    let cs ← runAll bindings beside
    wrap kinds n c cs

def runAll (bindings : Bindings) : List Recipe → Recorded Failure (List Condition)
  | [] => return []
  | r :: rs => do
    let c ← run bindings r
    let cs ← runAll bindings rs
    return c :: cs

end

end Recipe

end Criteria
