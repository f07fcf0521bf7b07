import Criteria.Recorded

/-!
# Event counters

Counters keep how often each event occurred and how many characters were escaped in all patterns
together. They have 64 bits and stay at their greatest value once they reach it.
-/

namespace Criteria

def countLimit : Nat := UInt64.size - 1

/-- Adds to a counter, up to the limit. -/
def addCount (c : UInt64) (n : Nat) : UInt64 :=
  .ofNat (min (c.toNat + n) countLimit)

structure OperationCounts where
  comparisonsBuilt : UInt64 := 0
  textsBuilt : UInt64 := 0
  compositesBuilt : UInt64 := 0
  negations : UInt64 := 0
  patternsCompiled : UInt64 := 0
  patternEscapes : UInt64 := 0
  deriving DecidableEq

structure RejectionCounts where
  missingArgument : UInt64 := 0
  sameWildcard : UInt64 := 0
  textOperator : UInt64 := 0
  setOperand : UInt64 := 0
  deriving DecidableEq

/-- The sum of all rejections, up to the limit. -/
def RejectionCounts.total (r : RejectionCounts) : UInt64 :=
  addCount (addCount (addCount r.missingArgument r.sameWildcard.toNat) r.textOperator.toNat)
    r.setOperand.toNat

structure Counters where
  operations : OperationCounts := {}
  rejections : RejectionCounts := {}
  deriving DecidableEq

namespace Counters

def zero : Counters := {}

def record (c : Counters) : Event → Counters
  | .built .comparison =>
    { c with operations.comparisonsBuilt := addCount c.operations.comparisonsBuilt 1 }
  | .built .text => { c with operations.textsBuilt := addCount c.operations.textsBuilt 1 }
  | .built .composite =>
    { c with operations.compositesBuilt := addCount c.operations.compositesBuilt 1 }
  | .negated _ => { c with operations.negations := addCount c.operations.negations 1 }
  | .patternCompiled escapes =>
    { c with operations := { c.operations with
        patternsCompiled := addCount c.operations.patternsCompiled 1
        patternEscapes := addCount c.operations.patternEscapes escapes } }
  | .rejected .missingArgument =>
    { c with rejections.missingArgument := addCount c.rejections.missingArgument 1 }
  | .rejected .sameWildcard =>
    { c with rejections.sameWildcard := addCount c.rejections.sameWildcard 1 }
  | .rejected .textOperator =>
    { c with rejections.textOperator := addCount c.rejections.textOperator 1 }
  | .rejected .setOperand =>
    { c with rejections.setOperand := addCount c.rejections.setOperand 1 }

end Counters

theorem toNat_addCount (c : UInt64) (n : Nat) :
    (addCount c n).toNat = min (c.toNat + n) countLimit := by
  unfold addCount countLimit UInt64.size
  simp only [UInt64.toNat_ofNat']
  omega

end Criteria
