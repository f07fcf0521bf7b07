import Criteria.Connective
import Criteria.Operand
import Criteria.Recorded

/-!
# Conditions

A condition is a tree. Its leaves test one field: a comparison with an operand, or a test against a
text, which for the pattern operators is a pattern and may be escaped. Its inner nodes join any
number of conditions by a connective. There is no node for negation: a condition is negated by
taking the dual of every operator and every connective in it.

A field name is opaque: any text that is not blank, kept as it is given. A text is blank when all
its characters have the Unicode property White_Space.
-/

namespace Criteria

/-- The characters with the property White_Space, as ranges of code points. -/
def whiteSpaceRanges : List (Nat × Nat) :=
  [(0x9, 0xd), (0x20, 0x20), (0x85, 0x85), (0xa0, 0xa0), (0x1680, 0x1680), (0x2000, 0x200a),
    (0x2028, 0x2029), (0x202f, 0x202f), (0x205f, 0x205f), (0x3000, 0x3000)]

def isWhiteSpace (c : Char) : Bool :=
  whiteSpaceRanges.any fun (first, last) => first ≤ c.toNat && c.toNat ≤ last

/-- Whether nothing but white space is in the text; the empty text is blank. -/
def isBlank (s : String) : Bool :=
  s.toList.all isWhiteSpace

theorem isBlank_eq_false_iff {s : String} :
    isBlank s = false ↔ ∃ c ∈ s.toList, isWhiteSpace c = false := by
  simp [isBlank]

structure Comparison where
  field : String
  operator : Operator
  operand : Operand
  deriving DecidableEq

structure TextTest where
  field : String
  operator : Operator
  text : String
  /-- Whether the text is a pattern that was compiled. -/
  escaped : Bool
  deriving DecidableEq

inductive Atom where
  | comparison (c : Comparison)
  | text (t : TextTest)
  deriving DecidableEq

inductive Condition where
  | atom (a : Atom)
  | composite (kind : Connective) (parts : List Condition)

def requireField (field : String) : Except BuildError Unit :=
  if isBlank field then .error (.missingArgument .field) else .ok ()

/-- Refuses an absent operand and a set that has one among its elements. -/
def requireOperand : Operand → Except BuildError Unit
  | .null => .error (.missingArgument .value)
  | .set es => if es.any Operand.isNull then .error (.missingArgument .values) else .ok ()
  | _ => .ok ()

namespace Comparison

/-- Checks the field, then the operand, then that a membership operator has a set. -/
def build (field : String) (operator : Operator) (operand : Operand) :
    Except BuildError Comparison := do
  requireField field
  requireOperand operand
  if operator.isMembership && operand.asSet.isNone then
    throw (.setOperand operator)
  return ⟨field, operator, operand⟩

def negate (c : Comparison) : Comparison :=
  { c with operator := c.operator.dual }

@[simp] theorem negate_negate (c : Comparison) : c.negate.negate = c := by
  simp [negate]

end Comparison

namespace TextTest

/-- Checks the operator, then the field. -/
def build (field : String) (operator : Operator) (text : String) (escaped : Bool) :
    Except BuildError TextTest := do
  if !operator.isText then
    throw (.textOperator operator)
  requireField field
  return ⟨field, operator, text, escaped⟩

def negate (t : TextTest) : TextTest :=
  { t with operator := t.operator.dual }

@[simp] theorem negate_negate (t : TextTest) : t.negate.negate = t := by
  simp [negate]

end TextTest

namespace Atom

def field : Atom → String
  | comparison c => c.field
  | text t => t.field

def operator : Atom → Operator
  | comparison c => c.operator
  | text t => t.operator

def negate : Atom → Atom
  | comparison c => comparison c.negate
  | text t => text t.negate

@[simp] theorem negate_negate (a : Atom) : a.negate.negate = a := by
  cases a <;> simp [negate]

end Atom

/-! ## Trees -/

namespace Condition

/-- Induction over a tree, with the hypothesis for every part of a composite. -/
@[elab_as_elim, induction_eliminator]
theorem induct {motive : Condition → Prop} (atom : ∀ a, motive (.atom a))
    (composite : ∀ k cs, (∀ c ∈ cs, motive c) → motive (.composite k cs)) (c : Condition) :
    motive c := by
  refine @Condition.rec motive (fun cs => ∀ c ∈ cs, motive c) atom composite ?_ ?_ c
  · simp
  · intro c cs hc hcs
    exact List.forall_mem_cons.mpr ⟨hc, hcs⟩

def shape : Condition → Shape
  | atom (.comparison _) => .comparison
  | atom (.text _) => .text
  | composite _ _ => .composite

def asAtom : Condition → Option Atom
  | atom a => some a
  | composite _ _ => none

def parts : Condition → List Condition
  | atom _ => []
  | composite _ cs => cs

def comparison (c : Comparison) : Condition :=
  atom (.comparison c)

def text (t : TextTest) : Condition :=
  atom (.text t)

mutual

def decEq : (a b : Condition) → Decidable (a = b)
  | atom a, atom b => decidable_of_iff (a = b) (by simp)
  | atom _, composite _ _ => isFalse (by simp)
  | composite _ _, atom _ => isFalse (by simp)
  | composite j as, composite k bs =>
    have := decEqAll as bs
    decidable_of_iff (j = k ∧ as = bs) (by simp)

def decEqAll : (as bs : List Condition) → Decidable (as = bs)
  | [], [] => isTrue rfl
  | [], _ :: _ => isFalse (by simp)
  | _ :: _, [] => isFalse (by simp)
  | a :: as, b :: bs =>
    have := decEq a b
    have := decEqAll as bs
    decidable_of_iff (a = b ∧ as = bs) (by simp)

end

instance : DecidableEq Condition := decEq

mutual

/-- The dual of every operator and connective. -/
def negate : Condition → Condition
  | atom a => atom a.negate
  | composite k cs => composite k.dual (negateAll cs)

def negateAll : List Condition → List Condition
  | [] => []
  | c :: cs => negate c :: negateAll cs

end

@[simp] theorem negateAll_eq_map (cs : List Condition) : negateAll cs = cs.map negate := by
  induction cs <;> simp_all [negateAll]

end Condition

end Criteria
