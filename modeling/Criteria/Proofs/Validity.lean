import Criteria.Condition
import Criteria.Proofs.Outcome

/-!
# Valid atoms

What the checks of a construction establish (`Comparison.Valid`, `TextTest.Valid`): a construction
succeeds exactly with a valid atom of its arguments, and negation keeps an atom valid, since an
operator and its dual want the same operands.
-/

namespace Criteria

structure Comparison.Valid (c : Comparison) : Prop where
  field : isBlank c.field = false
  present : c.operand ≠ .null
  elements : ∀ es, c.operand = .set es → .null ∉ es
  membership : c.operator.isMembership = true → ∃ es, c.operand = .set es

structure TextTest.Valid (t : TextTest) : Prop where
  operator : t.operator.isText = true
  field : isBlank t.field = false

def Atom.Valid : Atom → Prop
  | comparison c => c.Valid
  | text t => t.Valid

theorem requireField_eq_ok_iff {field : String} :
    requireField field = .ok () ↔ isBlank field = false := by
  simp [requireField]

theorem requireOperand_eq_ok_iff {a : Operand} :
    requireOperand a = .ok () ↔ a ≠ .null ∧ ∀ es, a = .set es → .null ∉ es := by
  cases a with
  | set es => simp [requireOperand, Operand.isNull_iff]
  | _ => simp [requireOperand]

theorem asSet_isNone_iff {a : Operand} : a.asSet.isNone = true ↔ ¬ ∃ es, a = .set es := by
  cases a <;> simp [Operand.asSet]

namespace Comparison

theorem build_eq_ok_iff {field : String} {operator : Operator} {operand : Operand} {c : Comparison} :
    build field operator operand = .ok c ↔ c = ⟨field, operator, operand⟩ ∧ c.Valid := by
  unfold build
  constructor
  · intro h
    obtain ⟨_, hf, h⟩ := except_bind_eq_ok_iff.mp h
    obtain ⟨_, ho, h⟩ := except_bind_eq_ok_iff.mp h
    obtain ⟨hn, hs⟩ := requireOperand_eq_ok_iff.mp ho
    split at h
    · cases h
    · next hm =>
      cases h
      rw [Bool.and_eq_true, asSet_isNone_iff, not_and, Classical.not_not] at hm
      exact ⟨rfl, requireField_eq_ok_iff.mp hf, hn, hs, hm⟩
  · rintro ⟨rfl, hv⟩
    have hm : ¬ (operator.isMembership && operand.asSet.isNone) = true := by
      rw [Bool.and_eq_true, asSet_isNone_iff, not_and, Classical.not_not]
      exact hv.membership
    rw [requireField_eq_ok_iff.mpr hv.field,
      requireOperand_eq_ok_iff.mpr ⟨hv.present, hv.elements⟩]
    exact if_neg hm

theorem Valid.negate {c : Comparison} (h : c.Valid) : c.negate.Valid :=
  ⟨h.field, h.present, h.elements, by simpa [Comparison.negate] using h.membership⟩

end Comparison

namespace TextTest

theorem build_eq_ok_iff {field : String} {operator : Operator} {text : String} {escaped : Bool}
    {t : TextTest} :
    build field operator text escaped = .ok t ↔ t = ⟨field, operator, text, escaped⟩ ∧ t.Valid := by
  unfold build
  constructor
  · intro h
    split at h
    · cases h
    · next ho =>
      obtain ⟨_, hf, h⟩ := except_bind_eq_ok_iff.mp h
      cases h
      exact ⟨rfl, by simpa using ho, requireField_eq_ok_iff.mp hf⟩
  · rintro ⟨rfl, ho, hf⟩
    have ho : ¬ (!operator.isText) = true := by simpa using ho
    rw [requireField_eq_ok_iff.mpr hf]
    exact if_neg ho

theorem Valid.negate {t : TextTest} (h : t.Valid) : t.negate.Valid :=
  ⟨by simpa [TextTest.negate] using h.operator, h.field⟩

end TextTest

theorem Atom.Valid.negate {a : Atom} (h : a.Valid) : a.negate.Valid := by
  cases a with
  | comparison c => exact Comparison.Valid.negate h
  | text t => exact TextTest.Valid.negate h

end Criteria
