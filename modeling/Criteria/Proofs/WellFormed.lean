import Criteria.Proofs.Obtainable

/-!
# Well-formed conditions

What holds at every node of a condition, however it was made: its field has a character that is not
white space, its operand is there and has no absent element, a membership operator has a set, and a
text is never tested for membership. Nothing else does: every well-formed condition with canonical
operands can be made (`obtainable_iff_wellFormed`). Negating and normalizing rebuild nodes without
checking them again; they need not, since an operator is of the same kind as its dual, and a normal
form has no atom that was not there before.
-/

namespace Criteria

inductive Atom.WellFormed : Atom → Prop where
  | comparison {c : Comparison} (field : ∃ x ∈ c.field.toList, isWhiteSpace x = false)
      (present : c.operand ≠ .null) (elements : ∀ es, c.operand = .set es → .null ∉ es)
      (membership : c.operator = .isIn ∨ c.operator = .notIn → ∃ es, c.operand = .set es) :
      WellFormed (comparison c)
  | text {t : TextTest} (field : ∃ x ∈ t.field.toList, isWhiteSpace x = false)
      (operator : ¬ (t.operator = .isIn ∨ t.operator = .notIn)) : WellFormed (text t)

inductive Condition.WellFormed : Condition → Prop where
  | atom {a : Atom} (h : a.WellFormed) : WellFormed (atom a)
  | composite {k : Connective} {cs : List Condition} (parts : ∀ c ∈ cs, WellFormed c) :
      WellFormed (composite k cs)

theorem Operator.isMembership_iff {op : Operator} :
    op.isMembership = true ↔ op = isIn ∨ op = notIn := by
  cases op <;> decide

theorem Operator.isText_iff {op : Operator} : op.isText = true ↔ ¬ (op = isIn ∨ op = notIn) := by
  rw [← isMembership_iff, isText, Bool.not_eq_true', Bool.not_eq_true]

/-- The checks of a construction let just the well-formed atoms pass. -/
theorem Atom.wellFormed_iff_valid {a : Atom} : a.WellFormed ↔ a.Valid := by
  constructor
  · rintro (⟨field, present, elements, membership⟩ | ⟨field, operator⟩)
    · exact ⟨isBlank_eq_false_iff.mpr field, present, elements,
        fun h => membership (Operator.isMembership_iff.mp h)⟩
    · exact ⟨Operator.isText_iff.mpr operator, isBlank_eq_false_iff.mpr field⟩
  · intro h
    cases a with
    | comparison c =>
      exact .comparison (isBlank_eq_false_iff.mp h.field) h.present h.elements
        fun hop => h.membership (Operator.isMembership_iff.mpr hop)
    | text t =>
      exact .text (isBlank_eq_false_iff.mp h.field) (Operator.isText_iff.mp h.operator)

namespace Condition

theorem wellFormed_iff_every {c : Condition} : c.WellFormed ↔ c.Every Atom.Valid := by
  induction c with
  | atom a =>
    rw [every_atom, ← Atom.wellFormed_iff_valid]
    exact ⟨fun | .atom h => h, .atom⟩
  | composite k cs ih =>
    rw [every_composite]
    constructor
    · rintro (_ | h) c hc
      exact (ih c hc).mp (h c hc)
    · intro h
      exact .composite fun c hc => (ih c hc).mpr (h c hc)

theorem WellFormed.negate {c : Condition} (h : c.WellFormed) : c.negate.WellFormed :=
  wellFormed_iff_every.mpr ((wellFormed_iff_every.mp h).negate fun _ => Atom.Valid.negate)

theorem WellFormed.normalize {c : Condition} (h : c.WellFormed) : c.normalize.WellFormed :=
  wellFormed_iff_every.mpr (wellFormed_iff_every.mp h).normalize

/-- A condition can be made by a finite sequence of calls exactly if it is well-formed and has
canonical operands. -/
theorem obtainable_iff_wellFormed (c : Condition) :
    Obtainable c ↔ c.WellFormed ∧ c.Every Atom.Canonical := by
  rw [obtainable_iff, wellFormed_iff_every]
  constructor
  · intro h
    exact ⟨fun a ha => (h a ha).valid, fun a ha => (h a ha).canonical⟩
  · rintro ⟨hvalid, hcanonical⟩ a ha
    exact ⟨hvalid a ha, hcanonical a ha⟩

end Condition

end Criteria
