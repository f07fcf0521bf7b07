import Criteria.Proofs.Evaluation

/-!
# The truth of negations

There is no node for negation: a condition is negated by taking the dual of every operator and every
connective in it. Where two atoms that differ only in that they have opposite operators always have
opposite values (`Opposed`), the negation of a condition has the opposite of its value
(`eval_negate`). Composites of any number of parts obey De Morgan's laws, since dual connectives
take opposite values to opposite values and their neutral values are opposite; unknown is its own
opposite.
-/

namespace Criteria

protected def Truth.not : Truth → Truth
  | no => yes
  | unknown => unknown
  | yes => no

namespace Connective

theorem neutral_dual (k : Connective) : k.dual.neutral = k.neutral.not := by
  cases k <;> rfl

theorem combine_dual (k : Connective) (s t : Truth) :
    k.dual.combine s.not t.not = (k.combine s t).not := by
  cases k <;> cases s <;> cases t <;> rfl

end Connective

/-- The pairs of operators of which on every operand just one holds. -/
inductive Operator.Opposite : Operator → Operator → Prop where
  | equal : Opposite eq ne
  | greater : Opposite gt le
  | less : Opposite lt ge
  | member : Opposite isIn notIn
  | pattern : Opposite like notLike

/-- The dual of every operator is its opposite. -/
theorem Operator.opposite_dual (op : Operator) : Opposite op op.dual ∨ Opposite op.dual op := by
  cases op with
  | eq => exact .inl .equal
  | ne => exact .inr .equal
  | gt => exact .inl .greater
  | le => exact .inr .greater
  | lt => exact .inl .less
  | ge => exact .inr .less
  | isIn => exact .inl .member
  | notIn => exact .inr .member
  | like => exact .inl .pattern
  | notLike => exact .inr .pattern

theorem Operator.Opposite.eq_dual {p q : Operator} (h : p.Opposite q) : q = p.dual := by
  cases h <;> rfl

/-- Whether atoms with opposite operators, and otherwise the same, have opposite values. -/
structure Opposed (v : Atom → Truth) : Prop where
  comparison {p q : Operator} (h : p.Opposite q) (field : String) (operand : Operand) :
    v (.comparison ⟨field, q, operand⟩) = (v (.comparison ⟨field, p, operand⟩)).not
  text {p q : Operator} (h : p.Opposite q) (field text : String) (escaped : Bool) :
    v (.text ⟨field, q, text, escaped⟩) = (v (.text ⟨field, p, text, escaped⟩)).not

theorem Truth.eq_not_comm {s t : Truth} : s = t.not ↔ t = s.not := by
  cases s <;> cases t <;> decide

/-- It comes to the same to say that negating an atom gives it the opposite value. -/
theorem opposed_iff {v : Atom → Truth} : Opposed v ↔ ∀ a : Atom, v a.negate = (v a).not := by
  constructor
  · intro h a
    cases a with
    | comparison c =>
      rcases c.operator.opposite_dual with hop | hop
      · exact h.comparison hop c.field c.operand
      · exact Truth.eq_not_comm.mp (h.comparison hop c.field c.operand)
    | text t =>
      rcases t.operator.opposite_dual with hop | hop
      · exact h.text hop t.field t.text t.escaped
      · exact Truth.eq_not_comm.mp (h.text hop t.field t.text t.escaped)
  · intro h
    refine ⟨fun {p q} hop field operand => ?_, fun {p q} hop field text escaped => ?_⟩
    · rw [hop.eq_dual]
      exact h (.comparison ⟨field, p, operand⟩)
    · rw [hop.eq_dual]
      exact h (.text ⟨field, p, text, escaped⟩)

/-! ## Trees -/

namespace Condition

theorem evalAll_dual {v : Atom → Truth} {k : Connective} {cs : List Condition}
    (h : ∀ c ∈ cs, eval v c.negate = (eval v c).not) :
    evalAll v k.dual (cs.map negate) = (evalAll v k cs).not := by
  induction cs with
  | nil => exact k.neutral_dual
  | cons c cs ih =>
    obtain ⟨hc, hcs⟩ := List.forall_mem_cons.mp h
    rw [List.map_cons, evalAll, evalAll, hc, ih hcs, Connective.combine_dual]

/-- The value of a negation is the opposite of the value of the condition. -/
theorem eval_negate (v : Atom → Truth) (h : Opposed v) (c : Condition) :
    eval v c.negate = (eval v c).not := by
  induction c with
  | atom a => exact opposed_iff.mp h a
  | composite k cs ih =>
    rw [negate, negateAll_eq_map, eval, eval, evalAll_dual ih]

theorem eval_negate_unknown_name :
    let v (a : Atom) : Truth :=
      if a.field = "name" then .unknown
      else if a.operator ∈ [.eq, .gt, .lt, .isIn, .like] then .yes
      else .no
    let c : Condition :=
      .composite .any [.atom (.comparison ⟨"age", .ge, .int 30⟩), .composite .any [],
        .composite .all [.composite .all [], .atom (.text ⟨"name", .notLike, "A%", true⟩)]]
    Opposed v ∧ eval v c = .unknown ∧ eval v c.negate = .unknown ∧
      eval v (composite .all [c, .atom (.comparison ⟨"age", .le, .int 65⟩)]).negate = .yes := by
  intro v c
  have h : Opposed v := by
    refine opposed_iff.mpr fun a => ?_
    have hfield : a.negate.field = a.field := by cases a <;> rfl
    have hoperator : a.negate.operator = a.operator.dual := by cases a <;> rfl
    simp only [v, hfield, hoperator]
    split
    · rfl
    · cases a.operator <;> rfl
  refine ⟨h, by decide, ?_, ?_⟩
  · rw [eval_negate v h c]
    decide
  · rw [eval_negate v h]
    decide

end Condition

end Criteria
