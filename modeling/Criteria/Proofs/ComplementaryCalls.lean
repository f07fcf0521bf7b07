import Criteria.Proofs.Answers
import Criteria.Proofs.Duals

/-!
# Complementary calls

Factories come in pairs, of which one makes the negation of what the other makes of the same
arguments, and for the arguments that one refuses the other is refused for the same reason
(`complementary_factories`). It comes down to requests: a request with the dual operator is answered
with the negated condition, or with the same fault, since no fault depends on which of the two
operators was asked for (`Recipe.Request.Answers.opposite`).

`between` has no such partner among the factories. What it makes is negated to a disjunction of two
comparisons, one for what is below the lower bound and one for what is above the upper
(`complementary_between`).
-/

namespace Criteria

open Condition

/-- Requests that differ in that their operators are dual. -/
inductive Recipe.Request.Opposite : Request → Request → Prop where
  | compare (operator : Operator) (a : Operand) (field : String) :
      Opposite (.compare operator a field) (.compare operator.dual a field)
  | lookUp (operator : Operator) (as : List Operand) (field : String) :
      Opposite (.lookUp operator as field) (.lookUp operator.dual as field)
  | test (operator : Operator) (pattern : String) (escaped : Bool) (field : String) :
      Opposite (.test operator pattern escaped field) (.test operator.dual pattern escaped field)
  | testLiteral (operator : Operator) (literal : String) (single multi : Char) (field : String) :
      Opposite (.testLiteral operator literal single multi field)
        (.testLiteral operator.dual literal single multi field)

theorem Recipe.Request.Answers.test_dual {operator : Operator} {pattern field : String}
    {escaped : Bool} {r : Except BuildError Condition}
    (h : Answers (.test operator pattern escaped field) r) :
    Answers (.test operator.dual pattern escaped field) (Condition.negate <$> r) := by
  cases h with
  | unnamedTest blank => exact .unnamedTest blank operator.dual pattern escaped
  | test named => exact .test named operator.dual pattern escaped

theorem Recipe.Request.Answers.opposite {p q : Request} {r : Except BuildError Condition}
    (h : p.Answers r) (hq : p.Opposite q) : q.Answers (Condition.negate <$> r) := by
  cases hq with
  | compare operator a field =>
    cases h with
    | absent => exact .absent operator.dual field
    | absentElement mem => exact .absentElement mem operator.dual field
    | unnamed given blank => exact .unnamed given blank operator.dual
    | literal s named => exact .literal s named operator.dual
    | comparison given plain named => exact .comparison given plain named operator.dual
  | lookUp operator as field =>
    cases h with
    | absentOperand mem => exact .absentOperand mem operator.dual field
    | unnamedLookUp given blank => exact .unnamedLookUp given blank operator.dual
    | lookUp given named => exact .lookUp given named operator.dual
  | test => exact h.test_dual
  | testLiteral operator literal single multi field =>
    cases h with
    | sameWildcard => exact .sameWildcard operator.dual literal single field
    | compiled w h => exact .compiled w h.test_dual

namespace Condition

/-- Whether each of two computations makes the negation of what the other makes, and each fails as
the other does. -/
def Complementary (r s : Recorded BuildError Condition) : Prop :=
  (r >>= Condition.not).outcome = s.outcome ∧ (s >>= Condition.not).outcome = r.outcome

theorem outcome_bind_not (r : Recorded BuildError Condition) :
    (r >>= Condition.not).outcome = negate <$> r.outcome := by
  rw [Recorded.outcome_bind]
  cases r.outcome <;> rfl

/-- It is enough that one makes the negation of what the other makes. -/
theorem complementary_iff {r s : Recorded BuildError Condition} :
    Complementary r s ↔ s.outcome = negate <$> r.outcome := by
  unfold Complementary
  rw [outcome_bind_not, outcome_bind_not]
  constructor
  · rintro ⟨h, -⟩
    exact h.symm
  · intro h
    refine ⟨h.symm, ?_⟩
    rw [h]
    cases r.outcome with
    | ok c => rw [except_map_ok, except_map_ok, negate_negate]
    | error e => rfl

theorem complementary_run (c d : Recipe.Call) (hc : c.IsFactory) (hd : d.IsFactory)
    (h : (c.request hc).Opposite (d.request hd)) : Complementary c.run d.run := by
  have hanswers := (c.answers_outcome hc).opposite h
  exact complementary_iff.mpr (Recipe.Call.outcome_of_answers hanswers)

theorem compared_dual (operator : Operator) (ho : operator.isMembership = false) (a : Operand)
    (field : String) : compared operator.dual a field = negate <$> compared operator a field := by
  obtain ⟨r, hr⟩ := (Recipe.Request.compare operator a field).exists_answers
  have hdual := (hr.opposite (.compare operator a field)).compared_eq
    (by rw [Operator.isMembership_dual, ho])
  rw [hdual, hr.compared_eq ho]

/-- What is not between two bounds is below the one or above the other. -/
theorem complementary_between (min max : Operand) (field : String) :
    Complementary (between min max field)
      (do
        let below ← Condition.lt min field
        let above ← Condition.gt max field
        Condition.any [below, above]) := by
  have hbelow : compared .lt min field = negate <$> compared .ge min field :=
    compared_dual .ge rfl min field
  have habove : compared .gt max field = negate <$> compared .le max field :=
    compared_dual .le rfl max field
  rw [complementary_iff, between]
  simp only [Recorded.outcome_bind, announce_outcome, Condition.lt, Condition.gt, hbelow, habove]
  cases compared .ge min field with
  | error e => rfl
  | ok lower =>
    cases compared .le max field with
    | error e => rfl
    | ok upper => rfl

/-- Each factory makes the negation of what its partner makes of the same arguments, and is refused
as the partner is. -/
theorem complementary_factories (a min max : Operand) (as : List Operand) (s : String)
    (single multi : Char) (field : String) :
    Complementary (Condition.eq a field) (Condition.ne a field) ∧
    Complementary (Condition.gt a field) (Condition.le a field) ∧
    Complementary (Condition.ge a field) (Condition.lt a field) ∧
    Complementary (isIn as field) (notIn as field) ∧
    Complementary (like s field) (notLike s field) ∧
    Complementary (likeWith s single multi field) (notLikeWith s single multi field) ∧
    Complementary (startsWith s field) (notStartsWith s field) ∧
    Complementary (endsWith s field) (notEndsWith s field) ∧
    Complementary (contains s field) (notContains s field) ∧
    Complementary (between min max field)
      (do
        let below ← Condition.lt min field
        let above ← Condition.gt max field
        Condition.any [below, above]) := by
  have hequal := complementary_run (.eq a field) (.ne a field) trivial trivial (.compare ..)
  have hgreater := complementary_run (.gt a field) (.le a field) trivial trivial (.compare ..)
  have hless := complementary_run (.ge a field) (.lt a field) trivial trivial (.compare ..)
  have hmember := complementary_run (.isIn as field) (.notIn as field) trivial trivial (.lookUp ..)
  have hlike := complementary_run (.like s field) (.notLike s field) trivial trivial (.test ..)
  have hliteral := complementary_run (.likeWith s single multi field)
    (.notLikeWith s single multi field) trivial trivial (.testLiteral ..)
  have hstarts := complementary_run (.startsWith s field) (.notStartsWith s field) trivial trivial
    (.test ..)
  have hends := complementary_run (.endsWith s field) (.notEndsWith s field) trivial trivial
    (.test ..)
  have hcontains := complementary_run (.contains s field) (.notContains s field) trivial trivial
    (.test ..)
  exact ⟨hequal, hgreater, hless, hmember, hlike, hliteral, hstarts, hends, hcontains,
    complementary_between min max field⟩

end Condition

end Criteria
