import Criteria.Proofs.Matching
import Criteria.Proofs.Obtainable

/-!
# What factories answer

Each factory looks for what is wrong with its arguments in a fixed order, and answers with the first
fault it finds or with the condition that it was asked for (`Recipe.Request.Answers`). A comparison
looks at the operand, at its elements if it is a set, and then at the field; a lookup at its
operands and then at the field; a test with wildcards of its own at these and then at the field; any
other test only at the field. The bounds of `between` are two comparisons, of which the first that
is refused decides.

The constructions in which the factories end check more than that, some of it again and in another
order. Of what gets that far they refuse only a blank field, so that the rules are exact, and no
factory is refused because of its operator (`outcome_eq_iff`).
-/

namespace Criteria

/-- Whether an operand is there, and each of its elements if it is a set. -/
def Operand.IsGiven (a : Operand) : Prop :=
  a ≠ .null ∧ ∀ es, a = .set es → .null ∉ es

namespace Recipe

inductive Request where
  | compare (operator : Operator) (operand : Operand) (field : String)
  | between (min max : Operand) (field : String)
  | lookUp (operator : Operator) (operands : List Operand) (field : String)
  | test (operator : Operator) (pattern : String) (escaped : Bool) (field : String)
  /-- A test against a literal of the pattern language with these wildcards. -/
  | testLiteral (operator : Operator) (literal : String) (single multi : Char) (field : String)

open Wildcards (canonical) in
/-- What each factory asks for; the wildcards of a search are the canonical ones. -/
def Call.request : (c : Call) → c.IsFactory → Request
  | eq a field, _ => .compare .eq a field
  | ne a field, _ => .compare .ne a field
  | gt a field, _ => .compare .gt a field
  | ge a field, _ => .compare .ge a field
  | lt a field, _ => .compare .lt a field
  | le a field, _ => .compare .le a field
  | between min max field, _ => .between min max field
  | isIn as field, _ => .lookUp .isIn as field
  | notIn as field, _ => .lookUp .notIn as field
  | like pattern field, _ => .test .like pattern false field
  | notLike pattern field, _ => .test .notLike pattern false field
  | likeWith s single multi field, _ => .testLiteral .like s single multi field
  | notLikeWith s single multi field, _ => .testLiteral .notLike s single multi field
  | startsWith s field, _ => .test .like (canonical.pattern false s true) true field
  | endsWith s field, _ => .test .like (canonical.pattern true s false) true field
  | contains s field, _ => .test .like (canonical.pattern true s true) true field
  | notStartsWith s field, _ => .test .notLike (canonical.pattern false s true) true field
  | notEndsWith s field, _ => .test .notLike (canonical.pattern true s false) true field
  | notContains s field, _ => .test .notLike (canonical.pattern true s true) true field
  | comparison .., h | text .., h => h.elim

/-- What is answered to a request. Where a rule gives a fault or a condition, its premises leave none
of the faults that are looked for before. -/
inductive Request.Answers : Request → Except BuildError Condition → Prop where
  | absent (operator : Operator) (field : String) :
      Answers (.compare operator .null field) (.error (.missingArgument .value))
  | absentElement {es : List Operand} (mem : .null ∈ es) (operator : Operator) (field : String) :
      Answers (.compare operator (.set es) field) (.error (.missingArgument .values))
  | unnamed {a : Operand} {field : String} (given : a.IsGiven) (blank : isBlank field = true)
      (operator : Operator) :
      Answers (.compare operator a field) (.error (.missingArgument .field))
  | literal {field : String} (s : String) (named : isBlank field = false) (operator : Operator) :
      Answers (.compare operator (.text s) field) (.ok (.text ⟨field, operator, s, false⟩))
  | comparison {a : Operand} {field : String} (given : a.IsGiven) (plain : ∀ s, a ≠ .text s)
      (named : isBlank field = false) (operator : Operator) :
      Answers (.compare operator a field) (.ok (.comparison ⟨field, operator, a⟩))
  | lower {min : Operand} {field : String} {e : BuildError} (max : Operand)
      (min_refused : Answers (.compare .ge min field) (.error e)) :
      Answers (.between min max field) (.error e)
  | upper {min max : Operand} {field : String} {lower : Condition} {e : BuildError}
      (min_accepted : Answers (.compare .ge min field) (.ok lower))
      (max_refused : Answers (.compare .le max field) (.error e)) :
      Answers (.between min max field) (.error e)
  | both {min max : Operand} {field : String} {lower upper : Condition}
      (min_accepted : Answers (.compare .ge min field) (.ok lower))
      (max_accepted : Answers (.compare .le max field) (.ok upper)) :
      Answers (.between min max field) (.ok (.composite .all [lower, upper]))
  | absentOperand {as : List Operand} (mem : .null ∈ as) (operator : Operator) (field : String) :
      Answers (.lookUp operator as field) (.error (.missingArgument .values))
  | unnamedLookUp {as : List Operand} {field : String} (given : .null ∉ as)
      (blank : isBlank field = true) (operator : Operator) :
      Answers (.lookUp operator as field) (.error (.missingArgument .field))
  | lookUp {as : List Operand} {field : String} (given : .null ∉ as)
      (named : isBlank field = false) (operator : Operator) :
      Answers (.lookUp operator as field)
        (.ok (.comparison ⟨field, operator, .set (OperandSet.ofList as)⟩))
  | unnamedTest {field : String} (blank : isBlank field = true) (operator : Operator)
      (pattern : String) (escaped : Bool) :
      Answers (.test operator pattern escaped field) (.error (.missingArgument .field))
  | test {field : String} (named : isBlank field = false) (operator : Operator)
      (pattern : String) (escaped : Bool) :
      Answers (.test operator pattern escaped field)
        (.ok (.text ⟨field, operator, pattern, escaped⟩))
  | sameWildcard (operator : Operator) (literal : String) (wildcard : Char) (field : String) :
      Answers (.testLiteral operator literal wildcard wildcard field)
        (.error (.sameWildcard wildcard))
  | compiled {operator : Operator} {literal field : String} {r : Except BuildError Condition}
      (w : Wildcards) (h : Answers (.test operator (w.pattern false literal false) true field) r) :
      Answers (.testLiteral operator literal w.single w.multi field) r

end Recipe

section
variable {operator : Operator} {field text : String} {escaped : Bool} {a : Operand}

theorem requireOperand_set_of_mem {es : List Operand} (mem : .null ∈ es) :
    requireOperand (.set es) = .error (.missingArgument .values) :=
  if_pos (List.any_eq_true.mpr ⟨.null, mem, rfl⟩)

theorem Comparison.build_of_blank (blank : isBlank field = true) :
    build field operator a = .error (.missingArgument .field) := by
  rw [build, requireField, if_pos blank]
  rfl

theorem TextTest.build_of_blank (ho : operator.isText = true) (blank : isBlank field = true) :
    build field operator text escaped = .error (.missingArgument .field) := by
  rw [build, ho, requireField, if_pos blank]
  rfl

end

/-! ## Requests -/

namespace Recipe.Request

section
variable {operator : Operator} {field text literal : String} {escaped : Bool} {a : Operand}
  {as : List Operand} {single multi : Char} {r : Except BuildError Condition}

/-- Every request is answered, with the condition or with a fault of its arguments. -/
theorem exists_answers (q : Request) : ∃ r, q.Answers r := by
  have hcompare (operator : Operator) (a : Operand) (field : String) :
      ∃ r, Answers (.compare operator a field) r := by
    by_cases given : a.IsGiven
    · cases hfield : isBlank field with
      | true => exact ⟨_, .unnamed given hfield operator⟩
      | false =>
        by_cases htext : ∃ s, a = .text s
        · obtain ⟨s, rfl⟩ := htext
          exact ⟨_, .literal s hfield operator⟩
        · exact ⟨_, .comparison given (not_exists.mp htext) hfield operator⟩
    · by_cases hnull : a = .null
      · exact hnull ▸ ⟨_, .absent operator field⟩
      · obtain ⟨es, rfl, mem⟩ : ∃ es, a = .set es ∧ .null ∈ es := by
          simpa [Operand.IsGiven, hnull] using given
        exact ⟨_, .absentElement mem operator field⟩
  have htest (operator : Operator) (pattern : String) (escaped : Bool) (field : String) :
      ∃ r, Answers (.test operator pattern escaped field) r := by
    cases hfield : isBlank field with
    | true => exact ⟨_, .unnamedTest hfield operator pattern escaped⟩
    | false => exact ⟨_, .test hfield operator pattern escaped⟩
  cases q with
  | compare operator a field => exact hcompare operator a field
  | between min max field =>
    obtain ⟨(e | lower), hmin⟩ := hcompare .ge min field
    · exact ⟨_, .lower max hmin⟩
    · obtain ⟨(e | upper), hmax⟩ := hcompare .le max field
      · exact ⟨_, .upper hmin hmax⟩
      · exact ⟨_, .both hmin hmax⟩
  | lookUp operator as field =>
    by_cases mem : .null ∈ as
    · exact ⟨_, .absentOperand mem operator field⟩
    · cases hfield : isBlank field with
      | true => exact ⟨_, .unnamedLookUp mem hfield operator⟩
      | false => exact ⟨_, .lookUp mem hfield operator⟩
  | test operator pattern escaped field => exact htest operator pattern escaped field
  | testLiteral operator literal single multi field =>
    by_cases h : single = multi
    · exact h ▸ ⟨_, .sameWildcard operator literal single field⟩
    · obtain ⟨r, hr⟩ :=
        htest operator (Wildcards.pattern ⟨single, multi, h⟩ false literal false) true field
      exact ⟨r, .compiled ⟨single, multi, h⟩ hr⟩

open Condition

theorem Answers.compared_eq (h : Answers (.compare operator a field) r)
    (ho : operator.isMembership = false) : compared operator a field = r := by
  have htext : operator.isText = true := by rw [Operator.isText, ho, Bool.not_false]
  cases h with
  | absent => rfl
  | absentElement mem =>
    unfold compared
    rw [requireOperand_set_of_mem mem, except_error_bind]
  | unnamed given blank =>
    unfold compared
    rw [requireOperand_eq_ok_iff.mpr given, except_ok_bind]
    split
    · rw [TextTest.build_of_blank htext blank, except_map_error]
    · rw [Comparison.build_of_blank blank, except_map_error]
  | literal s named =>
    show Condition.text <$> TextTest.build field operator s false = _
    rw [TextTest.build_eq_ok_iff.mpr ⟨rfl, htext, named⟩, except_map_ok]
  | comparison given plain named =>
    have hbuild : Comparison.build field operator a = .ok ⟨field, operator, a⟩ := by
      refine Comparison.build_eq_ok_iff.mpr ⟨rfl, named, given.1, given.2, fun h => ?_⟩
      rw [ho] at h
      cases h
    unfold compared
    rw [requireOperand_eq_ok_iff.mpr given, except_ok_bind]
    split
    · next s => exact absurd rfl (plain s)
    · rw [hbuild, except_map_ok]

theorem Answers.between_eq {min max : Operand} (h : Answers (.between min max field) r) :
    (Condition.between min max field).outcome = r := by
  rw [Condition.between, announce_outcome]
  cases h with
  | lower max hmin => rw [hmin.compared_eq rfl, except_error_bind]
  | upper hmin hmax =>
    rw [hmin.compared_eq rfl, except_ok_bind, hmax.compared_eq rfl, except_error_bind]
  | both hmin hmax =>
    rw [hmin.compared_eq rfl, except_ok_bind, hmax.compared_eq rfl, except_ok_bind]
    rfl

theorem Answers.member_eq (h : Answers (.lookUp operator as field) r) :
    member operator as field = r := by
  unfold member
  cases h with
  | absentOperand mem => rw [OperandSet.ofList?_eq_none_iff.mpr mem]
  | unnamedLookUp given blank =>
    rw [OperandSet.ofList?_eq_some given]
    dsimp only
    rw [Comparison.build_of_blank blank, except_map_error]
  | lookUp given named =>
    have hbuild : Comparison.build field operator (.set (OperandSet.ofList as)) =
        .ok ⟨field, operator, .set (OperandSet.ofList as)⟩ := by
      refine Comparison.build_eq_ok_iff.mpr ⟨rfl, named, nofun, ?_, fun _ => ⟨_, rfl⟩⟩
      rintro _ ⟨⟩
      rwa [OperandSet.mem_ofList]
    rw [OperandSet.ofList?_eq_some given]
    dsimp only
    rw [hbuild, except_map_ok]

theorem Answers.test_eq (h : Answers (.test operator text escaped field) r)
    (ho : operator.isText = true) :
    Condition.text <$> TextTest.build field operator text escaped = r := by
  cases h with
  | unnamedTest blank => rw [TextTest.build_of_blank ho blank, except_map_error]
  | test named => rw [TextTest.build_eq_ok_iff.mpr ⟨rfl, ho, named⟩, except_map_ok]

theorem Answers.matching_eq (h : Answers (.testLiteral operator literal single multi field) r)
    (ho : operator.isText = true) :
    (matching operator single multi false literal false field).outcome = r := by
  cases h with
  | sameWildcard =>
    have hw : Wildcards.build single single = .error (.sameWildcard single) := dif_pos rfl
    simp only [matching, compileLike, hw, Recorded.outcome_bind, Recorded.outcome_ofBuild,
      except_error_bind]
  | compiled w h => rw [matching_outcome, h.test_eq ho]

/-- Nothing that a factory is asked for is refused because of the operator. -/
theorem Answers.ne_operator_refused {q : Request} (h : q.Answers r) (operator : Operator) :
    r ≠ .error (.textOperator operator) ∧ r ≠ .error (.setOperand operator) := by
  induction h with
  | lower max _ ih => exact ih
  | upper _ _ _ ih => exact ih
  | compiled w _ ih => exact ih
  | _ => exact ⟨nofun, nofun⟩

end

end Recipe.Request

/-! ## Factories -/

namespace Recipe.Call

open Condition in
theorem outcome_of_answers {c : Call} {h : c.IsFactory} {r : Except BuildError Condition}
    (hr : (c.request h).Answers r) : c.run.outcome = r := by
  cases c with
  | eq | ne | gt | ge | lt | le => exact (announce_outcome _).trans (hr.compared_eq rfl)
  | between => exact hr.between_eq
  | isIn | notIn => exact (announce_outcome _).trans hr.member_eq
  | like | notLike => exact (announce_outcome _).trans (hr.test_eq rfl)
  | likeWith | notLikeWith => exact hr.matching_eq rfl
  | startsWith | endsWith | contains | notStartsWith | notEndsWith | notContains =>
    exact (matching_outcome (w := .canonical)).trans (hr.test_eq rfl)
  | comparison | text => exact h.elim

theorem answers_outcome (c : Call) (h : c.IsFactory) : (c.request h).Answers c.run.outcome := by
  obtain ⟨r, hr⟩ := (c.request h).exists_answers
  rw [outcome_of_answers hr]
  exact hr

/-- A factory gives or refuses just what is answered to its request, whatever its arguments are, and
never refuses the operator. -/
theorem outcome_eq_iff (c : Call) (h : c.IsFactory) (r : Except BuildError Condition) :
    (c.run.outcome = r ↔ (c.request h).Answers r) ∧
      ∀ operator, c.run.outcome ≠ .error (.textOperator operator) ∧
        c.run.outcome ≠ .error (.setOperand operator) := by
  have hanswers := c.answers_outcome h
  refine ⟨⟨?_, outcome_of_answers⟩, hanswers.ne_operator_refused⟩
  rintro rfl
  exact hanswers

/-- Two faults each: the lower bound has a blank field before the upper has an absent element, and
the wildcards are the same before the field is blank. -/
theorem outcome_eq_iff_faults :
    let range : Call := .between (.set [.int 1]) (.set [.null]) " "
    let test : Call := .notLikeWith "50%" '%' '%' ""
    (range.IsFactory ∧ range.run.outcome = .error (.missingArgument .field)) ∧
      (test.IsFactory ∧ test.run.outcome = .error (.sameWildcard '%')) := by
  intro range test
  have hmin : (Operand.set [.int 1]).IsGiven := by simp [Operand.IsGiven]
  refine ⟨⟨trivial, ?_⟩, ⟨trivial, ?_⟩⟩
  · exact (outcome_eq_iff range trivial _).1.mpr (.lower _ (.unnamed hmin (by decide) .ge))
  · exact (outcome_eq_iff test trivial _).1.mpr (.sameWildcard .notLike "50%" '%' "")

end Recipe.Call

end Criteria
