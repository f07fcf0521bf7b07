import Criteria.Condition.Factory
import Criteria.Proofs.Validity
import Mathlib.Data.List.Infix

/-!
# What patterns match

`Like` is the rule by which a pattern is matched: the character after the escape character stands
for itself, an unescaped `_` for any character, an unescaped `%` for any text, and every other
character for itself. A literal of another pattern language is read with the wildcards of that
language (`Wildcards.Yields`): they stand for the canonical wildcard characters, and the canonical
wildcards keep their meaning unless they are among them.

Escaping a literal gives a pattern for what the literal yields (`like_escape_append`), so a pattern
that was compiled for a search matches the texts that start with, end with or contain the literal.
-/

namespace Criteria

/-- Whether a pattern matches a text. A pattern that ends in the middle of an escape matches none. -/
def Like : List Char → List Char → Prop
  | [], t => t = []
  | c :: p, t =>
    if c = escapeChar then
      match p with
      | [] => False
      | x :: p => ∃ rest, t = x :: rest ∧ Like p rest
    else if c = singleWildcard then ∃ rest, (∃ x, t = x :: rest) ∧ Like p rest
    else if c = multiWildcard then ∃ skipped rest, t = skipped ++ rest ∧ Like p rest
    else ∃ rest, t = c :: rest ∧ Like p rest

/-- Whether a character of a literal of the pattern language with these wildcards stands for a
text. -/
def Wildcards.StandsFor (w : Wildcards) (c : Char) (t : List Char) : Prop :=
  if c = w.single then t = [singleWildcard]
  else if c = w.multi then t = [multiWildcard]
  else if c = singleWildcard then ∃ x, t = [x]
  else if c = multiWildcard then True
  else t = [c]

/-- Whether a text results from a literal, with a text for each of its characters. -/
def Wildcards.Yields (w : Wildcards) : List Char → List Char → Prop
  | [], t => t = []
  | c :: l, t => ∃ first rest, t = first ++ rest ∧ w.StandsFor c first ∧ Yields w l rest

section
variable {c x : Char} {p t : List Char}

@[simp] theorem like_nil : Like [] t ↔ t = [] := Iff.rfl

@[simp] theorem not_like_escape : ¬ Like [escapeChar] t := by
  rw [Like.eq_def]; simp

@[simp] theorem like_escape_cons :
    Like (escapeChar :: x :: p) t ↔ ∃ rest, t = x :: rest ∧ Like p rest := by
  rw [Like.eq_def]; simp

@[simp] theorem like_single :
    Like (singleWildcard :: p) t ↔ ∃ rest, (∃ x, t = x :: rest) ∧ Like p rest := by
  rw [Like.eq_def]; simp [singleWildcard, escapeChar]

@[simp] theorem like_multi :
    Like (multiWildcard :: p) t ↔ ∃ skipped rest, t = skipped ++ rest ∧ Like p rest := by
  rw [Like.eq_def]; simp [multiWildcard, singleWildcard, escapeChar]

theorem like_char (he : c ≠ escapeChar) (hs : c ≠ singleWildcard) (hm : c ≠ multiWildcard) :
    Like (c :: p) t ↔ ∃ rest, t = c :: rest ∧ Like p rest := by
  rw [Like.eq_def]; simp only [he, hs, hm, if_false]

end

/-! ## Matching by search -/

/-- Matches a pattern, trying what is left of the text everywhere for `%`. -/
def likeMatches : List Char → List Char → Bool
  | [], t => t.isEmpty
  | c :: p, t =>
    if c = escapeChar then
      match p with
      | [] => false
      | x :: p => t.head? == some x && likeMatches p t.tail
    else if c = singleWildcard then !t.isEmpty && likeMatches p t.tail
    else if c = multiWildcard then t.tails.any fun rest => likeMatches p rest
    else t.head? == some c && likeMatches p t.tail

theorem exists_eq_cons_iff {c : Char} {t : List Char} {P : List Char → Prop} :
    (∃ rest, t = c :: rest ∧ P rest) ↔ t.head? = some c ∧ P t.tail := by
  cases t <;> simp [eq_comm]

theorem exists_exists_eq_cons_iff {t : List Char} {P : List Char → Prop} :
    (∃ rest, (∃ c, t = c :: rest) ∧ P rest) ↔ t ≠ [] ∧ P t.tail := by
  cases t <;> simp

theorem exists_eq_append_iff {t : List Char} {P : List Char → Prop} :
    (∃ skipped rest, t = skipped ++ rest ∧ P rest) ↔ ∃ rest ∈ t.tails, P rest := by
  simp only [List.mem_tails, List.IsSuffix, eq_comm (a := t)]
  constructor
  · rintro ⟨skipped, rest, h, hp⟩; exact ⟨rest, ⟨skipped, h⟩, hp⟩
  · rintro ⟨rest, ⟨skipped, h⟩, hp⟩; exact ⟨skipped, rest, h, hp⟩

theorem likeMatches_iff {p t : List Char} : likeMatches p t = true ↔ Like p t := by
  fun_induction likeMatches p t with
  | case1 t => simp
  | case2 t => simp
  | case3 t x p ih => simp [exists_eq_cons_iff, ih]
  | case4 p t he ih => simp [exists_exists_eq_cons_iff, ih]
  | case5 p t he hs ih => simp only [like_multi, exists_eq_append_iff, List.any_eq_true, ih]
  | case6 c p t he hs hm ih => simp [like_char he hs hm, exists_eq_cons_iff, ih]

instance (p t : List Char) : Decidable (Like p t) :=
  decidable_of_iff _ likeMatches_iff

example : Like "a\\_%".toList "a_bc".toList ∧ ¬ Like "a\\_%".toList "axbc".toList := by decide

namespace Wildcards

section
variable {w : Wildcards} {c : Char} {l p t : List Char}

/-- The pattern for a character, before any other, matches what the character stands for. -/
theorem like_escapeOne_append :
    Like (w.escapeOne c ++ p) t ↔
      ∃ first rest, t = first ++ rest ∧ w.StandsFor c first ∧ Like p rest := by
  by_cases hs : c = w.single
  · simp only [escapeOne, escaped?, StandsFor, if_pos hs]; simp
  by_cases hm : c = w.multi
  · simp only [escapeOne, escaped?, StandsFor, if_neg hs, if_pos hm]; simp
  simp only [escapeOne, escaped?, StandsFor, if_neg hs, if_neg hm]
  by_cases he : c = escapeChar
  · have hcs : escapeChar ≠ singleWildcard := by decide
    have hcm : escapeChar ≠ multiWildcard := by decide
    subst he; simp [hcs, hcm]
  by_cases hcs : c = singleWildcard
  · subst hcs; simp [he]
  by_cases hcm : c = multiWildcard
  · subst hcm; simp [he, hcs]
  · simp [he, hcs, hcm, like_char]

theorem like_escape_append :
    Like (w.escape l ++ p) t ↔ ∃ first rest, t = first ++ rest ∧ w.Yields l first ∧ Like p rest := by
  induction l generalizing t with
  | nil => simp [escape, Yields]
  | cons c l ih =>
    rw [escape, List.flatMap_cons, List.append_assoc, like_escapeOne_append]
    constructor
    · rintro ⟨first, _, rfl, hc, h⟩
      obtain ⟨more, rest, rfl, hl, hp⟩ := ih.mp h
      exact ⟨first ++ more, rest, by simp, ⟨first, more, rfl, hc, hl⟩, hp⟩
    · rintro ⟨_, rest, rfl, ⟨first, more, rfl, hc, hl⟩, hp⟩
      exact ⟨first, more ++ rest, by simp, hc, ih.mpr ⟨more, rest, rfl, hl, hp⟩⟩

theorem like_anchor_append (wanted : Bool) (p t : List Char) :
    Like (anchor wanted ++ p) t ↔
      ∃ skipped rest, t = skipped ++ rest ∧ (wanted = false → skipped = []) ∧ Like p rest := by
  cases wanted <;> simp [anchor]

/-- A pattern matches what its literal yields, with any text where there is an anchor. -/
theorem like_pattern {before after : Bool} :
    Like (anchor before ++ w.escape l ++ anchor after) t ↔
      ∃ skipped middle rest, t = skipped ++ middle ++ rest ∧ (before = false → skipped = []) ∧
        w.Yields l middle ∧ (after = false → rest = []) := by
  have hend (rest : List Char) : Like (anchor after) rest ↔ (after = false → rest = []) := by
    simpa using like_anchor_append after [] rest
  simp only [List.append_assoc, like_anchor_append, like_escape_append, hend]
  constructor
  · rintro ⟨skipped, _, rfl, hb, middle, rest, rfl, hl, ha⟩
    exact ⟨skipped, middle, rest, rfl, hb, hl, ha⟩
  · rintro ⟨skipped, middle, rest, rfl, hb, hl, ha⟩
    exact ⟨skipped, _, rfl, hb, middle, rest, rfl, hl, ha⟩

theorem standsFor_canonical : canonical.StandsFor c t ↔ t = [c] := by
  unfold StandsFor canonical
  split_ifs <;> simp_all

theorem yields_canonical : canonical.Yields l t ↔ t = l := by
  induction l generalizing t with
  | nil => rfl
  | cons c l ih => simp [Yields, standsFor_canonical, ih]

end

end Wildcards

/-! ## Stored patterns -/

namespace Condition

/-- Whether a call gives a test of the field against a compiled pattern for just these texts. -/
def Stores (r : Recorded BuildError Condition) (field : String) (operator : Operator)
    (texts : List Char → Prop) : Prop :=
  ∃ pattern : String, r.outcome = .ok (text ⟨field, operator, pattern, true⟩) ∧
    ∀ t : String, Like pattern.toList t.toList ↔ texts t.toList

section
variable {w : Wildcards} {operator : Operator} {before after : Bool} {literal field : String}
  {texts : List Char → Prop}

/-- Wildcards that differ only decide the pattern that the field is tested against. -/
theorem matching_outcome :
    (matching operator w.single w.multi before literal after field).outcome =
      Condition.text <$> TextTest.build field operator (w.pattern before literal after) true := by
  cases h : TextTest.build field operator (w.pattern before literal after) true <;>
    simp [matching, compileLike_eq, announce, h]

theorem stores_matching (ho : operator.isText = true) (hf : isBlank field = false)
    (h : ∀ t, (∃ skipped middle rest, t = skipped ++ middle ++ rest ∧
      (before = false → skipped = []) ∧ w.Yields literal.toList middle ∧
      (after = false → rest = [])) ↔ texts t) :
    Stores (matching operator w.single w.multi before literal after field) field operator texts := by
  have hmatching : (matching operator w.single w.multi before literal after field).outcome =
      .ok (text ⟨field, operator, w.pattern before literal after, true⟩) := by
    rw [matching_outcome, TextTest.build_eq_ok_iff.mpr ⟨rfl, ho, hf⟩, except_map_ok]
  refine ⟨_, hmatching, fun t => ?_⟩
  rw [Wildcards.pattern, String.toList_ofList, Wildcards.like_pattern]
  exact h t.toList

end

section
variable {operator : Operator} {literal field : String}

theorem stores_startsWith (ho : operator.isText = true) (hf : isBlank field = false) :
    Stores (searching operator false literal true field) field operator (literal.toList <+: ·) := by
  refine stores_matching (w := .canonical) ho hf fun t => ?_
  simp [Wildcards.yields_canonical, List.IsPrefix, eq_comm]

theorem stores_endsWith (ho : operator.isText = true) (hf : isBlank field = false) :
    Stores (searching operator true literal false field) field operator (literal.toList <:+ ·) := by
  refine stores_matching (w := .canonical) ho hf fun t => ?_
  simp [Wildcards.yields_canonical, List.IsSuffix, eq_comm]

theorem stores_contains (ho : operator.isText = true) (hf : isBlank field = false) :
    Stores (searching operator true literal true field) field operator (literal.toList <:+: ·) := by
  refine stores_matching (w := .canonical) ho hf fun t => ?_
  simp [Wildcards.yields_canonical, List.IsInfix, eq_comm]

theorem stores_likeWith (w : Wildcards) (ho : operator.isText = true)
    (hf : isBlank field = false) :
    Stores (matching operator w.single w.multi false literal false field) field operator
      (w.Yields literal.toList) := by
  refine stores_matching ho hf fun t => ?_
  simp

end

/-- The patterns that the factories compile match just the texts that the literal is searched in,
or that it yields in the pattern language with the given wildcards. -/
theorem stored_patterns_match (literal field : String) (hf : isBlank field = false) :
    (Stores (startsWith literal field) field .like (literal.toList <+: ·) ∧
      Stores (notStartsWith literal field) field .notLike (literal.toList <+: ·)) ∧
    (Stores (endsWith literal field) field .like (literal.toList <:+ ·) ∧
      Stores (notEndsWith literal field) field .notLike (literal.toList <:+ ·)) ∧
    (Stores (contains literal field) field .like (literal.toList <:+: ·) ∧
      Stores (notContains literal field) field .notLike (literal.toList <:+: ·)) ∧
    ∀ w : Wildcards,
      Stores (likeWith literal w.single w.multi field) field .like (w.Yields literal.toList) ∧
      Stores (notLikeWith literal w.single w.multi field) field .notLike
        (w.Yields literal.toList) :=
  ⟨⟨stores_startsWith rfl hf, stores_startsWith rfl hf⟩,
    ⟨stores_endsWith rfl hf, stores_endsWith rfl hf⟩,
    ⟨stores_contains rfl hf, stores_contains rfl hf⟩,
    fun w => ⟨stores_likeWith w rfl hf, stores_likeWith w rfl hf⟩⟩

theorem stored_patterns_match_percent :
    isBlank "name" = false ∧
      Stores (startsWith "50%_\\" "name") "name" .like ("50%_\\".toList <+: ·) ∧
      Stores (notLikeWith "_%\\" '\\' '_' "name") "name" .notLike
        (Wildcards.Yields ⟨'\\', '_', by decide⟩ "_%\\".toList) :=
  ⟨by decide, (stored_patterns_match "50%_\\" "name" (by decide)).1.1,
    ((stored_patterns_match "_%\\" "name" (by decide)).2.2.2 ⟨'\\', '_', by decide⟩).2⟩

end Condition

end Criteria
