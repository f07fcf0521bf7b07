import Criteria.Proofs.Obtainable

/-!
# What factories make

A direct construction may give a text to a comparison, and may call any text an escaped pattern. A
factory does neither: a text always goes to a text test, an operator for patterns comes only with a
text, and a text is called escaped only where it was compiled for such an operator
(`Atom.WellTyped`). Whatever the wildcards of a literal are, in the compiled pattern each escape
character is followed by a canonical wildcard or by an escape character, since the wildcards of the
literal are written canonically (`Wildcards.wellEscaped_pattern`).

The dual of an operator for patterns is one too, so negation keeps all of this, and connectives and
normalization change no atom (`every_wellTyped_of_factoryMade`).
-/

namespace Criteria

/-- Whether in a pattern, read from left to right, every escape character has after it a canonical
wildcard or an escape character. -/
inductive WellEscaped : List Char → Prop where
  | nil : WellEscaped []
  | escape {x : Char} {p : List Char}
      (escapes : x = singleWildcard ∨ x = multiWildcard ∨ x = escapeChar) (rest : WellEscaped p) :
      WellEscaped (escapeChar :: x :: p)
  | plain {x : Char} {p : List Char} (ne : x ≠ escapeChar) (rest : WellEscaped p) :
      WellEscaped (x :: p)

inductive Atom.WellTyped : Atom → Prop where
  | comparison {c : Comparison} (operand : ∀ s, c.operand ≠ .text s)
      (operator : ¬ (c.operator = .like ∨ c.operator = .notLike)) : WellTyped (comparison c)
  | pattern {t : TextTest} (operator : t.operator = .like ∨ t.operator = .notLike)
      (escapes : t.escaped = true → WellEscaped t.text.toList) : WellTyped (text t)
  | literal {t : TextTest} (operator : ¬ (t.operator = .like ∨ t.operator = .notLike))
      (plain : t.escaped = false) : WellTyped (text t)

theorem WellEscaped.append {p q : List Char} (hp : WellEscaped p) (hq : WellEscaped q) :
    WellEscaped (p ++ q) := by
  induction hp with
  | nil => exact hq
  | escape escapes _ ih => exact .escape escapes ih
  | plain ne _ ih => exact .plain ne ih

namespace Wildcards

/-- What is written after an escape character is canonical. -/
theorem escaped?_eq_some {w : Wildcards} {c x : Char} (h : w.escaped? c = some x) :
    x = singleWildcard ∨ x = multiWildcard ∨ x = escapeChar := by
  unfold escaped? at h
  split at h
  · exact .inl (Option.some.inj h).symm
  split at h
  · exact .inr (.inl (Option.some.inj h).symm)
  split at h
  · exact .inr (.inr (Option.some.inj h).symm)
  · cases h

theorem wellEscaped_escapeOne (w : Wildcards) (c : Char) : WellEscaped (w.escapeOne c) := by
  unfold escapeOne
  split
  · next x hx => exact .escape (escaped?_eq_some hx) .nil
  · next hx => exact .plain (ne_escapeChar_of_escaped?_eq_none hx) .nil

theorem wellEscaped_escape (w : Wildcards) (l : List Char) : WellEscaped (w.escape l) := by
  induction l with
  | nil => exact .nil
  | cons c l ih =>
    rw [escape, List.flatMap_cons]
    exact (w.wellEscaped_escapeOne c).append ih

theorem wellEscaped_anchor (wanted : Bool) : WellEscaped (anchor wanted) := by
  cases wanted with
  | false => exact .nil
  | true => exact .plain (by decide) .nil

theorem wellEscaped_pattern (w : Wildcards) (before : Bool) (literal : String) (after : Bool) :
    WellEscaped (w.pattern before literal after).toList := by
  rw [pattern, String.toList_ofList]
  exact ((wellEscaped_anchor before).append (w.wellEscaped_escape literal.toList)).append
    (wellEscaped_anchor after)

end Wildcards

/-! ## Factories -/

theorem Operator.isPattern_iff {op : Operator} : op.isPattern = true ↔ op = like ∨ op = notLike := by
  cases op <;> decide

theorem Operator.pattern_dual_iff {op : Operator} :
    op.dual = like ∨ op.dual = notLike ↔ op = like ∨ op = notLike := by
  rw [← isPattern_iff, isPattern_dual, isPattern_iff]

theorem Atom.WellTyped.negate {a : Atom} (h : a.WellTyped) : a.negate.WellTyped := by
  cases h with
  | comparison operand operator =>
    exact .comparison operand (mt Operator.pattern_dual_iff.mp operator)
  | pattern operator escapes => exact .pattern (Operator.pattern_dual_iff.mpr operator) escapes
  | literal operator plain => exact .literal (mt Operator.pattern_dual_iff.mp operator) plain

theorem Crafted.wellTyped {operands : List Operand} {a : Atom} (h : Crafted operands a) :
    a.WellTyped := by
  have hcompares {op : Operator} (ho : op.isPattern = false) : ¬ (op = .like ∨ op = .notLike) := by
    rw [← Operator.isPattern_iff, ho]
    decide
  cases h with
  | comparison field given plain compares => exact .comparison plain (hcompares compares)
  | member field compares => exact .comparison nofun (hcompares compares)
  | literal field s compares => exact .literal (hcompares compares) rfl
  | pattern field p reads => exact .pattern (Operator.isPattern_iff.mp reads) nofun
  | compiled field w before literal after reads =>
    exact .pattern (Operator.isPattern_iff.mp reads)
      fun _ => w.wellEscaped_pattern before literal after

namespace Recipe

/-- Whether a recipe starts there from a factory: not from a direct construction of an atom, and
not from a text that is decoded. -/
def Source.FromFactory : Source → Prop
  | call c => c.IsFactory
  | text _ => False

open Condition in
theorem Source.wellTyped_run (s : Source) (h : s.FromFactory) :
    s.run.Returns (Every Atom.WellTyped) := by
  cases s with
  | call c =>
    have hcrafted : c.run.Returns (Every Atom.WellTyped) := fun d hd a ha =>
      (c.crafted_run h d hd a ha).2.wellTyped
    exact hcrafted.mapError
  | text s => exact h.elim

end Recipe

namespace Condition

/-- What a finite sequence of calls can make in which only factories make atoms. -/
inductive FactoryMade : Condition → Prop where
  | run {bindings : Bindings} {r : Recipe} {c : Condition} (bound : ∀ p ∈ bindings, FactoryMade p.2)
      (factories : ∀ s ∈ r.sources, s.FromFactory) (made : (r.run bindings).outcome = .ok c) :
      FactoryMade c

/-- In a condition that is made with factories, a text is never the operand of a comparison, an
operator for patterns is one of a text test, and only compiled patterns are marked as escaped. -/
theorem every_wellTyped_of_factoryMade (c : Condition) (h : FactoryMade c) :
    c.Every Atom.WellTyped := by
  induction h with
  | @run bindings r c bound factories made ih =>
    exact Recipe.run_returns (P := Atom.WellTyped) (fun _ => Atom.WellTyped.negate) ih r
      (fun s hs => s.wellTyped_run (factories s hs)) c made

/-- The wildcards of the literal are the escape character and a canonical wildcard. -/
theorem every_wellTyped_of_factoryMade_swapped :
    let c : Condition := .composite .any
      [text ⟨"name", .notLike, "\\_\\%%", true⟩, comparison ⟨"age", .lt, .int 30⟩]
    FactoryMade c ∧ c.Every Atom.WellTyped := by
  intro c
  let r : Recipe := .not (.normalize (.and (.call (.likeWith "\\_%" '\\' '_' "name"))
    (.gather .all [.call (.ge (.int 30) "age")])))
  have hfactories : ∀ s ∈ r.sources, s.FromFactory := by
    simp [r, Recipe.sources, Recipe.sourcesOf, Recipe.Source.FromFactory, Recipe.Call.IsFactory]
  have hmade : (r.run []).outcome = .ok c := by decide
  have h : FactoryMade c := @FactoryMade.run [] r c (by simp) hfactories hmade
  exact ⟨h, every_wellTyped_of_factoryMade c h⟩

end Condition

end Criteria
