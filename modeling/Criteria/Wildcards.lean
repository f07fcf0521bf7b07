import Criteria.Recorded

/-!
# Wildcards and patterns

A pattern language has two wildcards, one for a single character and one for any text. In the
canonical language they are `_` and `%`, and a character after the escape character stands for
itself. Compiling a literal of any pattern language escapes what is a wildcard there, written
canonically, and the escape character; every other character is kept.
-/

namespace Criteria

/-- The canonical wildcard for one character. -/
def singleWildcard : Char := '_'

/-- The canonical wildcard for any text. -/
def multiWildcard : Char := '%'

def escapeChar : Char := '\\'

structure Wildcards where
  single : Char
  multi : Char
  distinct : single ≠ multi

namespace Wildcards

def canonical : Wildcards :=
  ⟨singleWildcard, multiWildcard, by decide⟩

instance : Inhabited Wildcards := ⟨canonical⟩

instance : DecidableEq Wildcards := fun a b =>
  decidable_of_iff (a.single = b.single ∧ a.multi = b.multi) (by cases a; cases b; simp)

def build (single multi : Char) : Except BuildError Wildcards :=
  if h : single = multi then .error (.sameWildcard single) else .ok ⟨single, multi, h⟩

/-- The canonical character that is written escaped for one of a literal. -/
def escaped? (w : Wildcards) (c : Char) : Option Char :=
  if c = w.single then some singleWildcard
  else if c = w.multi then some multiWildcard
  else if c = escapeChar then some escapeChar
  else none

theorem isSome_escaped?_iff {w : Wildcards} {c : Char} :
    (w.escaped? c).isSome = true ↔ c = w.single ∨ c = w.multi ∨ c = escapeChar := by
  unfold escaped?
  split
  · next hs => simp [hs]
  split
  · next hm => simp [hm]
  split
  · next he => simp [he]
  · next hs hm he => simp [hs, hm, he]

theorem ne_escapeChar_of_escaped?_eq_none {w : Wildcards} {c : Char} (h : w.escaped? c = none) :
    c ≠ escapeChar := by
  intro hc
  have hsome : (w.escaped? c).isSome = true := isSome_escaped?_iff.mpr (.inr (.inr hc))
  rw [h] at hsome
  cases hsome

def escapeOne (w : Wildcards) (c : Char) : List Char :=
  match w.escaped? c with
  | some d => [escapeChar, d]
  | none => [c]

/-- The literal with what has to be escaped in it escaped. -/
def escape (w : Wildcards) (literal : List Char) : List Char :=
  literal.flatMap w.escapeOne

def escapes (w : Wildcards) (literal : List Char) : Nat :=
  literal.countP fun c => (w.escaped? c).isSome

/-- A wildcard for any text where one is wanted. -/
def anchor (wanted : Bool) : List Char :=
  if wanted then [multiWildcard] else []

/-- The canonical pattern of a literal, after and before any text where that is wanted. -/
def pattern (w : Wildcards) (before : Bool) (literal : String) (after : Bool) : String :=
  .ofList (anchor before ++ w.escape literal.toList ++ anchor after)

/-- Compiles a pattern and records how many characters are escaped. -/
def compile (w : Wildcards) (before : Bool) (literal : String) (after : Bool) :
    Recorded BuildError String :=
  ⟨.ok (w.pattern before literal after), [.patternCompiled (w.escapes literal.toList)]⟩

end Wildcards

/-- Compiles a literal of the pattern language with the given wildcards. -/
def compileLike (single multi : Char) (before : Bool) (literal : String) (after : Bool) :
    Recorded BuildError String := do
  let w ← .ofBuild (Wildcards.build single multi)
  w.compile before literal after

/-- Compiling with two different wildcards succeeds and records only that. -/
theorem compileLike_eq (w : Wildcards) (before : Bool) (literal : String) (after : Bool) :
    compileLike w.single w.multi before literal after =
      ⟨.ok (w.pattern before literal after), [.patternCompiled (w.escapes literal.toList)]⟩ := by
  have hw : Wildcards.build w.single w.multi = .ok w := dif_neg w.distinct
  rw [compileLike, hw]
  rfl

end Criteria
