import Criteria.Wildcards
import Mathlib.Data.List.Infix

/-!
# Reading patterns back

A pattern is read from left to right in the pattern language that its literal was written in: after
the escape character `_` and `%` stand for the wildcards of that language and the escape character for
itself, and every other character stands for itself (`unescape`). Whatever the wildcards are, also
if they are the escape character or the canonical wildcards in exchange, an escaped literal is read
back, since reading an escaped character undoes writing it and leaves off where the next one begins
(`unescape_escapeOne_append`). So a compiled pattern tells its literal, and how many characters are
escaped in it can be seen from its length (`compileLike_read_back`).
-/

namespace Criteria

namespace Wildcards

/-- The character that one after the escape character stands for. -/
def unescaped? (w : Wildcards) (x : Char) : Option Char :=
  if x = singleWildcard then some w.single
  else if x = multiWildcard then some w.multi
  else if x = escapeChar then some escapeChar
  else none

/-- Reads a pattern, unless it ends in the middle of an escape or escapes what needs none. -/
def unescape (w : Wildcards) : List Char → Option (List Char)
  | [] => some []
  | c :: p =>
    if c = escapeChar then
      match p with
      | [] => none
      | x :: p => do
        let c ← w.unescaped? x
        (c :: ·) <$> unescape w p
    else (c :: ·) <$> unescape w p

/-- How many escaped characters are met when a pattern is read. -/
def pairs : List Char → Nat
  | [] => 0
  | c :: p =>
    if c = escapeChar then
      match p with
      | [] => 0
      | _ :: p => pairs p + 1
    else pairs p

/-- A pattern without the anchors that were wanted for it, if it has them. -/
def body? (before : Bool) (p : List Char) (after : Bool) : Option (List Char) :=
  (anchor before).isPrefixOf? p >>= (anchor after).isSuffixOf?

section
variable {w : Wildcards} {c x : Char} {l p : List Char}

theorem unescape_pair (h : w.unescaped? x = some c) :
    w.unescape (escapeChar :: x :: p) = (c :: ·) <$> w.unescape p := by
  rw [unescape.eq_def]
  simp [h]

theorem unescape_plain (h : c ≠ escapeChar) : w.unescape (c :: p) = (c :: ·) <$> w.unescape p := by
  rw [unescape.eq_def]
  simp [h]

theorem pairs_pair : pairs (escapeChar :: x :: p) = pairs p + 1 := by
  rw [pairs.eq_def]
  simp

theorem pairs_plain (h : c ≠ escapeChar) : pairs (c :: p) = pairs p := by
  rw [pairs.eq_def]
  simp [h]

/-- The branches of both tables come in the same order, and the canonical characters differ. -/
theorem unescaped?_of_escaped? (h : w.escaped? c = some x) : w.unescaped? x = some c := by
  unfold escaped? at h
  split at h
  · next hs => cases h; rw [hs]; rfl
  split at h
  · next hm => cases h; rw [hm]; rfl
  split at h
  · next he => cases h; rw [he]; rfl
  · cases h

/-- Reading what a character is written as gives that character, and the rest is read by itself. -/
theorem unescape_escapeOne_append : w.unescape (w.escapeOne c ++ p) = (c :: ·) <$> w.unescape p := by
  unfold escapeOne
  split
  · next x hx => exact unescape_pair (unescaped?_of_escaped? hx)
  · next hx => exact unescape_plain (ne_escapeChar_of_escaped?_eq_none hx)

theorem pairs_escapeOne_append :
    pairs (w.escapeOne c ++ p) = pairs p + if (w.escaped? c).isSome then 1 else 0 := by
  unfold escapeOne
  split
  · next x hx =>
    rw [hx]
    exact pairs_pair
  · next hx =>
    rw [hx]
    exact pairs_plain (ne_escapeChar_of_escaped?_eq_none hx)

/-! ## Escaped literals -/

theorem unescape_escape (w : Wildcards) (l : List Char) : w.unescape (w.escape l) = some l := by
  induction l with
  | nil => rfl
  | cons c l ih =>
    rw [escape, List.flatMap_cons, unescape_escapeOne_append, ← escape, ih]
    rfl

/-- An escape character that ends a pair begins none, and each wildcard stands for the other. -/
example :
    let w : Wildcards := ⟨'%', '_', by decide⟩
    w.unescape ['\\', '\\', '\\', '_', 'a', '\\', '%'] = some ['\\', '%', 'a', '_'] := by
  rfl

theorem pairs_escape (w : Wildcards) (l : List Char) : pairs (w.escape l) = w.escapes l := by
  induction l with
  | nil => rfl
  | cons c l ih =>
    rw [escape, List.flatMap_cons, pairs_escapeOne_append, ← escape, ih, escapes, escapes,
      List.countP_cons]

/-- An escaped character is written with two, every other one with itself. -/
theorem length_of_unescape (h : w.unescape p = some l) : p.length = l.length + pairs p := by
  fun_induction unescape w p generalizing l with
  | case1 =>
    cases h
    rfl
  | case2 => cases h
  | case3 x p ih =>
    obtain ⟨c, -, h⟩ := Option.bind_eq_some_iff.mp h
    obtain ⟨l, hl, rfl⟩ := Option.map_eq_some_iff.mp h
    rw [pairs_pair, List.length_cons, List.length_cons, List.length_cons, ih hl]
    omega
  | case4 c p hc ih =>
    obtain ⟨l, hl, rfl⟩ := Option.map_eq_some_iff.mp h
    rw [pairs_plain hc, List.length_cons, List.length_cons, ih hl]
    omega

theorem body?_anchored (before after : Bool) :
    body? before (anchor before ++ p ++ anchor after) after = some p := by
  have hbefore : (anchor before).isPrefixOf? (anchor before ++ p ++ anchor after) =
      some (p ++ anchor after) := by
    rw [List.isPrefixOf?_eq_some_iff_append_eq, List.append_assoc]
  have hafter : (anchor after).isSuffixOf? (p ++ anchor after) = some p :=
    List.isSuffixOf?_eq_some_iff_append_eq.mpr rfl
  rw [body?, hbefore]
  exact hafter

theorem length_anchor (wanted : Bool) : (anchor wanted).length = wanted.toNat := by
  cases wanted <;> rfl

end

end Wildcards

open Wildcards in
/-- A compiled pattern is one from which the anchors can be taken and the literal be read, so no other
literal is compiled to it. The escapes that are recorded are those that are met in reading, by which
the pattern is longer than the literal and the anchors together. -/
theorem compileLike_read_back (w : Wildcards) (before : Bool) (literal : String) (after : Bool) :
    ∃ (pattern : String) (body : List Char) (escapes : Nat),
      compileLike w.single w.multi before literal after =
        ⟨.ok pattern, [.patternCompiled escapes]⟩ ∧
      body? before pattern.toList after = some body ∧
      w.unescape body = some literal.toList ∧
      escapes = pairs body ∧
      pattern.length = literal.length + (before.toNat + after.toNat) + escapes ∧
      ∀ other, (compileLike w.single w.multi before other after).outcome = .ok pattern ↔
        other = literal := by
  have hbody := body?_anchored (p := w.escape literal.toList) before after
  have hread := w.unescape_escape literal.toList
  refine ⟨_, _, _, compileLike_eq w before literal after, ?_, hread, (w.pairs_escape _).symm, ?_, ?_⟩
  · rw [pattern, String.toList_ofList]
    exact hbody
  · have hlength := length_of_unescape hread
    rw [pairs_escape] at hlength
    rw [← String.length_toList, ← String.length_toList, pattern, String.toList_ofList,
      List.length_append, List.length_append, length_anchor, length_anchor, hlength]
    omega
  · intro other
    rw [compileLike_eq]
    constructor
    · intro h
      have hsame := congrArg String.toList (Except.ok.inj h)
      rw [pattern, pattern, String.toList_ofList, String.toList_ofList] at hsame
      rw [← hsame, body?_anchored, Option.some.injEq] at hbody
      rw [← hbody, unescape_escape, Option.some.injEq] at hread
      exact String.toList_inj.mp hread
    · rintro rfl
      rfl

end Criteria
