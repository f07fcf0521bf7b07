import Criteria.Condition.Display
import Criteria.Proofs.Atoms
import Criteria.Proofs.DisplayedOperands

/-!
# Reading displayed conditions

What a condition is displayed as tells what it is, if its fields are names and its operands legible,
and no comparison has a text for its operand: two such conditions are displayed alike exactly if
they are the same up to the connectives of composites of a single part, which are not displayed
(`display_eq_iff_alike`). A field ends at the blank behind it, a symbol at the next one, and an
operand where none goes on; a condition ends before a bracket, a joining word or nothing, so that a
constant cannot be the beginning of an atom, even if a field is named like it.
-/

namespace Criteria

/-- The characters of names: ASCII letters, digits and the underscore. -/
def isNameChar (c : Char) : Bool :=
  c.isAlphanum || c == '_'

/-- No symbol with its blank begins another one. -/
theorem Operator.eq_of_symbol_begins {p q : Operator}
    (h : p.symbol.toList ++ [' '] <+: q.symbol.toList ++ [' ']) : p = q := by
  revert h
  cases p <;> cases q <;> decide

theorem Operator.symbol_append_inj {p q : Operator} {rest rest' : List Char}
    (h : p.symbol.toList ++ ' ' :: rest = q.symbol.toList ++ ' ' :: rest') :
    p = q ∧ rest = rest' := by
  rw [List.append_cons, List.append_cons _ ' ' rest'] at h
  have hpq : p = q := by
    rcases List.prefix_or_prefix_of_prefix (List.prefix_append _ rest) (h ▸ List.prefix_append _ rest')
      with hle | hle
    · exact eq_of_symbol_begins hle
    · exact (eq_of_symbol_begins hle).symm
  subst hpq
  exact ⟨rfl, List.append_cancel_left h⟩

/-- A joining word begins like no symbol. -/
theorem Operator.symbol_ne_word (op : Operator) (k : Connective) (rest rest' : List Char) :
    ' ' :: (op.symbol.toList ++ rest) ≠ k.word.toList ++ rest' := by
  cases op <;> cases k <;> intro h <;> cases h

theorem Connective.word_append_inj {j k : Connective} {rest rest' : List Char}
    (h : j.word.toList ++ rest = k.word.toList ++ rest') : j = k := by
  cases j <;> cases k <;> first | rfl | cases h

theorem Connective.word_ne_close (k : Connective) (rest rest' : List Char) :
    k.word.toList ++ rest ≠ ')' :: rest' := by
  cases k <;> intro h <;> cases h

theorem Connective.constant_append_inj {j k : Connective} {rest rest' : List Char}
    (h : j.constant.toList ++ rest = k.constant.toList ++ rest') : j = k ∧ rest = rest' := by
  cases j <;> cases k <;> first | exact ⟨rfl, List.append_cancel_left h⟩ | cases h

theorem Connective.constant_ne_open (k : Connective) (rest rest' : List Char) :
    k.constant.toList ++ rest ≠ '(' :: rest' := by
  cases k <;> intro h <;> cases h

theorem Connective.isNameChar_constant (k : Connective) :
    ∀ c ∈ k.constant.toList, isNameChar c = true :=
  List.all_eq_true.mp (by cases k <;> rfl)

/-- What stands behind a displayed condition. -/
inductive EndsCondition : List Char → Prop where
  | done : EndsCondition []
  | close (rest : List Char) : EndsCondition (')' :: rest)
  | word (k : Connective) (rest : List Char) : EndsCondition (k.word.toList ++ rest)

section
variable {rest rest' : List Char}

theorem EndsCondition.stopsAt {p : Char → Bool} (h : EndsCondition rest) (hclose : p ')' = false)
    (hblank : p ' ' = false) : StopsAt p rest := by
  cases h with
  | done => exact nofun
  | close rest => exact stopsAt_cons hclose rest
  | word k rest => cases k <;> exact stopsAt_cons hblank _

/-! ## Atoms -/

namespace Atom

/-- Whether the field is a name, and the operand of a comparison is legible and no text. -/
def Legible : Atom → Prop
  | comparison c =>
    c.field.toList.all isNameChar = true ∧ c.operand.asText = none ∧ c.operand.Legible
  | text t => t.field.toList.all isNameChar = true

theorem Legible.field {a : Atom} (h : a.Legible) : ∀ x ∈ a.field.toList, isNameChar x = true := by
  cases a with
  | comparison c => exact List.all_eq_true.mp h.1
  | text t => exact List.all_eq_true.mp h

/-- What names the escape character behind a pattern. -/
def escapeMark (escaped : Bool) : List Char :=
  if escaped then " ESCAPE '\\'".toList else []

/-- What stands behind the operator. -/
def object : Atom → List Char
  | comparison c => c.operand.chars
  | text t => quoted t.text ++ escapeMark t.escaped

theorem chars_append (a : Atom) (rest : List Char) :
    (Condition.atom a).chars ++ rest =
      a.field.toList ++ ' ' :: (a.operator.symbol.toList ++ ' ' :: (a.object ++ rest)) := by
  cases a with
  | comparison c =>
    simp only [Condition.chars, Comparison.chars, field, operator, object, List.append_assoc,
      List.cons_append]
  | text t =>
    simp only [Condition.chars, TextTest.chars, field, operator, object, escapeMark,
      List.append_assoc, List.cons_append]

/-- The mark of an escaped pattern is no joining word. -/
theorem escapeMark_append_inj {d e : Bool} (hr : EndsCondition rest) (hr' : EndsCondition rest')
    (h : escapeMark d ++ rest = escapeMark e ++ rest') : d = e ∧ rest = rest' := by
  have hmark {r r' : List Char} (hr : EndsCondition r) (h : r = escapeMark true ++ r') : False := by
    cases hr with
    | done => cases h
    | close => cases h
    | word k => cases k <;> cases h
  cases d <;> cases e
  · exact ⟨rfl, h⟩
  · exact (hmark hr h).elim
  · exact (hmark hr' h.symm).elim
  · exact ⟨rfl, List.append_cancel_left h⟩

theorem stopsAt_escapeMark (e : Bool) (hr : EndsCondition rest) :
    StopsAt (· == quoteMark) (escapeMark e ++ rest) := by
  cases e with
  | false => exact hr.stopsAt (by decide) (by decide)
  | true => exact stopsAt_cons (by decide) _

theorem not_begins_quoteMark {x : Operand} (hx : x.Legible) (hnone : x.asText = none)
    (h : x.chars ++ rest = quoteMark :: rest') : False := by
  rcases hx.begins h with ⟨-, hc⟩ | ⟨⟨s, rfl⟩, -⟩ | ⟨-, hc⟩
  · exact absurd hc (by decide)
  · cases hnone
  · exact absurd hc (by decide)

/-- What stands behind the operator tells an atom of that field and operator: only the operand of a
text test begins with a quote. -/
theorem eq_of_object {a b : Atom} (ha : a.Legible) (hb : b.Legible) (hf : a.field = b.field)
    (ho : a.operator = b.operator) (hr : EndsCondition rest) (hr' : EndsCondition rest')
    (h : a.object ++ rest = b.object ++ rest') : a = b ∧ rest = rest' := by
  cases a with
  | comparison c =>
    cases b with
    | comparison d =>
      obtain ⟨hoperand, hrest⟩ := ha.2.2.readOnce hb.2.2 (hr.stopsAt (by decide) (by decide))
        (hr'.stopsAt (by decide) (by decide)) h
      cases c
      cases d
      cases hf
      cases ho
      cases hoperand
      exact ⟨rfl, hrest⟩
    | text t => exact (not_begins_quoteMark ha.2.2 ha.2.1 h).elim
  | text t =>
    cases b with
    | comparison d => exact (not_begins_quoteMark hb.2.2 hb.2.1 h.symm).elim
    | text u =>
      rw [object, object, List.append_assoc, List.append_assoc] at h
      obtain ⟨htext, hmarks⟩ :=
        quoted_append_inj (stopsAt_escapeMark _ hr) (stopsAt_escapeMark _ hr') h
      obtain ⟨hescaped, hrest⟩ := escapeMark_append_inj hr hr' hmarks
      cases t
      cases u
      cases hf
      cases ho
      cases htext
      cases hescaped
      exact ⟨rfl, hrest⟩

/-- A displayed atom, with what can stand behind it, is no other legible atom. -/
theorem chars_append_inj {a b : Atom} (ha : a.Legible) (hb : b.Legible) (hr : EndsCondition rest)
    (hr' : EndsCondition rest')
    (h : (Condition.atom a).chars ++ rest = (Condition.atom b).chars ++ rest') :
    a = b ∧ rest = rest' := by
  rw [chars_append, chars_append] at h
  have hblank (r : List Char) : StopsAt isNameChar (' ' :: r) := stopsAt_cons (by decide) r
  obtain ⟨hf, htail⟩ := append_inj_of_stopsAt ha.field hb.field (hblank _) (hblank _) h
  obtain ⟨ho, hobject⟩ := Operator.symbol_append_inj (List.cons.inj htail).2
  exact eq_of_object ha hb (String.toList_inj.mp hf) ho hr hr' hobject

/-- Behind a field comes a symbol, and behind a constant none. -/
theorem chars_ne_constant {a : Atom} (ha : a.Legible) (k : Connective) (hr' : EndsCondition rest') :
    (Condition.atom a).chars ++ rest ≠ k.constant.toList ++ rest' := by
  intro h
  rw [chars_append] at h
  obtain ⟨-, htail⟩ := append_inj_of_stopsAt ha.field k.isNameChar_constant
    (stopsAt_cons (by decide) _) (hr'.stopsAt (by decide) (by decide)) h
  cases hr' with
  | done => cases htail
  | close => cases htail
  | word k => exact Operator.symbol_ne_word _ k _ _ htail

theorem chars_ne_open {a : Atom} (ha : a.Legible) :
    (Condition.atom a).chars ++ rest ≠ '(' :: rest' := by
  intro h
  rw [chars_append] at h
  cases hf : a.field.toList with
  | nil =>
    rw [hf] at h
    cases h
  | cons c cs =>
    rw [hf] at h
    have hc := ha.field c (hf ▸ List.mem_cons_self)
    rw [(List.cons.inj h).1] at hc
    exact absurd hc (by decide)

end Atom

/-! ## Trees -/

namespace Condition

/-- Whether two trees are the same except for the connectives of composites of a single part. -/
inductive Alike : Condition → Condition → Prop where
  | atom (a : Atom) : Alike (atom a) (atom a)
  | composite (k : Connective) {cs ds : List Condition} (parts : List.Forall₂ Alike cs ds) :
      Alike (composite k cs) (composite k ds)
  | single (j k : Connective) {c d : Condition} (part : Alike c d) :
      Alike (composite j [c]) (composite k [d])

theorem charsAll_eq_flatMap (word : List Char) (cs : List Condition) :
    charsAll word cs = cs.flatMap fun c => word ++ c.chars := by
  induction cs with
  | nil => rfl
  | cons c cs ih => rw [charsAll, ih, List.flatMap_cons]

theorem chars_composite_append (k : Connective) (c : Condition) (cs : List Condition)
    (rest : List Char) :
    (composite k (c :: cs)).chars ++ rest =
      '(' :: (c.chars ++ (cs.flatMap (fun d => k.word.toList ++ d.chars) ++ ')' :: rest)) := by
  simp [chars, charsAll_eq_flatMap]

/-- What follows the first part tells the connective, unless nothing does. -/
theorem eq_or_nil_of_parts {j k : Connective} {cs ds : List Condition}
    (h : cs.flatMap (fun c => j.word.toList ++ c.chars) ++ ')' :: rest =
      ds.flatMap (fun d => k.word.toList ++ d.chars) ++ ')' :: rest') :
    j = k ∨ cs = [] ∧ ds = [] := by
  cases cs with
  | nil =>
    cases ds with
    | nil => exact Or.inr ⟨rfl, rfl⟩
    | cons d ds =>
      rw [List.flatMap_cons, List.append_assoc, List.append_assoc] at h
      exact absurd h.symm (k.word_ne_close _ _)
  | cons c cs =>
    cases ds with
    | nil =>
      rw [List.flatMap_cons, List.append_assoc, List.append_assoc] at h
      exact absurd h (j.word_ne_close _ _)
    | cons d ds =>
      rw [List.flatMap_cons, List.flatMap_cons, List.append_assoc, List.append_assoc,
        List.append_assoc, List.append_assoc] at h
      exact Or.inl (Connective.word_append_inj h)

/-- Whether a condition that is displayed, with what can stand behind it, is like any other legible
condition that is displayed the same. -/
def ReadOnce (c : Condition) : Prop :=
  ∀ ⦃d : Condition⦄ ⦃rest rest' : List Char⦄, d.Every Atom.Legible → EndsCondition rest →
    EndsCondition rest' → c.chars ++ rest = d.chars ++ rest' → c.Alike d ∧ rest = rest'

theorem readOnce_atom {a : Atom} (ha : a.Legible) : (atom a).ReadOnce := by
  intro d rest rest' hd hr hr' h
  match d with
  | .atom b =>
    obtain ⟨rfl, hrest⟩ := Atom.chars_append_inj ha (every_atom.mp hd) hr hr' h
    exact ⟨.atom a, hrest⟩
  | .composite k [] => exact absurd h (Atom.chars_ne_constant ha k hr')
  | .composite k (d :: ds) =>
    rw [chars_composite_append] at h
    exact absurd h (Atom.chars_ne_open ha)

theorem readOnce_constant (j : Connective) : (composite j []).ReadOnce := by
  intro d rest rest' hd hr hr' h
  match d with
  | .atom b => exact absurd h.symm (Atom.chars_ne_constant (every_atom.mp hd) j hr)
  | .composite k [] =>
    obtain ⟨rfl, hrest⟩ := Connective.constant_append_inj h
    exact ⟨.composite j .nil, hrest⟩
  | .composite k (d :: ds) =>
    rw [chars_composite_append] at h
    exact absurd h (j.constant_ne_open _ _)

theorem readOnce_composite (j : Connective) {c : Condition} {cs : List Condition}
    (ih : ∀ x ∈ c :: cs, x.ReadOnce) : (composite j (c :: cs)).ReadOnce := by
  intro d rest rest' hd hr hr' h
  rw [chars_composite_append] at h
  match d with
  | .atom b => exact absurd h.symm (Atom.chars_ne_open (every_atom.mp hd))
  | .composite k [] => exact absurd h.symm (k.constant_ne_open _ _)
  | .composite k (d :: ds) =>
    obtain ⟨ihc, ihcs⟩ := List.forall_mem_cons.mp ih
    obtain ⟨hd, hds⟩ := List.forall_mem_cons.mp (every_composite.mp hd)
    rw [chars_composite_append] at h
    obtain ⟨hcd, htail⟩ := ihc hd
      (ends_items (EndsCondition.word j) EndsCondition.close cs rest)
      (ends_items (EndsCondition.word k) EndsCondition.close ds rest') (List.cons.inj h).2
    rcases eq_or_nil_of_parts htail with rfl | ⟨rfl, rfl⟩
    · obtain ⟨hparts, hrest⟩ := forall₂_of_items (fun x hx y hy _ _ => ihcs x hx (hds y hy))
        (EndsCondition.word j) EndsCondition.close j.word_ne_close htail
      exact ⟨.composite j (.cons hcd hparts), hrest⟩
    · exact ⟨.single j k hcd, (List.cons.inj htail).2⟩

/-- What is displayed of legible conditions is read in one way. -/
theorem readOnce {c : Condition} (h : c.Every Atom.Legible) : c.ReadOnce := by
  induction c with
  | atom a => exact readOnce_atom (every_atom.mp h)
  | composite k cs ih =>
    have hparts : ∀ c ∈ cs, c.ReadOnce := fun c hc => ih c hc (every_composite.mp h c hc)
    cases cs with
    | nil => exact readOnce_constant k
    | cons c cs => exact readOnce_composite k hparts

/-- What is the same for parts that are alike is the same for their lists. -/
theorem map_eq_of_alike {β : Type} {f : Condition → β} {cs ds : List Condition}
    (ih : ∀ c ∈ cs, ∀ d, c.Alike d → f c = f d) (h : List.Forall₂ Alike cs ds) :
    cs.map f = ds.map f := by
  induction h with
  | nil => rfl
  | cons hcd _ ihs =>
    obtain ⟨ihc, ihcs⟩ := List.forall_mem_cons.mp ih
    rw [List.map_cons, List.map_cons, ihc _ hcd, ihs ihcs]

theorem Alike.chars_eq {c d : Condition} (h : c.Alike d) : c.chars = d.chars := by
  induction c generalizing d with
  | atom a =>
    cases h
    rfl
  | composite k cs ih =>
    have hcons (j : Connective) (x : Condition) (xs : List Condition) :
        (Condition.composite j (x :: xs)).chars =
          '(' :: x.chars ++ (xs.map chars).flatMap (j.word.toList ++ ·) ++ [')'] := by
      rw [chars, charsAll_eq_flatMap, List.flatMap_map]
    cases h with
    | composite _ parts =>
      have hmap := map_eq_of_alike (fun c hc d => ih c hc) parts
      cases parts with
      | nil => rfl
      | cons =>
        obtain ⟨hc, hcs⟩ := List.cons.inj hmap
        rw [hcons, hcons, hc, hcs]
    | single _ k part =>
      rw [hcons, hcons, ih _ List.mem_cons_self part]
      rfl

theorem Alike.normalize_eq {c d : Condition} (h : c.Alike d) : c.normalize = d.normalize := by
  induction c generalizing d with
  | atom a =>
    cases h
    rfl
  | composite k cs ih =>
    have hsingle (j : Connective) (x : Condition) :
        (Condition.composite j [x]).normalize = x.normalize := by
      rw [normalize, normalizeAll_eq_map]
      exact join_singleton (normal_normalize x)
    cases h with
    | composite _ parts =>
      rw [normalize, normalize, normalizeAll_eq_map, normalizeAll_eq_map,
        map_eq_of_alike (fun c hc d => ih c hc) parts]
    | single _ k part => rw [hsingle, hsingle, ih _ List.mem_cons_self part]

/-- Legible conditions are displayed alike exactly if they are the same except for the connectives
of composites of a single part, and then they have the same normal form. -/
theorem display_eq_iff_alike (c d : Condition) (hc : c.Every Atom.Legible)
    (hd : d.Every Atom.Legible) :
    (c.display = d.display ↔ c.Alike d) ∧ (c.display = d.display → c.normalize = d.normalize) := by
  have halike (h : c.display = d.display) : c.Alike d := by
    have hchars : c.chars ++ [] = d.chars ++ [] := by rw [String.ofList_injective h]
    exact (readOnce hc hd .done .done hchars).1
  refine ⟨⟨halike, fun h => ?_⟩, fun h => (halike h).normalize_eq⟩
  rw [display, display, h.chars_eq]

/-- A quote, a bracket and a joining word in a text, fields named like constants, a single part. -/
theorem display_eq_iff_alike_single :
    Alike
      (composite .any [text ⟨"TRUE", .like, "') AND (", true⟩,
        composite .all [comparison ⟨"FALSE", .isIn, .set [.int 1, .text "it's"]⟩]])
      (composite .any [text ⟨"TRUE", .like, "') AND (", true⟩,
        composite .any [comparison ⟨"FALSE", .isIn, .set [.int 1, .text "it's"]⟩]]) := by
  have htext : Every Atom.Legible (text ⟨"TRUE", .like, "') AND (", true⟩) :=
    every_atom.mpr (show "TRUE".toList.all isNameChar = true by rfl)
  have hset : Every Atom.Legible (comparison ⟨"FALSE", .isIn, .set [.int 1, .text "it's"]⟩) := by
    refine every_atom.mpr ⟨rfl, rfl, Operand.legible_set.mpr ?_⟩
    intro e he
    simp only [List.mem_cons, List.not_mem_nil, or_false] at he
    rcases he with rfl | rfl <;> exact Operand.legible_of_scalar rfl (by simp)
  have hboth (k : Connective) : Every Atom.Legible
      (composite .any [text ⟨"TRUE", .like, "') AND (", true⟩,
        composite k [comparison ⟨"FALSE", .isIn, .set [.int 1, .text "it's"]⟩]]) := by
    refine every_composite.mpr (List.forall_mem_cons.mpr ⟨htext, List.forall_mem_singleton.mpr ?_⟩)
    exact every_composite.mpr (List.forall_mem_singleton.mpr hset)
  exact (display_eq_iff_alike _ _ (hboth .all) (hboth .any)).1.mp rfl

/-- With a text for its operand, a comparison is displayed as the test of that text is. -/
example : (comparison ⟨"name", .eq, .text "a"⟩).display = (text ⟨"name", .eq, "a", false⟩).display :=
  rfl

end Condition

end

end Criteria
