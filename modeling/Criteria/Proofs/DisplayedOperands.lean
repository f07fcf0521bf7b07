import Criteria.Operand.Display
import Criteria.Proofs.Canonical
import Criteria.Proofs.Scanning
import Mathlib.Data.List.Forall2

/-!
# Reading displayed operands

Two operands that are displayed alike, with anything behind them that no operand goes on with, are
the same (`Operand.chars_append_inj`). Bytes, truth values, integers and the absent operand are
words, each of its own form; a text ends at its first quote that is not doubled, whatever it says;
and the elements of a set are read one by one. Doubles and unsigned integers are left out: they can
be displayed as an integer is.
-/

namespace Criteria

section
variable {p q : Char → Bool} {xs ys rest rest' : List Char}

theorem StopsAt.mono (hpq : ∀ c, q c = true → p c = true) (h : StopsAt p rest) : StopsAt q rest := by
  intro c cs hc
  by_contra hq
  exact absurd (hpq c (Bool.not_eq_false _ ▸ hq)) (Bool.eq_false_iff.mp (h c cs hc))

theorem stopsAt_cons {c : Char} (h : p c = false) (cs : List Char) : StopsAt p (c :: cs) := by
  intro d ds hd
  rw [← (List.cons.inj hd).1, h]

theorem append_inj_of_stopsAt (hx : ∀ c ∈ xs, p c = true) (hy : ∀ c ∈ ys, p c = true)
    (hr : StopsAt p rest) (hr' : StopsAt p rest') (h : xs ++ rest = ys ++ rest') :
    xs = ys ∧ rest = rest' := by
  constructor
  · rw [← takeWhile_append hx hr, h, takeWhile_append hy hr']
  · rw [← dropWhile_append hx hr, h, dropWhile_append hy hr']

end

/-! ## Items between brackets -/

section
variable {α : Type} {R : α → α → Prop} {write : α → List Char} {Ends : List Char → Prop}
  {sep rest rest' : List Char}

/-- Behind an item comes a separator or the bracket. -/
theorem ends_items (separator : ∀ r, Ends (sep ++ r)) (close : ∀ r, Ends (')' :: r)) (as : List α)
    (rest : List Char) : Ends (as.flatMap (fun a => sep ++ write a) ++ ')' :: rest) := by
  cases as with
  | nil => exact close rest
  | cons a as =>
    rw [List.flatMap_cons, List.append_assoc, List.append_assoc]
    exact separator _

/-- Items that each follow a separator, up to a bracket, are read one by one if each of them is. -/
theorem forall₂_of_items {as bs : List α}
    (item : ∀ a ∈ as, ∀ b ∈ bs, ∀ r r', Ends r → Ends r' → write a ++ r = write b ++ r' →
      R a b ∧ r = r')
    (separator : ∀ r, Ends (sep ++ r)) (close : ∀ r, Ends (')' :: r))
    (differ : ∀ r r', sep ++ r ≠ ')' :: r')
    (h : as.flatMap (fun a => sep ++ write a) ++ ')' :: rest =
      bs.flatMap (fun b => sep ++ write b) ++ ')' :: rest') :
    List.Forall₂ R as bs ∧ rest = rest' := by
  induction as generalizing bs with
  | nil =>
    cases bs with
    | nil => exact ⟨.nil, (List.cons.inj h).2⟩
    | cons b bs =>
      rw [List.flatMap_cons, List.append_assoc, List.append_assoc] at h
      exact absurd h.symm (differ _ _)
  | cons a as ih =>
    cases bs with
    | nil =>
      rw [List.flatMap_cons, List.append_assoc, List.append_assoc] at h
      exact absurd h (differ _ _)
    | cons b bs =>
      simp only [List.flatMap_cons, List.append_assoc] at h
      obtain ⟨hab, htail⟩ := item a List.mem_cons_self b List.mem_cons_self _ _
        (ends_items separator close as rest) (ends_items separator close bs rest')
        (List.append_cancel_left h)
      obtain ⟨hrest, heq⟩ := ih (fun a ha b hb =>
        item a (List.mem_cons_of_mem _ ha) b (List.mem_cons_of_mem _ hb)) htail
      exact ⟨.cons hab hrest, heq⟩

end

theorem intercalate_cons {α : Type} (sep x : List α) (xs : List (List α)) :
    sep.intercalate (x :: xs) = x ++ xs.flatMap (sep ++ ·) := by
  induction xs generalizing x with
  | nil => simp [List.intercalate]
  | cons y ys ih =>
    rw [List.flatMap_cons, List.append_assoc, ← ih]
    simp [List.intercalate, List.intersperse]

/-- A quote inside a text is followed by another one, and the quote behind it is not. -/
theorem not_ends_doubleQuotes {es rest rest' : List Char} (hr : StopsAt (· == quoteMark) rest)
    (c : Char) (h : quoteMark :: rest = doubleQuotes (c :: es) ++ rest') : False := by
  by_cases hc : c = quoteMark
  · simp only [doubleQuotes, List.flatMap_cons, hc, if_true, List.cons_append, List.nil_append,
      List.cons.injEq, true_and] at h
    exact absurd (hr _ _ h) (by decide)
  · simp only [doubleQuotes, List.flatMap_cons, hc, if_false, List.cons_append, List.nil_append,
      List.cons.injEq] at h
    exact hc h.1.symm

theorem doubleQuotes_append_inj {cs ds rest rest' : List Char} (hr : StopsAt (· == quoteMark) rest)
    (hr' : StopsAt (· == quoteMark) rest')
    (h : doubleQuotes cs ++ quoteMark :: rest = doubleQuotes ds ++ quoteMark :: rest') :
    cs = ds ∧ rest = rest' := by
  induction cs generalizing ds with
  | nil =>
    cases ds with
    | nil => exact ⟨rfl, (List.cons.inj h).2⟩
    | cons d ds => exact (not_ends_doubleQuotes hr d h).elim
  | cons c cs ih =>
    cases ds with
    | nil => exact (not_ends_doubleQuotes hr' c h.symm).elim
    | cons d ds =>
      by_cases hc : c = quoteMark <;> by_cases hd : d = quoteMark <;>
        simp only [doubleQuotes, List.flatMap_cons, hc, hd, if_true, if_false, List.cons_append,
          List.nil_append, List.cons.injEq, true_and] at h
      · obtain ⟨rfl, hrest⟩ := ih h
        exact ⟨by rw [hc, hd], hrest⟩
      · exact absurd h.1.symm hd
      · exact h.1.elim
      · obtain ⟨rfl, hrest⟩ := ih h.2
        exact ⟨by rw [h.1], hrest⟩

theorem quoted_append_inj {s t : String} {rest rest' : List Char}
    (hr : StopsAt (· == quoteMark) rest) (hr' : StopsAt (· == quoteMark) rest')
    (h : quoted s ++ rest = quoted t ++ rest') : s = t ∧ rest = rest' := by
  simp only [quoted, List.cons_append, List.append_assoc, List.cons.injEq, true_and,
    List.nil_append] at h
  obtain ⟨hst, hrest⟩ := doubleQuotes_append_inj hr hr' h
  exact ⟨String.toList_inj.mp hst, hrest⟩

theorem digitsOf_inj {m n : Nat} (h : digitsOf m = digitsOf n) : m = n := by
  rw [← numberOf_digitsOf m, h, numberOf_digitsOf]

theorem isDigit_of_mem_signedDigits {n : Int} {c : Char} (h : c ∈ signedDigits n) :
    c.isDigit = true ∨ c = '-' := by
  cases n with
  | ofNat n => exact Or.inl (isDigit_of_mem_digitsOf h)
  | negSucc n =>
    rcases List.mem_cons.mp h with h | h
    · exact Or.inr h
    · exact Or.inl (isDigit_of_mem_digitsOf h)

theorem signedDigits_inj {m n : Int} (h : signedDigits m = signedDigits n) : m = n := by
  have hminus {k : Nat} {cs : List Char} (h : digitsOf k = '-' :: cs) : False := by
    have hdigit : '-'.isDigit = true := isDigit_of_mem_digitsOf (h ▸ List.mem_cons_self)
    exact absurd hdigit (by decide)
  cases m with
  | ofNat m =>
    cases n with
    | ofNat n => rw [digitsOf_inj h]
    | negSucc n => exact (hminus h).elim
  | negSucc m =>
    cases n with
    | ofNat n => exact (hminus h.symm).elim
    | negSucc n => rw [Nat.succ.inj (digitsOf_inj (List.cons.inj h).2)]

namespace Operand

theorem digitChar_inj : ∀ m, m < 16 → ∀ n, n < 16 → m.digitChar = n.digitChar → m = n := by
  decide

theorem hexPair_inj {b c : UInt8} (h : hexPair b = hexPair c) : b = c := by
  have hb := b.toNat_lt
  have hc := c.toNat_lt
  simp only [hexPair, List.cons.injEq, and_true] at h
  have hhigh := digitChar_inj _ (by omega) _ (by omega) h.1
  have hlow := digitChar_inj _ (by omega) _ (by omega) h.2
  exact UInt8.toNat_inj.mp (by omega)

theorem flatMap_hexPair_inj {bs cs : List UInt8} (h : bs.flatMap hexPair = cs.flatMap hexPair) :
    bs = cs := by
  induction bs generalizing cs with
  | nil =>
    cases cs with
    | nil => rfl
    | cons c cs => cases h
  | cons b bs ih =>
    cases cs with
    | nil => cases h
    | cons c cs =>
      obtain ⟨hpair, hrest⟩ := List.append_inj h rfl
      rw [hexPair_inj hpair, ih hrest]

def isPlain (c : Char) : Bool :=
  c.isAlphanum || c == '-'

def IsWord : Operand → Prop
  | blob _ | bool _ | int _ | null => True
  | _ => False

theorem isPlain_digitChar : ∀ n, n < 16 → isPlain n.digitChar = true := by
  decide

theorem isPlain_of_mem_chars {a : Operand} (h : a.IsWord) {c : Char} (hc : c ∈ a.chars) :
    isPlain c = true := by
  cases a with
  | blob bytes =>
    simp only [chars, List.mem_cons, List.mem_flatMap] at hc
    rcases hc with rfl | rfl | ⟨b, _, hc⟩
    · decide
    · decide
    · have hb := b.toNat_lt
      simp only [hexPair, List.mem_cons, List.not_mem_nil, or_false] at hc
      rcases hc with rfl | rfl <;> exact isPlain_digitChar _ (by omega)
  | bool b =>
    have hword : (bool b).chars.all isPlain = true := by cases b <;> rfl
    exact List.all_eq_true.mp hword c hc
  | int n =>
    rcases isDigit_of_mem_signedDigits hc with h | rfl
    · simp [isPlain, Char.isAlphanum, h]
    · decide
  | null => exact List.all_eq_true.mp (show null.chars.all isPlain = true by rfl) c hc
  | float | set | text | uint => cases h

theorem exists_chars_eq_cons {a : Operand} (h : a.IsWord) :
    ∃ c cs, a.chars = c :: cs ∧ isPlain c = true := by
  have hne : a.chars ≠ [] := by
    cases a with
    | int n => cases hn : n.toInt <;> simp [chars, signedDigits, hn, digitsOf_ne_nil]
    | bool b => cases b <;> simp [chars]
    | blob | null => simp [chars]
    | float | set | text | uint => cases h
  obtain ⟨c, cs, hcs⟩ := List.exists_cons_of_ne_nil hne
  exact ⟨c, cs, hcs, isPlain_of_mem_chars h (hcs ▸ List.mem_cons_self)⟩

theorem eq_int_of_chars {a : Operand} {n : Int64} (ha : a.IsWord)
    (h : a.chars = (int n).chars) : a = int n := by
  have hdigits {c : Char} (hc : c ∈ a.chars) : c.isDigit = true ∨ c = '-' := by
    rw [h] at hc
    exact isDigit_of_mem_signedDigits hc
  cases a with
  | int m => rw [Int64.toInt_inj.mp (signedDigits_inj h)]
  | blob bytes => exact absurd (hdigits (c := 'x') (by simp [chars])) (by decide)
  | bool b =>
    cases b with
    | false => exact absurd (hdigits (c := 'f') (by decide)) (by decide)
    | true => exact absurd (hdigits (c := 't') (by decide)) (by decide)
  | null => exact absurd (hdigits (c := 'N') (by decide)) (by decide)
  | float | set | text | uint => cases ha

theorem chars_inj {a b : Operand} (ha : a.IsWord) (hb : b.IsWord) (h : a.chars = b.chars) :
    a = b := by
  cases a with
  | int n => exact (eq_int_of_chars hb h.symm).symm
  | blob bytes =>
    cases b with
    | int n => exact eq_int_of_chars ha h
    | blob bytes' => rw [flatMap_hexPair_inj (List.cons.inj (List.cons.inj h).2).2]
    | bool q => cases q <;> cases h
    | null => cases h
    | float | set | text | uint => cases hb
  | bool p =>
    cases b with
    | int n => exact eq_int_of_chars ha h
    | bool q => cases p <;> cases q <;> first | rfl | cases h
    | blob | null => cases p <;> cases h
    | float | set | text | uint => cases hb
  | null =>
    cases b with
    | int n => exact eq_int_of_chars ha h
    | null => rfl
    | bool q => cases q <;> cases h
    | blob => cases h
    | float | set | text | uint => cases hb
  | float | set | text | uint => cases ha

/-! ## Operands -/

/-- Whether no unsigned integer and no double is in the operand, at any depth of its sets. -/
def Legible (a : Operand) : Prop :=
  ∀ b, a.Holds b → (∀ n, b ≠ uint n) ∧ ∀ x, b ≠ float x

theorem legible_set {es : List Operand} : (set es).Legible ↔ ∀ e ∈ es, e.Legible := by
  constructor
  · exact fun h e he b hb => h b (.element he hb)
  · intro h b hb
    cases hb with
    | self => exact ⟨nofun, nofun⟩
    | element he hb => exact h _ he b hb

theorem legible_of_scalar {a : Operand} (hs : a.asSet = none)
    (h : (∀ n, a ≠ uint n) ∧ ∀ x, a ≠ float x) : a.Legible := by
  intro b hb
  cases hb with
  | self => exact h
  | element => cases hs

/-- A legible operand is a word, a text or a set. -/
theorem Legible.cases {a : Operand} (h : a.Legible) :
    a.IsWord ∨ (∃ s, a = text s) ∨ ∃ es, a = set es := by
  cases a with
  | blob | bool | int | null => exact Or.inl trivial
  | text s => exact Or.inr (Or.inl ⟨s, rfl⟩)
  | set es => exact Or.inr (Or.inr ⟨es, rfl⟩)
  | uint n => exact absurd rfl ((h _ (.self _)).1 n)
  | float x => exact absurd rfl ((h _ (.self _)).2 x)

/-- The characters that a displayed operand can go on with. -/
def goesOn (c : Char) : Bool :=
  isPlain c || c == quoteMark

theorem chars_set_nil (rest : List Char) : (set []).chars ++ rest = '(' :: ')' :: rest := rfl

theorem chars_set_cons (a : Operand) (as : List Operand) (rest : List Char) :
    (set (a :: as)).chars ++ rest =
      '(' :: (a.chars ++ (as.flatMap (fun b => [',', ' '] ++ b.chars) ++ ')' :: rest)) := by
  rw [chars, charsAll_eq_map, List.map_cons, intercalate_cons, List.flatMap_map]
  simp

theorem Legible.begins {a : Operand} (h : a.Legible) {c : Char} {cs rest : List Char}
    (hc : a.chars ++ rest = c :: cs) :
    a.IsWord ∧ isPlain c = true ∨ (∃ s, a = text s) ∧ c = quoteMark ∨
      (∃ es, a = set es) ∧ c = '(' := by
  rcases h.cases with hw | ⟨s, rfl⟩ | ⟨es, rfl⟩
  · obtain ⟨d, ds, hds, hd⟩ := exists_chars_eq_cons hw
    rw [hds] at hc
    exact Or.inl ⟨hw, (List.cons.inj hc).1 ▸ hd⟩
  · exact Or.inr (Or.inl ⟨⟨s, rfl⟩, (List.cons.inj hc).1.symm⟩)
  · exact Or.inr (Or.inr ⟨⟨es, rfl⟩, (List.cons.inj hc).1.symm⟩)

theorem Legible.chars_ne_close {a : Operand} (h : a.Legible) (rest cs : List Char) :
    a.chars ++ rest ≠ ')' :: cs := by
  intro hc
  rcases h.begins hc with ⟨-, hp⟩ | ⟨-, hp⟩ | ⟨-, hp⟩ <;> exact absurd hp (by decide)

/-- Whether an operand that is displayed, up to where none goes on, is no other legible operand. -/
def ReadOnce (a : Operand) : Prop :=
  ∀ ⦃b : Operand⦄ ⦃rest rest' : List Char⦄, b.Legible → StopsAt goesOn rest →
    StopsAt goesOn rest' → a.chars ++ rest = b.chars ++ rest' → a = b ∧ rest = rest'

theorem readOnce_word {a : Operand} (ha : a.IsWord) : a.ReadOnce := by
  intro b rest rest' hb hr hr' h
  have hplain {r : List Char} (h : StopsAt goesOn r) : StopsAt isPlain r :=
    h.mono fun c hc => by simp [goesOn, hc]
  obtain ⟨c, cs, hcs, hc⟩ := exists_chars_eq_cons ha
  have hbegin : b.chars ++ rest' = c :: (cs ++ rest) := by rw [← h, hcs, List.cons_append]
  rcases hb.begins hbegin with ⟨hwb, -⟩ | ⟨-, rfl⟩ | ⟨-, rfl⟩
  · obtain ⟨hchars, hrest⟩ := append_inj_of_stopsAt (fun _ => isPlain_of_mem_chars ha)
      (fun _ => isPlain_of_mem_chars hwb) (hplain hr) (hplain hr') h
    exact ⟨chars_inj ha hwb hchars, hrest⟩
  · exact absurd hc (by decide)
  · exact absurd hc (by decide)

theorem readOnce_text (s : String) : (text s).ReadOnce := by
  intro b rest rest' hb hr hr' h
  have hquote {r : List Char} (h : StopsAt goesOn r) : StopsAt (· == quoteMark) r :=
    h.mono fun c hc => by simp [goesOn, hc]
  rcases hb.begins h.symm with ⟨-, hc⟩ | ⟨⟨t, rfl⟩, -⟩ | ⟨-, hc⟩
  · exact absurd hc (by decide)
  · obtain ⟨rfl, hrest⟩ := quoted_append_inj (hquote hr) (hquote hr') h
    exact ⟨rfl, hrest⟩
  · exact absurd hc (by decide)

theorem readOnce_set {es : List Operand} (hes : ∀ e ∈ es, e.Legible) (ih : ∀ e ∈ es, e.ReadOnce) :
    (set es).ReadOnce := by
  intro b rest rest' hb hr hr' h
  have hsep (r : List Char) : StopsAt goesOn ([',', ' '] ++ r) := stopsAt_cons (by decide) _
  have hclose (r : List Char) : StopsAt goesOn (')' :: r) := stopsAt_cons (by decide) _
  rcases hb.begins h.symm with ⟨-, hc⟩ | ⟨-, hc⟩ | ⟨⟨fs, rfl⟩, -⟩
  · exact absurd hc (by decide)
  · exact absurd hc (by decide)
  cases es with
  | nil =>
    cases fs with
    | nil => exact ⟨rfl, (List.cons.inj (List.cons.inj h).2).2⟩
    | cons f fs =>
      rw [chars_set_nil, chars_set_cons] at h
      exact absurd (List.cons.inj h).2.symm ((legible_set.mp hb f List.mem_cons_self).chars_ne_close _ _)
  | cons e es =>
    cases fs with
    | nil =>
      rw [chars_set_nil, chars_set_cons] at h
      exact absurd (List.cons.inj h).2 ((hes e List.mem_cons_self).chars_ne_close _ _)
    | cons f fs =>
      obtain ⟨hf, hfs⟩ := List.forall_mem_cons.mp (legible_set.mp hb)
      obtain ⟨ihe, ihes⟩ := List.forall_mem_cons.mp ih
      rw [chars_set_cons, chars_set_cons] at h
      obtain ⟨rfl, htail⟩ := ihe hf (ends_items hsep hclose es rest)
        (ends_items hsep hclose fs rest') (List.cons.inj h).2
      obtain ⟨hitems, hrest⟩ := forall₂_of_items (R := Eq)
        (fun e he f hf r r' => ihes e he (hfs f hf)) hsep hclose (by simp) htail
      rw [List.forall₂_eq_eq_eq] at hitems
      exact ⟨by rw [hitems], hrest⟩

/-- What is displayed of legible operands is read in one way. -/
theorem Legible.readOnce {a : Operand} (h : a.Legible) : a.ReadOnce := by
  induction a with
  | scalar a hscalar =>
    rcases h.cases with hw | ⟨s, rfl⟩ | ⟨es, rfl⟩
    · exact readOnce_word hw
    · exact readOnce_text s
    · cases hscalar
  | set es ih =>
    have hes := legible_set.mp h
    exact readOnce_set hes fun e he => ih e he (hes e he)

end Operand

end Criteria
