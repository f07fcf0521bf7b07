import Criteria.Json
import Criteria.Proofs.Shortest

/-!
# Scanning written text

The text of a numeral is read as that numeral (`Numeral.ofChars?_chars`), and the text of tokens is
scanned as those tokens. A bracket or a separator ends where it stands, and so does a string; a word
or a number ends where a bracket that closes, a separator or nothing follows (`Delimited`).
-/

namespace Criteria

theorem isDigit_of_mem_digitsOf {n : Nat} {c : Char} (h : c ∈ digitsOf n) : c.isDigit = true :=
  Nat.isDigit_of_mem_toDigits (by decide) (by decide) h

theorem digitsOf_ne_nil (n : Nat) : digitsOf n ≠ [] :=
  Nat.toDigits_ne_nil

/-- Only the digits of zero begin with a zero. -/
theorem digitsOf_head {n : Nat} (h : n ≠ 0) : ∃ c cs, digitsOf n = c :: cs ∧ c ≠ '0' := by
  induction n using Nat.strongRecOn with
  | ind n ih =>
    unfold digitsOf at *
    rcases Nat.lt_or_ge n 10 with hn | hn
    · refine ⟨n.digitChar, [], Nat.toDigits_of_lt_base hn, ?_⟩
      have : ∀ m, m < 10 → m ≠ 0 → m.digitChar ≠ '0' := by decide
      exact this n hn h
    · obtain ⟨c, cs, hcs, hc⟩ := ih (n / 10) (by omega) (by omega)
      rw [Nat.toDigits_of_base_le (by decide) hn, hcs]
      exact ⟨c, _, rfl, hc⟩

section
variable {p : Char → Bool} {ds rest : List Char}

/-- Where characters of a kind end. -/
def StopsAt (p : Char → Bool) (rest : List Char) : Prop :=
  ∀ c cs, rest = c :: cs → p c = false

theorem takeWhile_append (hd : ∀ c ∈ ds, p c = true) (hr : StopsAt p rest) :
    (ds ++ rest).takeWhile p = ds := by
  rw [List.takeWhile_append_of_pos hd]
  cases rest with
  | nil => simp
  | cons c cs => simp [hr c cs rfl]

theorem dropWhile_append (hd : ∀ c ∈ ds, p c = true) (hr : StopsAt p rest) :
    (ds ++ rest).dropWhile p = rest := by
  rw [List.dropWhile_append_of_pos hd]
  cases rest with
  | nil => rfl
  | cons c cs => simp [hr c cs rfl]

end

/-! ## Numerals -/

namespace Numeral

theorem readWhole_digitsOf (n : Nat) : readWhole (digitsOf n) = some n := by
  by_cases h : n = 0
  · rw [h]
    rfl
  · obtain ⟨c, cs, hcs, hc⟩ := digitsOf_head h
    have hnum := numberOf_digitsOf n
    rw [hcs] at hnum ⊢
    unfold readWhole
    split
    · next h => cases h
    · next h => exact absurd (List.cons.inj h).1 hc
    · next h => exact absurd (List.cons.inj h).1 hc
    · rw [hnum]

theorem readDigits_digitsOf (n : Nat) : readDigits (digitsOf n) = some n := by
  have hall : (digitsOf n).all Char.isDigit = true :=
    List.all_eq_true.mpr fun _ => isDigit_of_mem_digitsOf
  have hne : (digitsOf n).isEmpty = false := by
    rw [List.isEmpty_eq_false_iff]
    exact digitsOf_ne_nil n
  rw [readDigits, hall, hne, numberOf_digitsOf]
  rfl

theorem readExponent_exponentChars (e : Int) : readExponent (exponentChars e) = some (some e) := by
  unfold exponentChars
  rcases Int.lt_or_le e 0 with h | h
  · have he : -(e.natAbs : Int) = e := by omega
    rw [if_pos h, readExponent, if_pos (Or.inl rfl)]
    rw [readDigits_digitsOf]
    exact congrArg (some ∘ some) he
  · have he : (e.natAbs : Int) = e := by omega
    rw [if_neg (Int.not_lt.mpr h), readExponent, if_pos (Or.inl rfl)]
    rw [readDigits_digitsOf]
    exact congrArg (some ∘ some) he

theorem readExponent_getD (e : Option Int) :
    readExponent ((e.map exponentChars).getD []) = some e := by
  cases e with
  | none => rfl
  | some e => exact readExponent_exponentChars e

theorem stopsAt_exponent (e : Option Int) :
    StopsAt Char.isDigit ((e.map exponentChars).getD []) := by
  intro c cs h
  cases e with
  | none => cases h
  | some e =>
    obtain ⟨rfl, _⟩ := List.cons.inj h
    decide

/-- Whether the places of a numeral are digits. -/
def Written (n : Numeral) : Prop :=
  ∀ c ∈ n.places, c.isDigit = true

def unsignedChars (n : Numeral) : List Char :=
  digitsOf n.whole ++ ((if n.places.isEmpty then [] else '.' :: n.places) ++
    (n.exponent.map exponentChars).getD [])

theorem chars_eq (n : Numeral) :
    n.chars = (if n.negative then ['-'] else []) ++ n.unsignedChars := by
  simp only [chars, unsignedChars, List.append_assoc]

theorem readUnsigned_chars {n : Numeral} (h : n.Written) :
    readUnsigned n.negative n.unsignedChars = some n := by
  obtain ⟨negative, whole, places, exponent⟩ := n
  have hexp := stopsAt_exponent exponent
  have hread := readExponent_getD exponent
  have hdigits : ∀ c ∈ digitsOf whole, c.isDigit = true := fun _ => isDigit_of_mem_digitsOf
  unfold readUnsigned unsignedChars
  generalize hrest : (exponent.map exponentChars).getD [] = rest at *
  cases places with
  | nil =>
    have hdot : ∀ cs, rest ≠ '.' :: cs := by
      rintro cs rfl
      cases exponent with
      | none => cases hrest
      | some e => cases hrest
    dsimp only [List.isEmpty_nil, if_true, List.nil_append]
    rw [if_pos rfl, List.nil_append, takeWhile_append hdigits hexp, dropWhile_append hdigits hexp,
      readWhole_digitsOf]
    simp only [Option.bind_eq_bind, Option.bind_some]
    rw [hread]
    rfl
  | cons d places =>
    have hstop : StopsAt Char.isDigit ('.' :: (d :: places ++ rest)) := by
      intro c cs h
      obtain ⟨rfl, _⟩ := List.cons.inj h
      decide
    dsimp only
    rw [if_neg (by simp), List.cons_append, takeWhile_append hdigits hstop,
      dropWhile_append hdigits hstop, readWhole_digitsOf]
    have hplaces : ∀ c ∈ d :: places, c.isDigit = true := h
    simp only [Option.bind_eq_bind, Option.bind_some]
    rw [takeWhile_append hplaces hexp, dropWhile_append hplaces hexp, hread]
    rfl

theorem ofChars?_chars {n : Numeral} (h : n.Written) : ofChars? n.chars = some n := by
  have hread := readUnsigned_chars h
  rw [chars_eq]
  obtain ⟨c, cs, hcs⟩ := List.exists_cons_of_ne_nil (digitsOf_ne_nil n.whole)
  cases hn : n.negative with
  | true =>
    rw [hn] at hread
    exact hread
  | false =>
    rw [hn] at hread
    have hminus : ∀ cs, n.unsignedChars ≠ '-' :: cs := by
      intro ds hds
      have hdigit := isDigit_of_mem_digitsOf (n := n.whole) (c := c) (by simp [hcs])
      rw [unsignedChars, hcs] at hds
      obtain ⟨rfl, _⟩ := List.cons.inj hds
      cases hdigit
    unfold ofChars?
    split
    · next h => exact absurd h (hminus _)
    · exact hread

theorem written_ofInt (n : Int) : (ofInt n).Written := by
  intro c hc
  cases hc

theorem toInt?_ofInt (n : Int) : (ofInt n).toInt? = some n := by
  unfold ofInt toInt?
  rcases Int.lt_or_le n 0 with h | h
  · have hne : (n.natAbs == 0) = false := beq_eq_false_iff_ne.mpr (by omega)
    have hn : -(n.natAbs : Int) = n := by omega
    rw [decide_eq_true h, hne]
    exact congrArg some hn
  · have hn : (n.natAbs : Int) = n := by omega
    rw [decide_eq_false (Int.not_lt.mpr h)]
    exact congrArg some hn

theorem isDigit_of_mem_fraction {d : Decimal} {c : Char} (h : c ∈ d.fraction) :
    c.isDigit = true := by
  unfold Decimal.fraction at h
  dsimp only at h
  split at h
  · cases h
  · rcases List.mem_append.mp h with h | h
    · rw [List.eq_of_mem_replicate h]
      decide
    · exact isDigit_of_mem_digitsOf h

theorem written_ofFloat (x : Float64) : (ofFloat x).Written := by
  intro c hc
  unfold ofFloat at hc
  dsimp only at hc
  split at hc
  · dsimp only at hc
    split at hc
    · rw [List.mem_singleton.mp hc]
      decide
    · exact isDigit_of_mem_fraction hc
  · exact isDigit_of_mem_digitsOf (List.mem_of_mem_drop hc)

end Numeral

namespace Token

/-- Whether a number or a word that stands before the text ends there. -/
def Delimited (rest : List Char) : Prop :=
  ∀ c cs, rest = c :: cs → c ∈ [',', ':', ']', '\x7d']

theorem isNumberChar_of_isDigit {c : Char} (h : c.isDigit = true) : isNumberChar c = true := by
  simp [isNumberChar, h]

theorem isNumberChar_of_mem_chars {n : Numeral} (h : n.Written) {c : Char} (hc : c ∈ n.chars) :
    isNumberChar c = true := by
  simp only [Numeral.chars, List.mem_append] at hc
  rcases hc with ((hc | hc) | hc) | hc
  · split at hc
    · rw [List.mem_singleton.mp hc]
      decide
    · cases hc
  · exact isNumberChar_of_isDigit (isDigit_of_mem_digitsOf hc)
  · split at hc
    · cases hc
    · rcases List.mem_cons.mp hc with rfl | hc
      · decide
      · exact isNumberChar_of_isDigit (h c hc)
  · cases he : n.exponent with
    | none =>
      rw [he] at hc
      cases hc
    | some e =>
      rw [he] at hc
      rcases List.mem_cons.mp hc with rfl | hc
      · decide
      · rcases List.mem_cons.mp hc with rfl | hc
        · split <;> decide
        · exact isNumberChar_of_isDigit (isDigit_of_mem_digitsOf hc)

theorem scan_number {cs : List Char} (h : ∀ c ∈ cs, isNumberChar c = true) (read rest : List Char) :
    scan (.number read) (cs ++ rest) = scan (.number (cs.reverse ++ read)) rest := by
  induction cs generalizing read with
  | nil => rfl
  | cons c cs ih =>
    have hc := h c List.mem_cons_self
    rw [List.cons_append, scan, step, if_pos hc]
    dsimp only
    rw [List.nil_append, ih fun d hd => h d (List.mem_cons_of_mem _ hd), List.reverse_cons,
      List.append_assoc]
    rfl

theorem scan_letters {cs : List Char} (h : ∀ c ∈ cs, c.isLower = true) (read rest : List Char) :
    scan (.word read) (cs ++ rest) = scan (.word (cs.reverse ++ read)) rest := by
  induction cs generalizing read with
  | nil => rfl
  | cons c cs ih =>
    have hc := h c List.mem_cons_self
    rw [List.cons_append, scan, step, if_pos hc]
    dsimp only
    rw [List.nil_append, ih fun d hd => h d (List.mem_cons_of_mem _ hd), List.reverse_cons,
      List.append_assoc]
    rfl

theorem scan_number_end {read rest : List Char} {t : Token} (h : ofNumber read = some t)
    (hr : Delimited rest) : scan (.number read) rest = t :: scan .between rest := by
  cases rest with
  | nil => simp [scan, finish, h]
  | cons c cs =>
    have hc := hr c cs rfl
    simp only [List.mem_cons, List.not_mem_nil, or_false] at hc
    rcases hc with rfl | rfl | rfl | rfl <;> simp [scan, step, start, isNumberChar, h]

theorem scan_word_end {read rest : List Char} {t : Token} (h : ofWord read = some t)
    (hr : Delimited rest) : scan (.word read) rest = t :: scan .between rest := by
  cases rest with
  | nil => simp [scan, finish, h]
  | cons c cs =>
    have hc := hr c cs rfl
    simp only [List.mem_cons, List.not_mem_nil, or_false] at hc
    rcases hc with rfl | rfl | rfl | rfl <;> simp [scan, step, start, h]

theorem start_number {c : Char} (h : c = '-' ∨ c.isDigit = true) :
    start c = some ([], .number [c]) := by
  unfold start
  split
  case h_12 =>
    rw [if_pos (by rcases h with rfl | h <;> simp_all)]
  all_goals
    rcases h with h | h <;> cases h

theorem chars_number_cons (n : Numeral) :
    ∃ c cs, n.chars = c :: cs ∧ (c = '-' ∨ c.isDigit = true) := by
  obtain ⟨d, ds, hds⟩ := List.exists_cons_of_ne_nil (digitsOf_ne_nil n.whole)
  rw [Numeral.chars_eq, Numeral.unsignedChars, hds]
  cases n.negative with
  | true => exact ⟨'-', _, rfl, Or.inl rfl⟩
  | false => exact ⟨d, _, rfl, Or.inr (isDigit_of_mem_digitsOf (n := n.whole) (by simp [hds]))⟩

theorem scan_numeral {n : Numeral} (h : n.Written) {rest : List Char} (hr : Delimited rest) :
    scan .between (n.chars ++ rest) = number n :: scan .between rest := by
  obtain ⟨c, cs, hcs, hc⟩ := chars_number_cons n
  have hall : ∀ d ∈ cs, isNumberChar d = true := fun d hd =>
    isNumberChar_of_mem_chars h (by rw [hcs]; exact List.mem_cons_of_mem c hd)
  rw [hcs, List.cons_append, scan, step, start_number hc]
  dsimp only
  rw [List.nil_append, scan_number hall, scan_number_end _ hr]
  rw [ofNumber, List.reverse_append, List.reverse_reverse, List.reverse_singleton,
    List.singleton_append, ← hcs, Numeral.ofChars?_chars h, Option.map_some]

/-! ## Strings -/

/-- What is read of a character of a string: a control character without a letter of its own is
read as a code unit. -/
def piece (c : Char) : Piece :=
  if c.toNat < 0x20 ∧ c ∉ ['\x08', '\x0c', '\n', '\r', '\t'] then .unit c.toNat else .char c

theorem hexDigit?_digitChar {n : Nat} (h : n < 16) : hexDigit? n.digitChar = some n := by
  have : ∀ m, m < 16 → hexDigit? m.digitChar = some m := by decide
  exact this n h

theorem scan_escape_unit {n : Nat} (h : n < 0x20) (read : List Piece) (rest : List Char) :
    scan (.string read) (['\\', 'u', '0', '0', (n / 16).digitChar, (n % 16).digitChar] ++ rest) =
      scan (.string (.unit n :: read)) rest := by
  have hhigh : hexDigit? (n / 16).digitChar = some (n / 16) := hexDigit?_digitChar (by omega)
  have hlow : hexDigit? (n % 16).digitChar = some (n % 16) := hexDigit?_digitChar (by omega)
  have hzero : hexDigit? '0' = some 0 := rfl
  have hvalue : 16 * (n / 16) + n % 16 = n := by omega
  simp [scan, step, hhigh, hlow, hzero, hvalue]

theorem scan_escape (c : Char) (read : List Piece) (rest : List Char) :
    scan (.string read) (escape c ++ rest) = scan (.string (piece c :: read)) rest := by
  unfold escape
  split
  · next h => rcases h with rfl | rfl <;> simp [scan, step, unescape?, piece]
  split
  · next h => subst h; simp [scan, step, unescape?, piece]
  split
  · next h => subst h; simp [scan, step, unescape?, piece]
  split
  · next h => subst h; simp [scan, step, unescape?, piece]
  split
  · next h => subst h; simp [scan, step, unescape?, piece]
  split
  · next h => subst h; simp [scan, step, unescape?, piece]
  split
  · next h =>
    rw [scan_escape_unit h, piece, if_pos ⟨h, by simp [*]⟩]
  · next hquote _ _ _ _ _ h =>
    rw [not_or] at hquote
    simp [scan, step, piece, h, hquote]

theorem scan_escapes (cs : List Char) (read : List Piece) (rest : List Char) :
    scan (.string read) (cs.flatMap escape ++ rest) =
      scan (.string ((cs.map piece).reverse ++ read)) rest := by
  induction cs generalizing read with
  | nil => rfl
  | cons c cs ih =>
    rw [List.flatMap_cons, List.append_assoc, scan_escape, ih, List.map_cons, List.reverse_cons,
      List.append_assoc]
    rfl

theorem spell_unit {u : Nat} (h : u < 0x20) (ps : List Piece) :
    spell (.unit u :: ps) = (spell ps).map (.ofNat u :: ·) := by
  have hlead : isLead u = false := by simp [isLead]; omega
  have htrail : isTrail u = false := by simp [isTrail]; omega
  cases ps with
  | nil => simp [spell, hlead, htrail]
  | cons p ps => cases p <;> simp [spell, hlead, htrail]

theorem spell_pieces (cs : List Char) : spell (cs.map piece) = some cs := by
  induction cs with
  | nil => rfl
  | cons c cs ih =>
    rw [List.map_cons, piece]
    split
    · next h => rw [spell_unit h.1, ih, Option.map_some, Char.ofNat_toNat]
    · rw [spell, ih, Option.map_some]

theorem scan_quote (cs : List Char) : scan .between ('"' :: cs) = scan (.string []) cs := by
  simp [scan, step, start]

theorem scan_string_end (read : List Piece) (rest : List Char) :
    scan (.string read) ('"' :: rest) = ofPieces read :: scan .between rest := by
  simp [scan, step]

theorem scan_string (s : String) (rest : List Char) :
    scan .between ((string (some s)).chars ++ rest) = string (some s) :: scan .between rest := by
  rw [chars]
  simp only [List.cons_append, List.append_assoc, List.nil_append]
  rw [scan_quote, scan_escapes, scan_string_end, ofPieces, List.append_nil, List.reverse_reverse,
    spell_pieces, Option.map_some, String.ofList_toList]

/-! ## Tokens -/

def isMark : Token → Bool
  | openList | closeList | openObject | closeObject | comma | colon => true
  | _ => false

/-- The tokens that are scanned from their own text. -/
def Written : Token → Prop
  | number n => n.Written
  | string s => s ≠ none
  | junk => False
  | _ => True

theorem scan_mark {t : Token} (h : t.isMark = true) (rest : List Char) :
    scan .between (t.chars ++ rest) = t :: scan .between rest := by
  cases t with
  | openList | closeList | openObject | closeObject | comma | colon => simp [chars, scan, step, start]
  | _ => cases h

theorem scan_word {w : List Char} {c : Char} {t : Token} (hc : start c = some ([], .word [c]))
    (hw : w.all Char.isLower = true) (ht : ofWord (c :: w).reverse = some t) {rest : List Char}
    (hr : Delimited rest) : scan .between (c :: w ++ rest) = t :: scan .between rest := by
  rw [List.cons_append, scan, step, hc]
  dsimp only
  rw [List.nil_append, scan_letters (List.all_eq_true.mp hw), ← List.reverse_cons, scan_word_end ht hr]

theorem scan_token {t : Token} (h : t.Written) {rest : List Char} (hr : Delimited rest) :
    scan .between (t.chars ++ rest) = t :: scan .between rest := by
  cases t with
  | openList | closeList | openObject | closeObject | comma | colon => exact scan_mark rfl rest
  | null => exact scan_word (w := ['u', 'l', 'l']) rfl rfl rfl hr
  | bool b =>
    cases b with
    | true => exact scan_word (w := ['r', 'u', 'e']) rfl rfl rfl hr
    | false => exact scan_word (w := ['a', 'l', 's', 'e']) rfl rfl rfl hr
  | number n => exact scan_numeral h hr
  | string s =>
    obtain ⟨s, rfl⟩ := Option.ne_none_iff_exists'.mp h
    exact scan_string s rest
  | junk => exact absurd h id

theorem delimited_nil : Delimited [] := by
  intro c cs h
  cases h

end Token

end Criteria
