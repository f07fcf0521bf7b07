import Criteria.Proofs.Nesting
import Criteria.Proofs.Scanning

/-!
# Reading written trees

A tree in which nothing is cut is read back from its text (`Json.ofText_text`), which has as many
brackets open at once as the tree is deep (`nesting_text`).
-/

namespace Criteria

open Token (Delimited delimited_nil scan_mark scan_token)

namespace Json

/-- Whether a tree is read back from its text. -/
structure Written (j : Json) : Prop where
  whole : j.isWhole = true
  tokens : ∀ t ∈ j.tokens, t.Written

theorem delimited_mark {t : Token} (h : t ∈ [.comma, .colon, .closeList, .closeObject])
    (rest : List Char) : Delimited (t.chars ++ rest) := by
  simp only [List.mem_cons, List.not_mem_nil, or_false] at h
  rcases h with rfl | rfl | rfl | rfl <;>
    · intro c cs h
      obtain ⟨rfl, _⟩ := List.cons.inj h
      decide

/-- The items of a list go on with a comma or the bracket that closes it. -/
theorem delimited_items {items : Items} (h : itemsWhole items = true) (rest : List Char) :
    Delimited ((itemTokens [.comma] items).flatMap Token.chars ++ rest) := by
  cases items with
  | done => exact delimited_mark (t := .closeList) (by simp) rest
  | cut => cases h
  | next v items =>
    rw [itemTokens, List.append_assoc, List.singleton_append, List.flatMap_cons, List.append_assoc]
    exact delimited_mark (by simp) _

theorem delimited_members {members : Members} (h : membersWhole members = true)
    (rest : List Char) : Delimited ((memberTokens [.comma] members).flatMap Token.chars ++ rest) := by
  cases members with
  | done => exact delimited_mark (t := .closeObject) (by simp) rest
  | cut => cases h
  | next k v members =>
    rw [memberTokens, List.append_assoc, List.singleton_append, List.flatMap_cons,
      List.append_assoc]
    exact delimited_mark (by simp) _

theorem scan_separator {separator : List Token} (h : separator = [] ∨ separator = [.comma])
    (rest : List Char) :
    Token.scan .between (separator.flatMap Token.chars ++ rest) =
      separator ++ Token.scan .between rest := by
  rcases h with rfl | rfl
  · rfl
  · exact scan_mark (t := .comma) rfl rest

mutual

theorem scan_tokens {j : Json} (hw : j.isWhole = true) (ht : ∀ t ∈ j.tokens, t.Written)
    {rest : List Char} (hr : Delimited rest) :
    Token.scan .between (j.tokens.flatMap Token.chars ++ rest) =
      j.tokens ++ Token.scan .between rest := by
  match j with
  | .null | .bool _ | .number _ | .string _ =>
    simp only [tokens, List.mem_singleton, forall_eq] at ht
    simp only [tokens, List.flatMap_singleton, List.singleton_append]
    exact scan_token ht hr
  | .list items =>
    simp only [tokens, List.forall_mem_cons] at ht
    rw [tokens, List.flatMap_cons, List.append_assoc, scan_mark rfl,
      scan_items (Or.inl rfl) hw ht.2, List.cons_append]
  | .object members =>
    simp only [tokens, List.forall_mem_cons] at ht
    rw [tokens, List.flatMap_cons, List.append_assoc, scan_mark rfl,
      scan_members (Or.inl rfl) hw ht.2, List.cons_append]

theorem scan_items {items : Items} {separator : List Token}
    (hs : separator = [] ∨ separator = [.comma]) (hw : itemsWhole items = true)
    (ht : ∀ t ∈ itemTokens separator items, t.Written) (rest : List Char) :
    Token.scan .between ((itemTokens separator items).flatMap Token.chars ++ rest) =
      itemTokens separator items ++ Token.scan .between rest := by
  match items with
  | .done => exact scan_mark (t := .closeList) rfl rest
  | .cut => cases hw
  | .next v items =>
    obtain ⟨hv, hitems⟩ := Bool.and_eq_true_iff.mp hw
    simp only [itemTokens, List.mem_append, or_imp, forall_and] at ht
    simp only [itemTokens, List.flatMap_append, List.append_assoc]
    rw [scan_separator hs, scan_tokens hv ht.1.2 (delimited_items hitems rest),
      scan_items (Or.inr rfl) hitems ht.2]

theorem scan_members {members : Members} {separator : List Token}
    (hs : separator = [] ∨ separator = [.comma]) (hw : membersWhole members = true)
    (ht : ∀ t ∈ memberTokens separator members, t.Written) (rest : List Char) :
    Token.scan .between ((memberTokens separator members).flatMap Token.chars ++ rest) =
      memberTokens separator members ++ Token.scan .between rest := by
  match members with
  | .done => exact scan_mark (t := .closeObject) rfl rest
  | .cut => cases hw
  | .next key v members =>
    obtain ⟨hv, hmembers⟩ := Bool.and_eq_true_iff.mp hw
    simp only [memberTokens, List.mem_append, List.mem_cons, or_imp, forall_and, forall_eq] at ht
    obtain ⟨⟨_, hkey, _, htokens⟩, hrest⟩ := ht
    simp only [memberTokens, List.flatMap_append, List.flatMap_cons, List.append_assoc]
    rw [scan_separator hs, scan_token hkey (delimited_mark (by simp) _), scan_mark rfl,
      scan_tokens hv htokens (delimited_members hmembers rest),
      scan_members (Or.inr rfl) hmembers hrest]
    simp

end

/-! ## Trees -/

theorem run_cons {s s' : State} {t : Token} (h : s.step t = some s') (ts : List Token) :
    s.run (t :: ts) = s'.run ts := by
  simp [State.run, h]

theorem run_listStart (j : Json) (stack : List Frame) (ts : List Token) :
    (State.listStart stack).run (j.tokens ++ ts) =
      (State.value (.list [] :: stack)).run (j.tokens ++ ts) := by
  cases j <;> rfl

mutual

/-- The tokens of a tree are read as that tree. -/
theorem run_tokens (j : Json) (hw : j.isWhole = true) (stack : List Frame) (ts : List Token) :
    (State.value stack).run (j.tokens ++ ts) = (State.after j stack).run ts := by
  match j with
  | .null | .bool _ | .number _ | .string _ => exact run_cons rfl ts
  | .list .done | .object .done =>
    rw [tokens, List.cons_append, run_cons rfl]
    exact run_cons rfl ts
  | .list .cut | .object .cut => cases hw
  | .list (.next v items) =>
    obtain ⟨hv, hitems⟩ := Bool.and_eq_true_iff.mp hw
    rw [tokens, List.cons_append, run_cons rfl, itemTokens, List.nil_append, List.append_assoc,
      run_listStart, run_tokens v hv, run_items items hitems]
    rfl
  | .object (.next key v members) =>
    obtain ⟨hv, hmembers⟩ := Bool.and_eq_true_iff.mp hw
    rw [tokens, List.cons_append, run_cons rfl, memberTokens, List.nil_append, List.append_assoc,
      List.cons_append, run_cons rfl, List.cons_append, run_cons rfl, run_tokens v hv,
      run_members members hmembers]
    rfl

theorem run_items (items : Items) (hw : itemsWhole items = true) (v : Json) (before : List Json)
    (stack : List Frame) (ts : List Token) :
    (State.after v (.list before :: stack)).run (itemTokens [.comma] items ++ ts) =
      (State.after (.list (items.after (v :: before))) stack).run ts := by
  match items with
  | .done => exact run_cons rfl ts
  | .cut => cases hw
  | .next w items =>
    obtain ⟨hv, hitems⟩ := Bool.and_eq_true_iff.mp hw
    rw [itemTokens, List.append_assoc, List.append_assoc, List.singleton_append, run_cons rfl,
      run_tokens w hv, run_items items hitems]
    rfl

theorem run_members (members : Members) (hw : membersWhole members = true) (v : Json)
    (before : List (Option String × Json)) (key : Option String) (stack : List Frame) (ts : List Token) :
    (State.after v (.object before key :: stack)).run (memberTokens [.comma] members ++ ts) =
      (State.after (.object (members.after ((key, v) :: before))) stack).run ts := by
  match members with
  | .done => exact run_cons rfl ts
  | .cut => cases hw
  | .next key w members =>
    obtain ⟨hv, hmembers⟩ := Bool.and_eq_true_iff.mp hw
    rw [memberTokens, List.append_assoc, List.append_assoc, List.singleton_append, run_cons rfl,
      List.cons_append, run_cons rfl, List.cons_append, run_cons rfl, run_tokens w hv,
      run_members members hmembers]
    rfl

end

theorem tokens_ofText_text {j : Json} (h : j.Written) : Token.ofText j.text = j.tokens := by
  have hscan := scan_tokens h.whole h.tokens delimited_nil
  rw [List.append_nil] at hscan
  rw [Token.ofText, text, String.toList_ofList, hscan]
  exact List.append_nil _

theorem ofText_text {j : Json} (h : j.Written) : ofText j.text = (some j, true) := by
  have hrun := run_tokens j h.whole [] []
  rw [List.append_nil] at hrun
  rw [ofText, tokens_ofText_text h, ofTokens, hrun]
  rfl

theorem nesting_text {j : Json} (h : j.Written) : nesting j.text = j.depth := by
  have hopen := mostOpen_tokens j h.whole 0 []
  rw [List.append_nil] at hopen
  rw [nesting, tokens_ofText_text h, hopen, mostOpen]
  omega

theorem written_string (s : String) : (ofString s).Written :=
  ⟨rfl, by simp [ofString, tokens, Token.Written]⟩

theorem written_bool (b : Bool) : (bool b).Written :=
  ⟨rfl, by simp [tokens, Token.Written]⟩

theorem written_number {n : Numeral} (h : n.Written) : (number n).Written :=
  ⟨rfl, by simpa [tokens, Token.Written] using h⟩

theorem written_list {vs : List Json} (h : ∀ v ∈ vs, v.Written) : (ofList vs).Written := by
  have hitems (separator : List Token) (hs : separator = [] ∨ separator = [.comma]) :
      itemsWhole (Items.ofList vs) = true ∧
        ∀ t ∈ itemTokens separator (Items.ofList vs), t.Written := by
    induction vs generalizing separator with
    | nil => simp [Items.ofList, itemsWhole, itemTokens, Token.Written]
    | cons v vs ih =>
      obtain ⟨hv, hvs⟩ := List.forall_mem_cons.mp h
      obtain ⟨hwhole, htokens⟩ := ih hvs [.comma] (Or.inr rfl)
      refine ⟨Bool.and_eq_true_iff.mpr ⟨hv.whole, hwhole⟩, ?_⟩
      simp only [Items.ofList, itemTokens, List.mem_append, or_imp, forall_and]
      refine ⟨⟨?_, hv.tokens⟩, htokens⟩
      rcases hs with rfl | rfl <;> simp [Token.Written]
  obtain ⟨hwhole, htokens⟩ := hitems [] (Or.inl rfl)
  refine ⟨hwhole, ?_⟩
  rw [ofList, tokens]
  exact List.forall_mem_cons.mpr ⟨trivial, htokens⟩

theorem written_members {members : List (String × Json)} (h : ∀ m ∈ members, m.2.Written) :
    (ofMembers members).Written := by
  have hmembers (separator : List Token) (hs : separator = [] ∨ separator = [.comma]) :
      membersWhole (Members.ofList members) = true ∧
        ∀ t ∈ memberTokens separator (Members.ofList members), t.Written := by
    induction members generalizing separator with
    | nil => simp [Members.ofList, membersWhole, memberTokens, Token.Written]
    | cons m members ih =>
      obtain ⟨key, v⟩ := m
      obtain ⟨hv, hrest⟩ := List.forall_mem_cons.mp h
      obtain ⟨hwhole, htokens⟩ := ih hrest [.comma] (Or.inr rfl)
      refine ⟨Bool.and_eq_true_iff.mpr ⟨hv.whole, hwhole⟩, ?_⟩
      simp only [Members.ofList, memberTokens, List.mem_append, List.mem_cons, or_imp, forall_and,
        forall_eq]
      refine ⟨⟨?_, Option.some_ne_none key, trivial, hv.tokens⟩, htokens⟩
      rcases hs with rfl | rfl <;> simp [Token.Written]
  obtain ⟨hwhole, htokens⟩ := hmembers [] (Or.inl rfl)
  refine ⟨hwhole, ?_⟩
  rw [ofMembers, tokens]
  exact List.forall_mem_cons.mpr ⟨trivial, htokens⟩

theorem written_tagged {v : Json} (tag : String) (h : v.Written) : (tagged tag v).Written :=
  written_members (by simpa using h)

end Json

end Criteria
