import Criteria.Json

/-!
# Nesting

How many brackets a text has open at once is counted on its tokens, and how deep lists and objects
stand in each other on its tree. The tokens of a tree in which nothing is cut have as many brackets
open as the tree is deep. A tree that is read from a whole text is not deeper than the text nests
(`depth_le_nesting`): what the reader has in its hands never goes deeper than the brackets that were
open so far, since closing one only puts what it holds in the place where it stands.
-/

namespace Criteria

namespace Json

/-- How many brackets are open behind a token. -/
def openAfter (n : Nat) : Token → Nat
  | .openList | .openObject => n + 1
  | .closeList | .closeObject => n - 1
  | _ => n

/-- The most brackets that tokens have open at once, when `n` are open before them. -/
def mostOpen (n : Nat) : List Token → Nat
  | [] => n
  | t :: ts => max n (mostOpen (openAfter n t) ts)

/-- The most brackets that a text has open at once. -/
def nesting (text : String) : Nat :=
  mostOpen 0 (Token.ofText text)

mutual

/-- How deep lists and objects stand in each other. -/
def depth : Json → Nat
  | list items => itemsDepth items + 1
  | object members => membersDepth members + 1
  | _ => 0

def itemsDepth : Items → Nat
  | .done | .cut => 0
  | .next v rest => max (depth v) (itemsDepth rest)

def membersDepth : Members → Nat
  | .done | .cut => 0
  | .next _ v rest => max (depth v) (membersDepth rest)

end

theorem le_mostOpen (n : Nat) (ts : List Token) : n ≤ mostOpen n ts := by
  cases ts with
  | nil => exact Nat.le_refl n
  | cons t ts => exact Nat.le_max_left ..

theorem mostOpen_cons {n : Nat} {t : Token} (h : openAfter n t = n) (ts : List Token) :
    mostOpen n (t :: ts) = mostOpen n ts := by
  rw [mostOpen, h]
  exact Nat.max_eq_right (le_mostOpen n ts)

theorem mostOpen_separator {separator : List Token} (h : separator = [] ∨ separator = [.comma])
    (n : Nat) (ts : List Token) : mostOpen n (separator ++ ts) = mostOpen n ts := by
  rcases h with rfl | rfl
  · rfl
  · exact mostOpen_cons rfl ts

mutual

theorem mostOpen_tokens (j : Json) (hw : j.isWhole = true) (n : Nat) (ts : List Token) :
    mostOpen n (j.tokens ++ ts) = max (n + j.depth) (mostOpen n ts) := by
  match j with
  | .null | .bool _ | .number _ | .string _ => rfl
  | .list items =>
    rw [tokens, List.cons_append, mostOpen, openAfter, mostOpen_items items (Or.inl rfl) hw, depth]
    omega
  | .object members =>
    rw [tokens, List.cons_append, mostOpen, openAfter, mostOpen_members members (Or.inl rfl) hw,
      depth]
    omega

theorem mostOpen_items (items : Items) {separator : List Token}
    (hs : separator = [] ∨ separator = [.comma]) (hw : itemsWhole items = true) (n : Nat)
    (ts : List Token) :
    mostOpen (n + 1) (itemTokens separator items ++ ts) =
      max (n + 1 + itemsDepth items) (mostOpen n ts) := by
  match items with
  | .done => rfl
  | .cut => cases hw
  | .next v items =>
    obtain ⟨hv, hitems⟩ := Bool.and_eq_true_iff.mp hw
    rw [itemTokens, List.append_assoc, List.append_assoc, mostOpen_separator hs,
      mostOpen_tokens v hv, mostOpen_items items (Or.inr rfl) hitems, itemsDepth]
    omega

theorem mostOpen_members (members : Members) {separator : List Token}
    (hs : separator = [] ∨ separator = [.comma]) (hw : membersWhole members = true) (n : Nat)
    (ts : List Token) :
    mostOpen (n + 1) (memberTokens separator members ++ ts) =
      max (n + 1 + membersDepth members) (mostOpen n ts) := by
  match members with
  | .done => rfl
  | .cut => cases hw
  | .next key v members =>
    obtain ⟨hv, hmembers⟩ := Bool.and_eq_true_iff.mp hw
    rw [memberTokens, List.append_assoc, List.append_assoc, mostOpen_separator hs,
      List.cons_append, mostOpen_cons rfl, List.cons_append, mostOpen_cons rfl,
      mostOpen_tokens v hv, mostOpen_members members (Or.inr rfl) hmembers, membersDepth]
    omega

end

/-! ## What has been read -/

def deepest : List Json → Nat
  | [] => 0
  | v :: vs => max v.depth (deepest vs)

theorem itemsDepth_after (rest : Items) (before : List Json) :
    itemsDepth (rest.after before) = max (deepest before) (itemsDepth rest) := by
  induction before generalizing rest with
  | nil => exact (Nat.zero_max _).symm
  | cons v before ih =>
    rw [Items.after, ih, itemsDepth, deepest]
    omega

theorem membersDepth_after (rest : Members) (before : List (Option String × Json)) :
    membersDepth (rest.after before) = max (deepest (before.map (·.2))) (membersDepth rest) := by
  induction before generalizing rest with
  | nil => exact (Nat.zero_max _).symm
  | cons m before ih =>
    obtain ⟨key, v⟩ := m
    rw [Members.after, ih, membersDepth, List.map_cons, deepest]
    dsimp only
    omega

/-- How deep the values are that have been read of a list or an object. -/
def Frame.depth : Frame → Nat
  | list before => deepest before
  | object before _ => deepest (before.map (·.2))

/-- How deep what is open goes, the brackets that are open counted. -/
def reach : List Frame → Nat
  | [] => 0
  | frame :: stack => max (stack.length + 1 + frame.depth) (reach stack)

namespace State

def frames : State → List Frame
  | value stack => stack
  | listStart stack => .list [] :: stack
  | objectStart stack => .object [] none :: stack
  | key before stack => .object before none :: stack
  | colon before k stack => .object before k :: stack
  | after _ stack => stack

/-- How deep all that has been read goes. -/
def depth : State → Nat
  | after v stack => max (stack.length + v.depth) (reach stack)
  | s => reach s.frames

/-- What a token does to a state that is open and deep so far: it opens or closes a bracket, and
then nothing goes deeper than before, except to what is open. -/
structure Follows (s : State) (frames : List Frame) (depth : Nat) (t : Token) : Prop where
  height : s.frames.length = openAfter frames.length t
  depth_le : s.depth ≤ max depth s.frames.length

theorem follows_onValue {stack : List Frame} {t : Token} {s : State}
    (h : onValue stack t = some s) : s.Follows stack (reach stack) t := by
  unfold onValue at h
  split at h <;> cases h <;> refine ⟨rfl, ?_⟩ <;>
    simp only [depth, frames, reach, Frame.depth, deepest, Json.depth, List.length_cons,
      List.map_nil] <;> omega

/-- A bracket that closes, a separator or a key keeps what was read, in its place. -/
theorem follows_step {s s' : State} {t : Token} (h : s.step t = some s') :
    s'.Follows s.frames s.depth t := by
  unfold step at h
  split at h
  case h_1 => exact follows_onValue h
  case h_3 => exact follows_onValue h
  case h_12 => cases h
  all_goals
    cases h
    refine ⟨rfl, ?_⟩
    simp only [depth, frames, reach, Frame.depth, deepest, Json.depth, itemsDepth, membersDepth,
      itemsDepth_after, membersDepth_after, List.length_cons, List.map_cons, List.map_nil]
    omega

/-- However many tokens are read, nothing goes deeper than what was there and what they open. -/
theorem depth_le_of_run {s s' : State} {ts : List Token} (h : s.run ts = (s', true)) :
    s'.depth ≤ max s.depth (mostOpen s.frames.length ts) := by
  induction ts generalizing s with
  | nil =>
    cases h
    exact Nat.le_max_left ..
  | cons t ts ih =>
    unfold run at h
    split at h
    · cases h
    · next r hr =>
      obtain ⟨hheight, hdepth⟩ := follows_step hr
      have hrun := ih h
      have hopen := le_mostOpen r.frames.length ts
      rw [mostOpen, ← hheight]
      omega

end State

/-- A whole text has at least as many brackets open at once as its tree is deep. -/
theorem depth_le_nesting {text : String} {j : Json} (h : ofText text = (some j, true)) :
    j.depth ≤ nesting text := by
  rw [ofText, ofTokens] at h
  split at h
  · next v whole hrun =>
    cases h
    have hdepth := State.depth_le_of_run hrun
    simp only [State.depth, State.frames, reach, List.length_nil] at hdepth
    rw [nesting]
    omega
  · exact absurd (Prod.mk.inj h).2 (by decide)

end Json

end Criteria
