import Criteria.Condition.Display
import Criteria.Proofs.Answers
import Criteria.Proofs.TotalOrder

/-!
# Collected sets

A set that is collected from a list has just the operands of the list in it, in strictly ascending
order. There is only one such list, so that sets are equal if they were collected from the same
operands, however often and in whatever order these were given, and on whichever way they came: as
they stand, by a check that none is absent, or as the elements of a list in a text that is decoded
(`ofList_canonical`). So a lookup does not show how its operands were listed.
-/

namespace Criteria

namespace Json

section
variable {α : Type} {read : Reader α} {j : Json} {as : List α}

/-- A list is read if it is whole and each of its elements is read. -/
theorem readItems_eq_ok_iff {items : Items} :
    readItems read items = .ok as ↔
      ∃ vs, items = .ofList vs ∧ List.Forall₂ (fun v a => read v = .ok a) vs as := by
  constructor
  · intro h
    fun_induction readItems read items generalizing as with
    | case1 =>
      cases h
      exact ⟨[], rfl, .nil⟩
    | case2 => cases h
    | case3 v rest ih =>
      obtain ⟨b, hb, h⟩ := except_bind_eq_ok_iff.mp h
      obtain ⟨bs, hbs, h⟩ := except_bind_eq_ok_iff.mp h
      cases h
      obtain ⟨vs, rfl, hvs⟩ := ih hbs
      exact ⟨v :: vs, rfl, .cons hb hvs⟩
  · rintro ⟨vs, rfl, h⟩
    induction h with
    | nil => rfl
    | cons ha _ ih =>
      rw [Items.ofList, readItems, ha, except_ok_bind, ih]
      rfl

theorem readList_eq_ok_iff :
    readList read j = .ok as ↔
      ∃ vs, j = .ofList vs ∧ List.Forall₂ (fun v a => read v = .ok a) vs as := by
  constructor
  · intro h
    unfold readList at h
    split at h
    · obtain ⟨vs, rfl, hvs⟩ := readItems_eq_ok_iff.mp h
      exact ⟨vs, rfl, hvs⟩
    · cases h
  · rintro ⟨vs, rfl, hvs⟩
    exact readItems_eq_ok_iff.mpr ⟨vs, rfl, hvs⟩

end

end Json

namespace OperandSet

/-- Whether a tree is a list whose elements are read as these operands, with room for so many
brackets in each. -/
def Lists (room : Nat) (j : Json) (as : List Operand) : Prop :=
  ∃ vs, j = .ofList vs ∧ List.Forall₂ (fun v a => Operand.read room v = .ok a) vs as

/-- Whether a text is such a list. -/
def ListsText (text : String) (as : List Operand) : Prop :=
  ∃ j, Json.ofText text = (some j, true) ∧ Lists (Json.nestingLimit - 1) j as

section
variable {as bs es : List Operand}

theorem readSet_eq_ok_iff {room : Nat} {j : Json} :
    Operand.readSet (room + 1) j = .ok es ↔ ∃ as, Lists room j as ∧ ofList as = es := by
  rw [Operand.readSet, except_map_eq_ok_iff]
  simp only [Json.readList_eq_ok_iff, Lists]

/-- A text is decoded to the set of what its elements are read as. -/
theorem decode_eq_ok_iff {text : String} :
    decode text = .ok es ↔ ∃ as, ListsText text as ∧ ofList as = es := by
  have hread (j : Json) : Operand.readSet Json.nestingLimit j = .ok es ↔
      ∃ as, Lists (Json.nestingLimit - 1) j as ∧ ofList as = es := readSet_eq_ok_iff
  simp only [decode, Json.decode_eq_ok_iff, hread, ListsText]
  constructor
  · rintro ⟨j, hj, as, has, rfl⟩
    exact ⟨as, ⟨j, hj, has⟩, rfl⟩
  · rintro ⟨as, ⟨j, hj, has⟩, rfl⟩
    exact ⟨j, hj, as, has, rfl⟩

/-! ## One list for the same operands -/

/-- Strictly ascending lists of the same operands are equal. -/
theorem eq_of_sorted (has : as.Pairwise (· < ·)) (hbs : bs.Pairwise (· < ·))
    (h : ∀ a, a ∈ as ↔ a ∈ bs) : as = bs := by
  have hne {a b : Operand} (hab : a < b) : a ≠ b := by
    rintro rfl
    rw [Operand.lt_iff, Operand.compare_eq_iff.mpr rfl] at hab
    cases hab
  have hasymm (a b : Operand) (_ : a ∈ as) (_ : b ∈ bs) (hab : a < b) (hba : b < a) : a = b :=
    absurd rfl (hne (Operand.lt_trans hab hba))
  have hperm : as.Perm bs := (List.perm_ext_iff_of_nodup (has.imp hne) (hbs.imp hne)).mpr h
  exact hperm.eq_of_pairwise hasymm has hbs

theorem ofList_eq_iff : ofList as = ofList bs ↔ ∀ a, a ∈ as ↔ a ∈ bs := by
  constructor
  · intro h a
    rw [← mem_ofList, h, mem_ofList]
  · intro h
    refine eq_of_sorted (Operand.sorted_ofList as) (Operand.sorted_ofList bs) fun a => ?_
    rw [mem_ofList, mem_ofList, h a]

end

end OperandSet

namespace Condition

/-- Whether two computations make conditions that are the same, and are displayed and written as the
same text. -/
def MakeSame (r s : Recorded BuildError Condition) : Prop :=
  ∃ c d, r.outcome = .ok c ∧ s.outcome = .ok d ∧
    c = d ∧ c.display = d.display ∧ c.encode = d.encode

section
variable {operator : Operator} {as bs : List Operand} {field : String}

/-- A lookup depends on its operands only through their set. -/
theorem member_congr (given : .null ∉ as) (h : ∀ a, a ∈ as ↔ a ∈ bs) :
    member operator as field = member operator bs field := by
  have hbs : .null ∉ bs := fun hmem => given ((h .null).mpr hmem)
  unfold member
  rw [OperandSet.ofList?_eq_some given, OperandSet.ofList?_eq_some hbs,
    OperandSet.ofList_eq_iff.mpr h]

theorem makeSame_member (given : .null ∉ as) (h : ∀ a, a ∈ as ↔ a ∈ bs)
    (named : isBlank field = false) :
    MakeSame (announce (member operator as field)) (announce (member operator bs field)) := by
  have hmade := (Recipe.Request.Answers.lookUp given named operator).member_eq
  have hsame : member operator as field = member operator bs field := member_congr given h
  exact ⟨_, _, (announce_outcome _).trans hmade,
    (announce_outcome _).trans (hsame.symm.trans hmade), rfl, rfl, rfl⟩

end

end Condition

namespace OperandSet

open Condition (isIn notIn MakeSame member_congr makeSame_member)

/-- A set of operands is one strictly ascending list of them, whatever list it is collected from and
in whatever way. Only an absent operand is in the way of a set that is looked up; without one, lists
of the same operands give the same lookups. -/
theorem ofList_canonical (as bs : List Operand) :
    (ofList as = ofList bs ↔ ∀ a, a ∈ as ↔ a ∈ bs) ∧
    ((ofList as).Pairwise (· < ·) ∧ ∀ a, a ∈ ofList as ↔ a ∈ as) ∧
    ((∀ text, ListsText text as → decode text = .ok (ofList as)) ∧
      ∀ room j, Lists room j as → Operand.readSet (room + 1) j = .ok (ofList as)) ∧
    ((ofList? as = none ↔ .null ∈ as) ∧ (.null ∉ as → ofList? as = some (ofList as))) ∧
    (.null ∉ as → (∀ a, a ∈ as ↔ a ∈ bs) → ∀ field,
      isIn as field = isIn bs field ∧ notIn as field = notIn bs field ∧
      (isBlank field = false →
        MakeSame (isIn as field) (isIn bs field) ∧ MakeSame (notIn as field) (notIn bs field))) := by
  refine ⟨ofList_eq_iff, ⟨Operand.sorted_ofList as, fun a => mem_ofList⟩, ⟨?_, ?_⟩,
    ⟨ofList?_eq_none_iff, ofList?_eq_some⟩, ?_⟩
  · intro text h
    exact decode_eq_ok_iff.mpr ⟨as, h, rfl⟩
  · intro room j h
    exact readSet_eq_ok_iff.mpr ⟨as, h, rfl⟩
  · intro given h field
    have hmember (operator : Operator) :
        Condition.member operator as field = Condition.member operator bs field :=
      member_congr given h
    refine ⟨congrArg Condition.announce (hmember .isIn),
      congrArg Condition.announce (hmember .notIn), ?_⟩
    intro named
    exact ⟨makeSame_member given h named, makeSame_member given h named⟩

/-- A text and a set occur twice in the list, and in its text the two sets are written differently. -/
theorem ofList_canonical_repeated :
    let as : List Operand := [.text "b", .set [.null], .float .zero, .set [.null], .text "b"]
    let bs : List Operand := [.float .zero, .text "b", .set [.null]]
    let text := "[\x7b\"Text\":\"b\"\x7d, \x7b\"Set\":[\"Null\",\"Null\"]\x7d, " ++
      "\x7b\"Float64\":-0.0\x7d, \x7b\"Set\":[\x7b\"Null\":null\x7d]\x7d, \x7b\"Text\":\"b\"\x7d]"
    (ListsText text as ∧ decode text = .ok (ofList as)) ∧
      (.null ∉ as ∧ ofList? as = some (ofList as)) ∧
      (∀ a, a ∈ as ↔ a ∈ bs) ∧ isBlank "tags" = false ∧
        MakeSame (notIn as "tags") (notIn bs "tags") := by
  intro as bs text
  have hlists : ListsText text as := by
    refine ⟨.ofList [.tagged "Text" (.ofString "b"),
      .tagged "Set" (.ofList [.ofString "Null", .ofString "Null"]),
      .tagged "Float64" (.number ⟨true, 0, ['0'], none⟩),
      .tagged "Set" (.ofList [.tagged "Null" .null]),
      .tagged "Text" (.ofString "b")], ?_, _, rfl, ?_⟩
    · dsimp only [text]
      rfl
    · exact .cons rfl (.cons rfl (.cons rfl (.cons rfl (.cons rfl .nil))))
  have given : .null ∉ as := by decide
  have hsame : ∀ a, a ∈ as ↔ a ∈ bs := by
    intro a
    simp only [as, bs, List.mem_cons, List.not_mem_nil, or_false]
    tauto
  obtain ⟨-, -, ⟨hdecode, -⟩, ⟨-, hset⟩, hlookups⟩ := ofList_canonical as bs
  obtain ⟨-, -, hmake⟩ := hlookups given hsame "tags"
  exact ⟨⟨hlists, hdecode text hlists⟩, ⟨given, hset given⟩, hsame, by decide,
    (hmake (by decide)).2⟩

end OperandSet

end Criteria
