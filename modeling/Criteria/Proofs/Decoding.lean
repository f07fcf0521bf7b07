import Criteria.Proofs.Atoms
import Criteria.Proofs.Canonical
import Criteria.Proofs.Nesting
import Criteria.Proofs.Outcome
import Criteria.Proofs.Validity
import Criteria.Wire.Condition

/-!
# What decoding gives

What a reader gives back of a list, a variant or a record is made of what the readers of its parts
give back, and the parts are less deep than the whole. So every operand that is decoded is
canonical, since a set is sorted when it is read, and every atom is valid, since it is built anew.
-/

namespace Criteria

namespace Json

section
variable {α δ : Type} {a : α} {j : Json}

theorem expect_eq_ok_iff {o : Option α} : expect o = .ok a ↔ o = some a := by
  cases o <;> simp [expect, malformed]

theorem accept_eq_ok_iff {x : Except BuildError α} : accept x = .ok a ↔ x = .ok a := by
  cases x <;> simp [accept]

theorem exists_of_readItems {read : Reader α} {items : Items} {as : List α}
    (h : readItems read items = .ok as) :
    ∀ a ∈ as, ∃ v, v.depth ≤ itemsDepth items ∧ read v = .ok a := by
  fun_induction readItems read items generalizing as with
  | case1 =>
    cases h
    simp
  | case2 => cases h
  | case3 v items ih =>
    obtain ⟨b, hb, h⟩ := except_bind_eq_ok_iff.mp h
    obtain ⟨bs, hbs, h⟩ := except_bind_eq_ok_iff.mp h
    cases h
    refine List.forall_mem_cons.mpr ⟨⟨v, Nat.le_max_left .., hb⟩, fun a ha => ?_⟩
    obtain ⟨w, hw, hread⟩ := ih hbs a ha
    exact ⟨w, Nat.le_trans hw (Nat.le_max_right ..), hread⟩

theorem depth_pos_of_readList {read : Reader α} {as : List α} (h : readList read j = .ok as) :
    0 < j.depth := by
  unfold readList at h
  split at h
  · exact Nat.succ_pos _
  · cases h

theorem exists_of_readList {read : Reader α} {as : List α} (h : readList read j = .ok as) :
    ∀ a ∈ as, ∃ v, v.depth < j.depth ∧ read v = .ok a := by
  unfold readList at h
  split at h
  · intro a ha
    obtain ⟨v, hv, hread⟩ := exists_of_readItems h a ha
    exact ⟨v, Nat.lt_succ_of_le hv, hread⟩
  · cases h

theorem exists_of_readName {unit? : String → Option α} (h : readName unit? j = .ok a) :
    ∃ s, unit? s = some a := by
  unfold readName at h
  split at h
  · exact ⟨_, expect_eq_ok_iff.mp h⟩
  · cases h

theorem exists_of_readTagged {content? : String → Option (Reader α)}
    (h : readTagged content? j = .ok a) :
    ∃ tag read v, v.depth < j.depth ∧ content? tag = some read ∧ read v = .ok a := by
  unfold readTagged at h
  split at h
  · next tag v rest =>
    obtain ⟨read, hread, h⟩ := except_bind_eq_ok_iff.mp h
    obtain ⟨b, hb, h⟩ := except_bind_eq_ok_iff.mp h
    split at h
    · cases h
      exact ⟨tag, read, v, Nat.lt_succ_of_le (Nat.le_max_left ..), expect_eq_ok_iff.mp hread, hb⟩
    · cases h
  · cases h

theorem exists_of_readVariant {unit? : String → Option α} {content? : String → Option (Reader α)}
    (h : readVariant unit? content? j = .ok a) :
    (∃ s, unit? s = some a) ∨
      ∃ tag read v, v.depth < j.depth ∧ content? tag = some read ∧ read v = .ok a := by
  unfold readVariant at h
  split at h
  · exact Or.inl (exists_of_readName h)
  · obtain ⟨tag, read, v, hdepth, hread, hv⟩ := exists_of_readTagged h
    split at hread
    · next b hunit =>
      cases hread
      unfold readNull at hv
      split at hv
      · cases hv
        exact Or.inl ⟨tag, hunit⟩
      · cases hv
    · exact Or.inr ⟨tag, read, v, hdepth, hread, hv⟩

/-! ## Records -/

variable {slots : List (Slot δ)} {d : δ} {P : δ → Prop} {n : Nat}

theorem readMembers_keeps
    (hslots : ∀ slot ∈ slots, ∀ d v d', v.depth ≤ n → P d → slot.fill d v = .ok d' → P d')
    {members : Members} {d' : δ} (hn : membersDepth members ≤ n) (hd : P d)
    (h : readMembers slots d members = .ok d') : P d' := by
  fun_induction readMembers slots d members with
  | case1 d =>
    cases h
    exact hd
  | case2 | case3 | case5 => cases h
  | case4 _ _ _ _ _ _ ih => exact ih (Nat.le_trans (Nat.le_max_right ..) hn) hd h
  | case6 => cases h
  | case7 d key v rest slot hslot _ _ ih =>
    obtain ⟨hv, hrest⟩ := Nat.max_le.mp hn
    obtain ⟨e, he, h⟩ := except_bind_eq_ok_iff.mp h
    exact ih e hrest (hslots slot (List.mem_of_find?_eq_some hslot) d v e hv hd he) h

theorem readFields_keeps
    (hslots : ∀ slot ∈ slots, ∀ d v d', v.depth ≤ n → P d → slot.fill d v = .ok d' → P d')
    {items : Items} {d' : δ} (hn : itemsDepth items ≤ n) (hd : P d)
    (h : readFields slots d items = .ok d') : P d' := by
  fun_induction readFields slots d items with
  | case1 d =>
    cases h
    exact hd
  | case2 slot slots d v rest ih =>
    obtain ⟨hslot, hslots⟩ := List.forall_mem_cons.mp hslots
    obtain ⟨hv, hrest⟩ := Nat.max_le.mp hn
    obtain ⟨e, he, h⟩ := except_bind_eq_ok_iff.mp h
    exact ih e hslots hrest (hslot d v e hv hd he) h
  | case3 => cases h

theorem depth_pos_of_readRecord {empty : δ} {finish : δ → Option α}
    (h : readRecord slots empty finish j = .ok a) : 0 < j.depth := by
  unfold readRecord at h
  split at h
  · exact Nat.succ_pos _
  · exact Nat.succ_pos _
  · cases h

/-- What the slots of a record keep holds of the draft that it is finished from. -/
theorem exists_of_readRecord {empty : δ} {finish : δ → Option α}
    (hslots : ∀ slot ∈ slots, ∀ d v d', v.depth < j.depth → P d → slot.fill d v = .ok d' → P d')
    (hempty : P empty) (h : readRecord slots empty finish j = .ok a) :
    ∃ d, P d ∧ finish d = some a := by
  unfold readRecord at h
  split at h
  · next members =>
    obtain ⟨d, hd, h⟩ := except_bind_eq_ok_iff.mp h
    refine ⟨d, readMembers_keeps (n := membersDepth members) ?_ (Nat.le_refl _) hempty hd,
      expect_eq_ok_iff.mp h⟩
    exact fun slot hslot d v d' hv => hslots slot hslot d v d' (Nat.lt_succ_of_le hv)
  · next items =>
    obtain ⟨d, hd, h⟩ := except_bind_eq_ok_iff.mp h
    refine ⟨d, readFields_keeps (n := itemsDepth items) ?_ (Nat.le_refl _) hempty hd,
      expect_eq_ok_iff.mp h⟩
    exact fun slot hslot d v d' hv => hslots slot hslot d v d' (Nat.lt_succ_of_le hv)
  · cases h

end

/-- A text is decoded if it is JSON to its end and its tree is read. -/
theorem decode_eq_ok_iff {α : Type} {read : Reader α} {text : String} {a : α} :
    decode read text = .ok a ↔ ∃ j, ofText text = (some j, true) ∧ read j = .ok a := by
  unfold decode
  constructor
  · intro h
    split at h
    · cases h
    · next j whole hj =>
      obtain ⟨b, hb, h⟩ := except_bind_eq_ok_iff.mp h
      split at h
      · next hwhole =>
        cases h
        exact ⟨j, hwhole ▸ hj, hb⟩
      · cases h
  · rintro ⟨j, hj, hread⟩
    rw [hj]
    show (read j >>= fun a => if true = true then .ok a else malformed) = .ok a
    rw [hread]
    rfl

theorem exists_of_decode {α : Type} {read : Reader α} {text : String} {a : α}
    (h : decode read text = .ok a) : ∃ j, j.depth ≤ nesting text ∧ read j = .ok a := by
  obtain ⟨j, hj, hread⟩ := decode_eq_ok_iff.mp h
  exact ⟨j, depth_le_nesting hj, hread⟩

end Json

mutual

theorem Operand.canonical_of_read {room : Nat} {j : Json} {a : Operand}
    (h : Operand.read room j = .ok a) : a.Canonical := by
  have hunit {s : String} (h : Operand.unit? s = some a) : a.Canonical := by
    unfold Operand.unit? at h
    split at h
    · cases h
      exact .scalar rfl
    · cases h
  match room with
  | 0 =>
    obtain ⟨s, hs⟩ := Json.exists_of_readName h
    exact hunit hs
  | room + 1 =>
    rcases Json.exists_of_readVariant h with ⟨s, hs⟩ | ⟨tag, read, v, -, hread, hv⟩
    · exact hunit hs
    · split at hread
      case h_5 =>
        cases hread
        obtain ⟨es, hes, rfl⟩ := except_map_eq_ok_iff.mp hv
        exact Operand.canonical_of_readSet hes
      case h_8 => cases hread
      all_goals
        cases hread
        obtain ⟨_, _, rfl⟩ := except_map_eq_ok_iff.mp hv
        exact .scalar rfl

theorem Operand.canonical_of_readSet {room : Nat} {j : Json} {es : List Operand}
    (h : Operand.readSet room j = .ok es) : (Operand.set es).Canonical := by
  match room with
  | 0 => cases h
  | room + 1 =>
    obtain ⟨as, has, rfl⟩ := except_map_eq_ok_iff.mp h
    refine OperandSet.canonical_ofList fun a ha => ?_
    obtain ⟨v, -, hv⟩ := Json.exists_of_readList has a ha
    exact Operand.canonical_of_read hv

end

def Atom.Canonical : Atom → Prop
  | comparison c => c.operand.Canonical
  | text _ => True

/-- Whether an atom is one that can be built from what operands there are. -/
structure Atom.Proper (a : Atom) : Prop where
  valid : a.Valid
  canonical : a.Canonical

theorem Atom.Proper.negate {a : Atom} (h : a.Proper) : a.negate.Proper := by
  refine ⟨h.valid.negate, ?_⟩
  cases a with
  | comparison c => exact h.canonical
  | text t => trivial

/-- A comparison is read with an operand that stands in it. -/
theorem Comparison.exists_of_read {room : Nat} {j : Json} {c : Comparison}
    (h : read (room + 1) j = .ok c) :
    c.Valid ∧ ∃ v, v.depth < j.depth ∧ Operand.read room v = .ok c.operand := by
  obtain ⟨x, hx, h⟩ := except_bind_eq_ok_iff.mp h
  have hslots : ∀ slot ∈ slots room, ∀ d w d', w.depth < j.depth →
      (∀ a, d.operand = some a → ∃ v, v.depth < j.depth ∧ Operand.read room v = .ok a) →
      slot.fill d w = .ok d' →
      ∀ a, d'.operand = some a → ∃ v, v.depth < j.depth ∧ Operand.read room v = .ok a := by
    intro slot hslot d w d' hw hd hfill
    simp only [slots, List.mem_cons, List.not_mem_nil, or_false] at hslot
    rcases hslot with rfl | rfl | rfl
    · obtain ⟨_, _, rfl⟩ := except_map_eq_ok_iff.mp hfill
      exact hd
    · obtain ⟨_, _, rfl⟩ := except_map_eq_ok_iff.mp hfill
      exact hd
    · obtain ⟨a, ha, rfl⟩ := except_map_eq_ok_iff.mp hfill
      intro b hb
      cases hb
      exact ⟨w, hw, ha⟩
  obtain ⟨⟨field, operator, operand⟩, hd, hfinish⟩ :=
    Json.exists_of_readRecord hslots (by simp) hx
  cases field <;> cases operator <;> cases operand <;> cases hfinish
  obtain ⟨rfl, hvalid⟩ := Comparison.build_eq_ok_iff.mp (Json.accept_eq_ok_iff.mp h)
  exact ⟨hvalid, hd _ rfl⟩

theorem Comparison.proper_of_read {room : Nat} {j : Json} {c : Comparison}
    (h : read room j = .ok c) : (Atom.comparison c).Proper := by
  cases room with
  | zero => cases h
  | succ room =>
    obtain ⟨hvalid, v, -, hv⟩ := exists_of_read h
    exact ⟨hvalid, Operand.canonical_of_read hv⟩

theorem TextTest.proper_of_read {room : Nat} {j : Json} {t : TextTest} (h : read room j = .ok t) :
    (Atom.text t).Proper := by
  cases room with
  | zero => cases h
  | succ room =>
    obtain ⟨x, hx, h⟩ := except_bind_eq_ok_iff.mp h
    obtain ⟨⟨field, operator, text, escaped⟩, _, hfinish⟩ :=
      Json.exists_of_readRecord (P := fun _ => True) (fun _ _ _ _ _ _ _ _ => trivial) trivial hx
    cases field <;> cases operator <;> cases text <;> cases escaped <;> cases hfinish
    obtain ⟨rfl, hvalid⟩ := TextTest.build_eq_ok_iff.mp (Json.accept_eq_ok_iff.mp h)
    exact ⟨hvalid, trivial⟩

/-! ## Trees -/

namespace Condition

/-- A composite is read with a list of parts that stands in it. -/
theorem exists_of_readComposite {room : Nat} {j : Json} {c : Condition}
    (h : readComposite (room + 1) j = .ok c) :
    ∃ k cs v, c = composite k cs ∧ v.depth < j.depth ∧ readParts room v = .ok cs := by
  have hslots : ∀ slot ∈ slots room (fun j => readParts room j), ∀ d w d', w.depth < j.depth →
      (∀ cs, d.parts = some cs → ∃ v, v.depth < j.depth ∧ readParts room v = .ok cs) →
      slot.fill d w = .ok d' →
      ∀ cs, d'.parts = some cs → ∃ v, v.depth < j.depth ∧ readParts room v = .ok cs := by
    intro slot hslot d w d' hw hd hfill
    simp only [slots, List.mem_cons, List.not_mem_nil, or_false] at hslot
    rcases hslot with rfl | rfl
    · obtain ⟨_, _, rfl⟩ := except_map_eq_ok_iff.mp hfill
      exact hd
    · obtain ⟨cs, hcs, rfl⟩ := except_map_eq_ok_iff.mp hfill
      intro ds hds
      cases hds
      exact ⟨w, hw, hcs⟩
  obtain ⟨⟨kind, parts⟩, hd, hfinish⟩ := Json.exists_of_readRecord hslots (by simp) h
  cases kind <;> cases parts <;> cases hfinish
  obtain ⟨v, hv, hread⟩ := hd _ rfl
  exact ⟨_, _, v, rfl, hv, hread⟩

mutual

theorem proper_of_read {room : Nat} {j : Json} {c : Condition} (h : read room j = .ok c) :
    c.Every Atom.Proper := by
  match room with
  | 0 => cases h
  | room + 1 =>
    obtain ⟨tag, reader, v, -, hread, hv⟩ := Json.exists_of_readTagged h
    split at hread
    · cases hread
      obtain ⟨c, hc, rfl⟩ := except_map_eq_ok_iff.mp hv
      exact every_atom.mpr (Comparison.proper_of_read hc)
    · cases hread
      obtain ⟨t, ht, rfl⟩ := except_map_eq_ok_iff.mp hv
      exact every_atom.mpr (TextTest.proper_of_read ht)
    · cases hread
      exact proper_of_readComposite hv
    · cases hread

theorem proper_of_readComposite {room : Nat} {j : Json} {c : Condition}
    (h : readComposite room j = .ok c) : c.Every Atom.Proper := by
  match room with
  | 0 => cases h
  | room + 1 =>
    obtain ⟨k, cs, v, rfl, -, hcs⟩ := exists_of_readComposite h
    exact every_composite.mpr (proper_of_readParts hcs)

theorem proper_of_readParts {room : Nat} {j : Json} {cs : List Condition}
    (h : readParts room j = .ok cs) : ∀ c ∈ cs, c.Every Atom.Proper := by
  match room with
  | 0 => cases h
  | room + 1 =>
    intro c hc
    obtain ⟨v, -, hv⟩ := Json.exists_of_readList h c hc
    exact proper_of_read hv

end

end Condition

end Criteria
