import Criteria.Proofs.RoundTrip

/-!
# Encoding again

There are many texts for a condition: the fields of a record in any order or without their names,
names that are skipped, the elements of a set in any order and more than once. What is read of any
of them is written with no more brackets open at once than it had, and than a text may have
(`Condition.depth_le_of_read`). So the text that it is written as is accepted again, and stands for
the same condition (`decode_encode_of_decode`).
-/

namespace Criteria

open Json (within)

namespace Json

theorem itemsDepth_ofList_le {vs : List Json} {n : Nat} (h : ∀ v ∈ vs, v.depth ≤ n) :
    itemsDepth (Items.ofList vs) ≤ n := by
  induction vs with
  | nil => exact Nat.zero_le n
  | cons v vs ih =>
    obtain ⟨hv, hvs⟩ := List.forall_mem_cons.mp h
    exact Nat.max_le.mpr ⟨hv, ih hvs⟩

/-- Some of the items that are read of a list, in any order, are written as a list that is no deeper
if each of them is written no deeper than it was. -/
theorem depth_le_of_readList {α : Type} {room : Nat} {read : Reader α} {write : α → Json} {j : Json}
    {as es : List α} (hread : ∀ v a, read v = .ok a → (write a).depth ≤ min room v.depth)
    (h : readList read j = .ok as) (hes : ∀ e ∈ es, e ∈ as) :
    (list (Items.ofList (es.map write))).depth ≤ min (room + 1) j.depth := by
  have hpos := depth_pos_of_readList h
  have hitems : itemsDepth (Items.ofList (es.map write)) ≤ min room (j.depth - 1) := by
    refine itemsDepth_ofList_le (List.forall_mem_map.mpr fun e he => ?_)
    obtain ⟨v, hv, ha⟩ := exists_of_readList h e (hes e he)
    have hle := hread v e ha
    omega
  rw [depth]
  omega

end Json

theorem Operand.eq_null_of_unit? {s : String} {a : Operand} (h : Operand.unit? s = some a) :
    a = .null := by
  unfold Operand.unit? at h
  split at h <;> cases h
  rfl

mutual

theorem Operand.depth_le_of_read {room : Nat} {j : Json} {a : Operand}
    (h : Operand.read room j = .ok a) : a.toJson.depth ≤ min room j.depth := by
  match room with
  | 0 =>
    obtain ⟨s, hs⟩ := Json.exists_of_readName h
    rw [Operand.eq_null_of_unit? hs]
    exact Nat.zero_le _
  | room + 1 =>
    rcases Json.exists_of_readVariant h with ⟨s, hs⟩ | ⟨tag, reader, v, hdepth, hread, hv⟩
    · rw [Operand.eq_null_of_unit? hs]
      exact Nat.zero_le _
    · split at hread
      case h_1 =>
        cases hread
        obtain ⟨bytes, hbytes, rfl⟩ := except_map_eq_ok_iff.mp hv
        rw [Operand.toJson, Json.depth_tagged, Operand.depth_bytes]
        cases room with
        | zero => cases hbytes
        | succ room =>
          have hpos := Json.depth_pos_of_readList hbytes
          omega
      case h_5 =>
        cases hread
        obtain ⟨es, hes, rfl⟩ := except_map_eq_ok_iff.mp hv
        have hset := Operand.depth_le_of_readSet hes
        rw [Operand.toJson, Json.depth_tagged]
        omega
      case h_8 => cases hread
      all_goals
        cases hread
        obtain ⟨_, _, rfl⟩ := except_map_eq_ok_iff.mp hv
        rw [Operand.toJson, Json.depth_tagged]
        show 0 + 1 ≤ _
        omega

theorem Operand.depth_le_of_readSet {room : Nat} {j : Json} {es : List Operand}
    (h : Operand.readSet room j = .ok es) :
    (Json.list (Operand.itemsOf es)).depth ≤ min room j.depth := by
  match room with
  | 0 => cases h
  | room + 1 =>
    obtain ⟨as, has, rfl⟩ := except_map_eq_ok_iff.mp h
    rw [Operand.itemsOf_eq_ofList]
    refine Json.depth_le_of_readList (fun v a => Operand.depth_le_of_read) has ?_
    exact fun e he => OperandSet.mem_ofList.mp he

end

theorem Comparison.depth_le_of_read {room : Nat} {j : Json} {c : Comparison}
    (h : read room j = .ok c) : c.toJson.depth ≤ min room j.depth := by
  cases room with
  | zero => cases h
  | succ room =>
    obtain ⟨-, v, hv, ha⟩ := exists_of_read h
    have hoperand := Operand.depth_le_of_read ha
    rw [depth_toJson]
    omega

theorem TextTest.depth_le_of_read {room : Nat} {j : Json} {t : TextTest}
    (h : read room j = .ok t) : t.toJson.depth ≤ min room j.depth := by
  cases room with
  | zero => cases h
  | succ room =>
    obtain ⟨x, hx, -⟩ := except_bind_eq_ok_iff.mp h
    have hpos := Json.depth_pos_of_readRecord hx
    show 1 ≤ _
    omega

/-! ## Trees -/

namespace Condition

mutual

theorem depth_le_of_read {room : Nat} {j : Json} {c : Condition} (h : read room j = .ok c) :
    c.toJson.depth ≤ min room j.depth := by
  match room with
  | 0 => cases h
  | room + 1 =>
    obtain ⟨tag, reader, v, hdepth, hread, hv⟩ := Json.exists_of_readTagged h
    split at hread
    · cases hread
      obtain ⟨c, hc, rfl⟩ := except_map_eq_ok_iff.mp hv
      have hatom := Comparison.depth_le_of_read hc
      rw [comparison, toJson, Json.depth_tagged]
      omega
    · cases hread
      obtain ⟨t, ht, rfl⟩ := except_map_eq_ok_iff.mp hv
      have hatom := TextTest.depth_le_of_read ht
      rw [text, toJson, Json.depth_tagged]
      omega
    · cases hread
      have hcomposite := depth_le_of_readComposite hv
      omega
    · cases hread

theorem depth_le_of_readComposite {room : Nat} {j : Json} {c : Condition}
    (h : readComposite room j = .ok c) : c.toJson.depth ≤ min (room + 1) (j.depth + 1) := by
  match room with
  | 0 => cases h
  | room + 1 =>
    obtain ⟨k, cs, v, rfl, hv, hcs⟩ := exists_of_readComposite h
    have hparts := depth_le_of_readParts hcs
    rw [Json.depth] at hparts
    rw [toJson, Json.depth_tagged, depth_compositeJson]
    omega

theorem depth_le_of_readParts {room : Nat} {j : Json} {cs : List Condition}
    (h : readParts room j = .ok cs) : (Json.list (itemsOf cs)).depth ≤ min room j.depth := by
  match room with
  | 0 => cases h
  | room + 1 =>
    rw [itemsOf_eq_ofList]
    exact Json.depth_le_of_readList (fun v c => depth_le_of_read) h fun c hc => hc

end

/-- Whatever text a condition is decoded from, the text that it is written as has no more brackets
open at once and is decoded to the same condition, so that encoding it again changes nothing. -/
theorem decode_encode_of_decode (text : String) (c : Condition) (h : decode text = .ok c) :
    Json.nesting c.encode ≤ Json.nesting text ∧ decode c.encode = .ok c ∧
      encode <$> decode c.encode = .ok c.encode := by
  obtain ⟨j, hj, hread⟩ := Json.exists_of_decode h
  have hdepth := depth_le_of_read hread
  have hnesting := Json.nesting_text c.written_toJson
  have hdecode : decode c.encode = .ok c := by
    rw [decode, encode, Json.decode_text c.written_toJson, read_toJson (proper_of_read hread),
      within, if_pos (by omega)]
  refine ⟨?_, hdecode, ?_⟩
  · rw [encode, hnesting]
    omega
  · rw [hdecode, except_map_ok]

/-- One record without its names, the other with a skipped field and its own in another order, and a
set that repeats a negative zero. -/
theorem decode_encode_of_decode_spelled :
    ∃ c, decode ("\x7b \"Composite\" : [\x7b\"ANY\":null\x7d, [\x7b\"Basic\":\x7b\"x\":[[[]]], \"value\":" ++
        "\x7b\"Set\":[\x7b\"Float64\":-0.0\x7d,\x7b\"Bool\":true\x7d,\x7b\"Float64\":-0.0\x7d]\x7d, " ++
        "\"operator\":\"IN\", \"field\":\"tags\"\x7d\x7d]]\x7d") = .ok c ∧ decode c.encode = .ok c := by
  have again {t : String} {c : Condition} (h : decode t = .ok c) :
      decode t = .ok c ∧ decode c.encode = .ok c :=
    ⟨h, (decode_encode_of_decode t c h).2.1⟩
  refine ⟨.composite .any [.atom (.comparison ⟨"tags", .isIn, ?_⟩)], again ?_⟩
  · exact .set [.bool true, .float .zero]
  · decide +kernel

end Condition

end Criteria
