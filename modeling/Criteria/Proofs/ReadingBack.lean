import Criteria.Proofs.Canonical
import Criteria.Proofs.Outcome
import Criteria.Proofs.WrittenTrees
import Criteria.Wire.Operand

/-!
# Reading written operands

A reader that has room for so many brackets gives back what was written if that takes no more, and
finds the text malformed if it takes more (`within`). What a sequence of readers gives back takes as
many brackets as the reader that wants the most.
-/

namespace Criteria

namespace Json

/-- What a reader with the given room gives back of what takes so many brackets. -/
def within {α : Type} (room depth : Nat) (a : α) : Except DecodeError α :=
  if depth ≤ room then .ok a else malformed

section
variable {α β δ : Type} {room m n : Nat}

theorem within_zero (a : α) : within room 0 a = .ok a :=
  if_pos (Nat.zero_le room)

theorem within_none (a : α) : within 0 (n + 1) a = malformed :=
  if_neg (Nat.not_succ_le_zero n)

theorem within_succ (a : α) : within (room + 1) (n + 1) a = within room n a := by
  simp only [within, Nat.add_le_add_iff_right]

theorem map_within (f : α → β) (a : α) : f <$> within room n a = within room n (f a) := by
  unfold within
  split <;> rfl

theorem within_bind (a : α) (f : α → β) :
    (within room m a >>= fun a => within room n (f a)) = within room (max m n) (f a) := by
  unfold within
  by_cases hm : m ≤ room
  · simp only [hm, if_true, except_ok_bind, Nat.max_le, true_and]
  · simp only [hm, if_false, Nat.max_le, false_and]
    rfl

theorem readItems_within {read : Reader α} {write : α → Json} {as : List α}
    (h : ∀ a ∈ as, read (write a) = within room (write a).depth a) :
    readItems read (Items.ofList (as.map write)) =
      within room (itemsDepth (Items.ofList (as.map write))) as := by
  induction as with
  | nil => exact (within_zero []).symm
  | cons a as ih =>
    obtain ⟨ha, has⟩ := List.forall_mem_cons.mp h
    simp only [List.map_cons, Items.ofList, readItems, itemsDepth, ha, ih has]
    rw [← within_bind a fun a => a :: as]
    congr 1
    funext a
    rw [← map_within]
    cases within room (itemsDepth (Items.ofList (as.map write))) as <;> rfl

theorem readTagged_tagged {content? : String → Option (Reader α)} {tag : String} {read : Reader α}
    (h : content? tag = some read) (v : Json) : readTagged content? (tagged tag v) = read v := by
  show (expect (content? tag) >>= fun read => read v >>= fun a => .ok a) = read v
  rw [h]
  show (read v >>= fun a => .ok a) = read v
  cases read v <;> rfl

theorem readVariant_tagged {unit? : String → Option α} {content? : String → Option (Reader α)}
    {tag : String} {read : Reader α} (hunit : unit? tag = none) (h : content? tag = some read)
    (v : Json) : readVariant unit? content? (tagged tag v) = read v := by
  rw [readVariant]
  · refine readTagged_tagged ?_ v
    rw [hunit, h]
  · intro s hs
    cases hs

/-- A member that is the field of a free slot. -/
theorem readMembers_next {slots : List (Slot δ)} {d : δ} {key name : String} {get : δ → Option α}
    {put : δ → α → δ} {read : Reader α}
    (hslot : (slots.find? fun slot => slot.name = key) = some (.of name get put read))
    (hfree : (get d).isSome = false) (v : Json) (rest : Members) :
    readMembers slots d (.next (some key) v rest) =
      read v >>= fun a => readMembers slots (put d a) rest := by
  have hfilled : (Slot.of name get put read).isFilled d = false := hfree
  rw [readMembers, hslot]
  dsimp only
  rw [hfilled]
  show ((put d <$> read v) >>= fun d => readMembers slots d rest) = _
  cases read v <;> rfl

theorem readString_ofString (s : String) : readString (.ofString s) = .ok s := rfl

/-- What a written text is decoded to is what is read of its tree. -/
theorem decode_text {j : Json} (h : j.Written) (read : Reader α) : decode read j.text = read j := by
  rw [decode, ofText_text h]
  show (read j >>= fun a => .ok a) = read j
  cases read j <;> rfl

theorem depth_tagged (tag : String) (v : Json) : (tagged tag v).depth = v.depth + 1 := by
  simp [tagged, ofMembers, Members.ofList, depth, membersDepth]

end

theorem readInt_ofInt {α : Type} (ofInt? : Int → Option α) (n : Int) :
    readInt ofInt? (number (.ofInt n)) = expect (ofInt? n) := by
  rw [readInt, Numeral.toInt?_ofInt, Option.bind_some]

theorem readInt64_toInt (n : Int64) : readInt64 (number (.ofInt n.toInt)) = .ok n := by
  rw [readInt64, readInt_ofInt, if_pos ⟨n.minValue_le_toInt, n.toInt_le⟩, Int64.ofInt_toInt, expect]

theorem readUInt64_toNat (n : UInt64) : readUInt64 (number (.ofInt n.toNat)) = .ok n := by
  have hlt := n.toNat_lt_size
  rw [readUInt64, readInt_ofInt, if_pos (by omega), Int.toNat_natCast, UInt64.ofNat_toNat, expect]

theorem readUInt8_toNat (n : UInt8) : readUInt8 (number (.ofInt n.toNat)) = .ok n := by
  have hlt := n.toNat_lt_size
  rw [readUInt8, readInt_ofInt, if_pos (by omega), Int.toNat_natCast, UInt8.ofNat_toNat, expect]

theorem readFloat_ofFloat (x : Float64) : readFloat (number (.ofFloat x)) = .ok x := by
  rw [readFloat, Numeral.toFloat?_ofFloat, expect]

end Json

/-! ## Operands -/

namespace Operand

open Json (itemsDepth within map_within within_none within_succ within_zero depth_tagged)

theorem written_toJson (a : Operand) : a.toJson.Written := by
  induction a with
  | scalar a h =>
    cases a with
    | blob bytes =>
      refine Json.written_tagged _ (Json.written_list ?_)
      simp only [List.mem_map, forall_exists_index, and_imp, forall_apply_eq_imp_iff₂]
      exact fun b _ => Json.written_number (Numeral.written_ofInt _)
    | bool b => exact Json.written_tagged _ (Json.written_bool b)
    | float x => exact Json.written_tagged _ (Json.written_number (Numeral.written_ofFloat x))
    | int n => exact Json.written_tagged _ (Json.written_number (Numeral.written_ofInt _))
    | null => exact Json.written_string _
    | set es => cases h
    | text s => exact Json.written_tagged _ (Json.written_string s)
    | uint n => exact Json.written_tagged _ (Json.written_number (Numeral.written_ofInt _))
  | set es ih =>
    rw [toJson, itemsOf_eq_ofList]
    refine Json.written_tagged _ (Json.written_list ?_)
    simpa only [List.mem_map, forall_exists_index, and_imp, forall_apply_eq_imp_iff₂] using ih

theorem depth_bytes (bytes : List UInt8) :
    (Json.ofList (bytes.map fun b => .number (.ofInt b.toNat))).depth = 1 := by
  show itemsDepth _ + 1 = 1
  induction bytes with
  | nil => rfl
  | cons b bytes ih => simpa [Items.ofList, itemsDepth, Json.depth] using ih

theorem readBytes_within (bytes : List UInt8) (room : Nat) :
    readBytes room (.ofList (bytes.map fun b => .number (.ofInt b.toNat))) =
      within room 1 bytes := by
  cases room with
  | zero => exact (within_none bytes).symm
  | succ room =>
    rw [within_succ, within_zero]
    exact Json.readItems_ofList fun b _ => Json.readUInt8_toNat b

theorem read_scalar {a : Operand} (h : a.asSet = none) (room : Nat) :
    read room a.toJson = within room a.toJson.depth a := by
  cases a with
  | set es => cases h
  | null =>
    show read room (.string (some "Null")) = within room 0 null
    rw [within_zero]
    cases room <;> rfl
  | blob bytes | bool b | float x | int n | text s | uint n =>
    rw [toJson, depth_tagged]
    cases room with
    | zero => exact (within_none _).symm
    | succ room =>
      rw [read, Json.readVariant_tagged rfl rfl, within_succ]
      first
        | rw [readBytes_within, map_within, depth_bytes]
        | rw [Json.readFloat_ofFloat]
          exact (within_zero _).symm
        | rw [Json.readInt64_toInt]
          exact (within_zero _).symm
        | rw [Json.readUInt64_toNat]
          exact (within_zero _).symm
        | exact (within_zero _).symm

theorem read_toJson {a : Operand} (h : a.Canonical) (room : Nat) :
    read room a.toJson = within room a.toJson.depth a := by
  induction h generalizing room with
  | scalar h => exact read_scalar h room
  | @set es ascending elements ih =>
    rw [toJson, itemsOf_eq_ofList, depth_tagged, Json.depth]
    cases room with
    | zero => exact (within_none _).symm
    | succ room =>
      rw [read, Json.readVariant_tagged rfl rfl, within_succ]
      cases room with
      | zero => rw [within_none, readSet, Json.malformed]; rfl
      | succ room =>
        rw [within_succ]
        show set <$> OperandSet.ofList <$> Json.readItems (read room) (Items.ofList (es.map toJson)) = _
        rw [Json.readItems_within fun a ha => ih a ha room, map_within, map_within,
          OperandSet.ofList_of_ascending ascending]

end Operand

end Criteria
