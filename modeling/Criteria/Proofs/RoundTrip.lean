import Criteria.Proofs.Obtainable
import Criteria.Proofs.ReadingBack

/-!
# Decoding what was encoded

The readers of atoms and trees give back what was written, within the brackets that it takes. So a
condition is decoded from its own text if that has no more brackets open at once than a text may
have, and else its text is malformed (`decode_encode`).
-/

namespace Criteria

open Json (within map_within within_none within_succ within_zero depth_tagged)

theorem Json.readUnit_ofString {α : Type} (unit? : String → Option α) (room : Nat) (s : String) :
    Json.readUnit unit? room (.ofString s) = expect (unit? s) := by
  cases room <;> rfl

theorem Operator.read_toJson (room : Nat) (op : Operator) : read room op.toJson = .ok op := by
  rw [read, toJson, Json.readUnit_ofString, ofName?_name, Json.expect]

theorem Connective.read_toJson (room : Nat) (k : Connective) : read room k.toJson = .ok k := by
  rw [read, toJson, Json.readUnit_ofString, ofName?_name, Json.expect]

namespace Comparison

theorem written_toJson (c : Comparison) : c.toJson.Written := by
  refine Json.written_members ?_
  simp only [List.forall_mem_cons, List.not_mem_nil, false_implies, implies_true, and_true]
  exact ⟨Json.written_string _, Json.written_string _, c.operand.written_toJson⟩

theorem depth_toJson (c : Comparison) : c.toJson.depth = c.operand.toJson.depth + 1 := by
  show max 0 (max 0 (max c.operand.toJson.depth 0)) + 1 = _
  omega

theorem read_toJson {c : Comparison} (hv : c.Valid) (hc : c.operand.Canonical) (room : Nat) :
    read room c.toJson = within room c.toJson.depth c := by
  rw [depth_toJson]
  cases room with
  | zero => exact (within_none c).symm
  | succ room =>
    have hbuild : build c.field c.operator c.operand = .ok c := build_eq_ok_iff.mpr ⟨rfl, hv⟩
    rw [within_succ, read, toJson]
    simp only [Json.readRecord, Json.ofMembers, Members.ofList]
    rw [Json.readMembers_next rfl rfl, Json.readString_ofString, except_ok_bind,
      Json.readMembers_next rfl rfl, Operator.read_toJson, except_ok_bind,
      Json.readMembers_next rfl rfl, Operand.read_toJson hc]
    unfold within
    split
    · show Json.accept (build c.field c.operator c.operand) = .ok c
      rw [hbuild, Json.accept]
    · rfl

end Comparison

namespace TextTest

theorem written_toJson (t : TextTest) : t.toJson.Written := by
  refine Json.written_members ?_
  simp only [List.forall_mem_cons, List.not_mem_nil, false_implies, implies_true, and_true]
  exact ⟨Json.written_string _, Json.written_string _, Json.written_string _, Json.written_bool _⟩

theorem read_toJson {t : TextTest} (hv : t.Valid) (room : Nat) :
    read room t.toJson = within room t.toJson.depth t := by
  show read room t.toJson = within room 1 t
  cases room with
  | zero => exact (within_none t).symm
  | succ room =>
    have hbuild : build t.field t.operator t.text t.escaped = .ok t :=
      build_eq_ok_iff.mpr ⟨rfl, hv⟩
    rw [within_succ, within_zero, read, toJson]
    simp only [Json.readRecord, Json.ofMembers, Members.ofList]
    rw [Json.readMembers_next rfl rfl, Json.readString_ofString, except_ok_bind,
      Json.readMembers_next rfl rfl, Operator.read_toJson, except_ok_bind,
      Json.readMembers_next rfl rfl, Json.readString_ofString, except_ok_bind,
      Json.readMembers_next rfl rfl]
    show Json.accept (build t.field t.operator t.text t.escaped) = .ok t
    rw [hbuild, Json.accept]

end TextTest

/-! ## Trees -/

namespace Condition

theorem written_toJson (c : Condition) : c.toJson.Written := by
  induction c with
  | atom a =>
    cases a with
    | comparison c => exact Json.written_tagged _ c.written_toJson
    | text t => exact Json.written_tagged _ t.written_toJson
  | composite k cs ih =>
    rw [toJson, itemsOf_eq_ofList]
    refine Json.written_tagged _ (Json.written_members ?_)
    simp only [List.forall_mem_cons, List.not_mem_nil, false_implies, implies_true, and_true]
    refine ⟨Json.written_string _, Json.written_list ?_⟩
    simpa only [List.mem_map, forall_exists_index, and_imp, forall_apply_eq_imp_iff₂] using ih

theorem depth_compositeJson (k : Connective) (parts : Items) :
    (compositeJson k parts).depth = Json.itemsDepth parts + 1 + 1 := by
  show max 0 (max (Json.itemsDepth parts + 1) 0) + 1 = _
  omega

theorem read_toJson {c : Condition} (h : c.Every Atom.Proper) (room : Nat) :
    read room c.toJson = within room c.toJson.depth c := by
  induction c generalizing room with
  | atom a =>
    have ha := every_atom.mp h
    cases a with
    | comparison c =>
      rw [toJson, depth_tagged]
      cases room with
      | zero => exact (within_none _).symm
      | succ room =>
        rw [read, Json.readTagged_tagged rfl, within_succ,
          Comparison.read_toJson ha.valid ha.canonical, map_within]
        rfl
    | text t =>
      rw [toJson, depth_tagged]
      cases room with
      | zero => exact (within_none _).symm
      | succ room =>
        rw [read, Json.readTagged_tagged rfl, within_succ, TextTest.read_toJson ha.valid, map_within]
        rfl
  | composite k cs ih =>
    have hparts (room : Nat) : readParts room (.list (Items.ofList (cs.map toJson))) =
        within room (Json.itemsDepth (Items.ofList (cs.map toJson)) + 1) cs := by
      cases room with
      | zero => exact (within_none cs).symm
      | succ room =>
        rw [within_succ]
        exact Json.readItems_within fun c hc => ih c hc (every_composite.mp h c hc) room
    rw [toJson, itemsOf_eq_ofList, depth_tagged, depth_compositeJson]
    cases room with
    | zero => exact (within_none _).symm
    | succ room =>
      rw [read, Json.readTagged_tagged rfl, within_succ]
      cases room with
      | zero => exact (within_none _).symm
      | succ room =>
        rw [within_succ, readComposite, compositeJson]
        simp only [Json.readRecord, Json.ofMembers, Members.ofList]
        rw [Json.readMembers_next rfl rfl, Connective.read_toJson, except_ok_bind,
          Json.readMembers_next rfl rfl, hparts]
        unfold within
        split <;> rfl

/-- Any condition that a sequence of calls can make is decoded from its own text if that has at
most `Json.nestingLimit` brackets open at once, and else the text is malformed. -/
theorem decode_encode (c : Condition) (h : Obtainable c) :
    decode c.encode =
      if Json.nesting c.encode ≤ Json.nestingLimit then .ok c else .error .malformed := by
  have hread := read_toJson h.proper Json.nestingLimit
  have hdepth := Json.nesting_text c.written_toJson
  rw [decode, encode, Json.decode, Json.ofText_text c.written_toJson, hdepth]
  dsimp only
  rw [hread, within]
  split <;> rfl

theorem decode_encode_deep :
    decode (encode (.composite .any
        [.atom (.comparison ⟨"tags", .notIn,
          .set [.blob [0, 255], .set [.null, .text "\"\\\n"]]⟩)])) =
      .ok (.composite .any
        [.atom (.comparison ⟨"tags", .notIn,
          .set [.blob [0, 255], .set [.null, .text "\"\\\n"]]⟩)]) ∧
    decode (encode ((List.range 42).foldl (fun c _ => .composite .any [c]) (.composite .all []))) =
      .error .malformed := by
  constructor
  · have hinner : (Operand.set [.null, .text "\"\\\n"]).Canonical :=
      .set (by decide) (List.forall_mem_cons.mpr
        ⟨.scalar rfl, List.forall_mem_singleton.mpr (.scalar rfl)⟩)
    have houter : (Operand.set [.blob [0, 255], .set [.null, .text "\"\\\n"]]).Canonical :=
      .set (by decide) (List.forall_mem_cons.mpr
        ⟨.scalar rfl, List.forall_mem_singleton.mpr hinner⟩)
    have hproper : (Atom.comparison ⟨"tags", .notIn,
        .set [.blob [0, 255], .set [.null, .text "\"\\\n"]]⟩).Proper :=
      ⟨⟨by decide, by simp, by simp, by simp⟩, houter⟩
    rw [decode_encode _ (obtainable_iff.mpr (every_composite.mpr (List.forall_mem_singleton.mpr
      (every_atom.mpr hproper)))), if_pos]
    rw [encode, Json.nesting_text (written_toJson _)]
    decide
  · have hatoms : atoms ((List.range 42).foldl (fun c _ => .composite .any [c])
        (.composite .all [])) = [] := by decide +kernel
    rw [decode_encode _ (obtainable_iff.mpr (by simp [Every, hatoms])), if_neg]
    rw [encode, Json.nesting_text (written_toJson _)]
    decide +kernel

end Condition

end Criteria
