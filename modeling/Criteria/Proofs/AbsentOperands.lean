import Criteria.Proofs.Obtainable

/-!
# Absent operands

No condition is made of an absent operand, or of a set with an absent element. That is as far as the
check looks: a set among the elements may have absent elements of its own, and is kept as it is
(`obtainable_isIn_set`). So the absent operands in a condition are those of the sets in its sets
(`present_iff_of_obtainable`), and there can be some (`not_every_present`).
-/

namespace Criteria

/-- Whether no operand of the atom is absent, at any depth of its sets. -/
def Atom.Present : Atom → Prop
  | comparison c => ¬ c.operand.Holds .null
  | text _ => True

/-- Whether no set among the elements of the atom's operand has an absent operand in it. -/
def Atom.InnerPresent : Atom → Prop
  | comparison c =>
    ∀ es fs, c.operand = .set es → .set fs ∈ es → ¬ (Operand.set fs).Holds .null
  | text _ => True

/-- An absent operand in a valid comparison is in a set among the elements of its operand. -/
theorem Comparison.Valid.inner_of_holds_null {c : Comparison} (h : c.Valid)
    (hnull : c.operand.Holds .null) :
    ∃ es fs, c.operand = .set es ∧ .set fs ∈ es ∧ (Operand.set fs).Holds .null := by
  generalize ha : c.operand = a at hnull
  cases hnull with
  | self => exact absurd ha h.present
  | @element es e _ mem he =>
    cases he with
    | self => exact absurd mem (h.elements es ha)
    | @element fs f _ hf hnull => exact ⟨es, fs, rfl, mem, .element hf hnull⟩

theorem Atom.Valid.present_iff {a : Atom} (h : a.Valid) : a.Present ↔ a.InnerPresent := by
  cases a with
  | text t => exact Iff.rfl
  | comparison c =>
    constructor
    · intro hp es fs hes hfs hnull
      exact hp (hes ▸ .element hfs hnull)
    · intro hp hnull
      obtain ⟨es, fs, hes, hfs, hin⟩ := Comparison.Valid.inner_of_holds_null h hnull
      exact hp es fs hes hfs hin

namespace Condition

/-- An operand of an obtainable condition is absent, or has an absent one in it at any depth, exactly
if a set among its elements has one. -/
theorem present_iff_of_obtainable (c : Condition) (h : Obtainable c) :
    c.Every fun a => a.Present ↔ a.InnerPresent :=
  fun a ha => (h.proper a ha).valid.present_iff

/-- A set is looked up as it is given, whatever is in it. -/
theorem obtainable_isIn_set {fs : List Operand} (hfs : (Operand.set fs).Canonical) {field : String}
    (hf : isBlank field = false) :
    Obtainable (comparison ⟨field, .isIn, .set [.set fs]⟩) := by
  have hbuild : Comparison.build field .isIn (.set [.set fs]) =
      .ok ⟨field, .isIn, .set [.set fs]⟩ := by
    refine Comparison.build_eq_ok_iff.mpr ⟨rfl, hf, nofun, ?_, fun _ => ⟨_, rfl⟩⟩
    intro es hes
    cases hes
    simp
  have hmade : (isIn [.set fs] field).outcome =
      .ok (comparison ⟨field, .isIn, .set [.set fs]⟩) := by
    rw [isIn, announce_outcome]
    show comparison <$> Comparison.build field .isIn (.set [.set fs]) = _
    rw [hbuild, except_map_ok]
  refine @Obtainable.run [] (.call (.isIn [.set fs] field)) _ (by simp) ?_ ?_
  · simpa [Recipe.sources, Recipe.Source.operands, Recipe.Call.operands] using hfs
  · simp [Recipe.run, Recipe.Call.run, Recorded.mapError, hmade]

theorem present_iff_of_obtainable_tags :
    Atom.Present (.comparison ⟨"tags", .isIn, .set [.set [.text "a"]]⟩) := by
  have hset : (Operand.set [.text "a"]).Canonical :=
    OperandSet.canonical_ofList (List.forall_mem_singleton.mpr (.scalar rfl))
  refine (present_iff_of_obtainable _ (obtainable_isIn_set hset (by decide)) _
    List.mem_cons_self).mpr ?_
  intro es fs hes hfs hnull
  cases hes
  cases List.mem_singleton.mp hfs
  cases hnull with
  | element mem h =>
    cases List.mem_singleton.mp mem
    cases h

/-- A condition of one call, in which an absent operand stands in a set of a set. -/
theorem not_every_present :
    Obtainable (comparison ⟨"tags", .isIn, .set [.set [.null]]⟩) ∧
      ¬ (comparison ⟨"tags", .isIn, .set [.set [.null]]⟩).Every Atom.Present := by
  have hset : (Operand.set [.null]).Canonical :=
    OperandSet.canonical_ofList (List.forall_mem_singleton.mpr (.scalar rfl))
  constructor
  · exact obtainable_isIn_set hset (by decide)
  · intro h
    exact h _ List.mem_cons_self (.element List.mem_cons_self (.element List.mem_cons_self (.self _)))

end Condition

end Criteria
