import Criteria.Proofs.NormalForm

/-!
# What normalizing leaves as it is

The shape of a normal form, said of every composite that occurs in it at any depth: no part has the
same connective, there is no single part, and only a whole condition can be empty (`InNormalForm`).
Every normalized condition has this shape, and one that has it already is not changed, since there
is nothing in it to splice, to unwrap or to absorb (`inNormalForm_normalize`).
-/

namespace Criteria

namespace Condition

/-- Whether a condition is the other one or part of it, at any depth. -/
inductive Occurs (d : Condition) : Condition → Prop where
  | self : Occurs d d
  | part {k : Connective} {cs : List Condition} {c : Condition} (mem : c ∈ cs) (h : Occurs d c) :
      Occurs d (composite k cs)

structure InNormalForm (c : Condition) : Prop where
  /-- No composite is part of a composite with the same connective. -/
  alternates {k : Connective} {cs ds : List Condition} (h : Occurs (composite k cs) c) :
    composite k ds ∉ cs
  several {k : Connective} {cs : List Condition} (h : Occurs (composite k cs) c) : cs.length ≠ 1
  /-- An empty composite is the whole condition. -/
  whole {k : Connective} (h : Occurs (composite k []) c) : c = composite k []

section
variable {k : Connective} {c d : Condition} {cs : List Condition}

theorem fitsIn_iff :
    FitsIn k c ↔ (∀ ds, c ≠ composite k ds) ∧ ∀ j, c ≠ composite j [] := by
  cases c with
  | atom a => simp [FitsIn]
  | composite j cs =>
    constructor
    · rintro ⟨hj, hcs⟩
      exact ⟨fun ds h => hj (composite.inj h).1, fun i h => hcs (composite.inj h).2⟩
    · rintro ⟨hk, hempty⟩
      exact ⟨fun h => hk cs (h ▸ rfl), fun h => hempty j (h ▸ rfl)⟩

theorem Normal.of_occurs (h : Normal c) (hd : Occurs d c) : Normal d := by
  induction hd with
  | self => exact h
  | part mem _ ih =>
    cases h with
    | composite parts _ _ => exact ih (parts _ mem)

/-- Nothing empty occurs below the root of a normal form: it would be a part of a composite. -/
theorem Normal.eq_of_occurs_empty (h : Normal c) (hd : Occurs (.composite k []) c) :
    c = .composite k [] := by
  induction hd with
  | self => rfl
  | part mem _ ih =>
    cases h with
    | composite parts fits _ =>
      exact absurd (ih (parts _ mem)) ((fitsIn_iff.mp (fits _ mem)).2 k)

theorem Normal.inNormalForm (h : Normal c) : InNormalForm c where
  alternates := by
    intro k cs ds hd hmem
    cases h.of_occurs hd with
    | composite _ fits _ => exact (fitsIn_iff.mp (fits _ hmem)).1 ds rfl
  several := by
    intro k cs hd
    cases h.of_occurs hd with
    | composite _ _ several => exact several
  whole := h.eq_of_occurs_empty

/-- The parts of a condition in normal form are in normal form. -/
theorem InNormalForm.part (h : InNormalForm (composite k cs)) (hc : c ∈ cs) : InNormalForm c where
  alternates hd := h.alternates (.part hc hd)
  several hd := h.several (.part hc hd)
  whole hd := by
    cases h.whole (.part hc hd)
    cases hc

theorem InNormalForm.fits (h : InNormalForm (composite k cs)) (hc : c ∈ cs) : FitsIn k c := by
  refine fitsIn_iff.mpr ⟨?_, ?_⟩
  · rintro ds rfl
    exact h.alternates .self hc
  · rintro j rfl
    cases h.whole (.part hc .self)
    cases hc

theorem InNormalForm.normal (h : InNormalForm c) : Normal c := by
  induction c with
  | atom a => exact .atom a
  | composite k cs ih =>
    exact .composite (fun c hc => ih c hc (h.part hc)) (fun c hc => h.fits hc) (h.several .self)

theorem join_of_fits (hf : ∀ c ∈ cs, FitsIn k c) (several : cs.length ≠ 1) :
    join k cs = composite k cs := by
  have habsorbed : composite k.dual [] ∉ cs := fun h => (fitsIn_iff.mp (hf _ h)).2 k.dual rfl
  rw [join_eq, if_neg habsorbed, flatMap_spread_of_fits hf, ofParts_of_length_ne_one several]

theorem normalize_of_normal (h : Normal c) : c.normalize = c := by
  induction h with
  | atom a => rfl
  | @composite k cs _ fits several ih =>
    have hcs : cs.map Condition.normalize = cs := (List.map_congr_left ih).trans cs.map_id
    rw [normalize, normalizeAll_eq_map, hcs, join_of_fits fits several]

end

@[simp] theorem normalize_normalize (c : Condition) : c.normalize.normalize = c.normalize :=
  normalize_of_normal (normal_normalize c)

/-- Normalizing gives a condition in normal form, and changes nothing exactly if there is one
already. -/
theorem inNormalForm_normalize (c : Condition) :
    c.normalize.InNormalForm ∧ (c.normalize = c ↔ c.InNormalForm) := by
  have hnormal := normal_normalize c
  refine ⟨hnormal.inNormalForm, ?_, ?_⟩
  · intro h
    exact h ▸ hnormal.inNormalForm
  · intro h
    exact normalize_of_normal h.normal

end Condition

end Criteria
