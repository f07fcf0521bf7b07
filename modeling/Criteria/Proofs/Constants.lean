import Criteria.Proofs.Evaluation
import Criteria.Proofs.FixedPoints

/-!
# Constant conditions

A condition without parts has its connective's neutral value, whatever values the atoms have. Those
are the only constants: a condition that is true under every assignment is normalized to the `all`
of no parts, one that is false under every assignment to the `any` of no parts, and the normal form
of any other has an atom and nothing empty in it (`normalize_constant_iff`).

One assignment decides it. Where all atoms are unknown, only a constant has a definite value: a
definite value of a composite is that of a part that settles it, or of all parts, which is just how
normalizing folds them (`normalize_eq_constant_iff`), and it stays the same when values of atoms
become known (`eval_of_unknown`).
-/

namespace Criteria

namespace Condition

section
variable {k : Connective} {c : Condition} {cs : List Condition}

theorem spread_eq_nil_iff : spread k c = [] ↔ c = composite k [] := by
  cases c with
  | atom a => simp [spread]
  | composite j cs =>
    rw [spread]
    split
    · next hj => simp [hj]
    · next hj => simp [hj]

/-- Parts in normal form are joined to the neutral constant only if each of them is that constant. -/
theorem join_eq_constant_iff (h : ∀ c ∈ cs, Normal c) :
    join k cs = composite k [] ↔ ∀ c ∈ cs, c = composite k [] := by
  have hnil : cs.flatMap (spread k) = [] ↔ ∀ c ∈ cs, c = composite k [] := by
    simp only [List.flatMap_eq_nil_iff, spread_eq_nil_iff]
  have hdual : composite k.dual [] ≠ composite k [] := fun hd =>
    Connective.dual_ne k (composite.inj hd).1
  rw [← hnil]
  constructor
  · intro hjoin
    have hd : composite k.dual [] ∉ cs := by
      intro hd
      rw [join_eq, if_pos hd] at hjoin
      exact hdual hjoin
    rw [← spread_join h hd, spread_eq_nil_iff]
    exact hjoin
  · intro hspread
    have hd : composite k.dual [] ∉ cs := fun hd => hdual (hnil.mp hspread _ hd)
    rw [join_eq, if_neg hd, hspread]
    rfl

/-! ## Unknown atoms -/

/-- The assignment under which nothing is known. -/
def unknowns : Atom → Truth :=
  fun _ => .unknown

theorem neutral_ne_unknown (k : Connective) : Truth.unknown ≠ k.neutral := by
  cases k <;> decide

theorem normalize_eq_constant_iff :
    c.normalize = composite k [] ↔ eval unknowns c = k.neutral := by
  induction c with
  | atom a =>
    constructor
    · intro h
      cases h
    · intro h
      exact absurd h (neutral_ne_unknown k)
  | composite j cs ih =>
    have hnormal : ∀ c ∈ cs.map normalize, Normal c :=
      List.forall_mem_map.mpr fun c _ => normal_normalize c
    rw [normalize, normalizeAll_eq_map, eval]
    by_cases hj : j = k
    · subst hj
      rw [join_eq_constant_iff hnormal, List.forall_mem_map, evalAll_eq_neutral_iff]
      exact forall₂_congr ih
    · obtain rfl : k = j.dual := Connective.eq_dual_of_ne (Ne.symm hj)
      rw [join_eq_dual_constant_iff hnormal, List.mem_map, evalAll_eq_dual_neutral_iff]
      exact exists_congr fun c => and_congr_right (ih c)

/-- A definite value that does not need any atom does not depend on the atoms. -/
theorem eval_of_unknown (v : Atom → Truth) (h : eval unknowns c = k.neutral) :
    eval v c = k.neutral := by
  induction c with
  | atom a => exact absurd h (neutral_ne_unknown k)
  | composite j cs ih =>
    rw [eval] at h ⊢
    by_cases hj : j = k
    · subst hj
      rw [evalAll_eq_neutral_iff] at h ⊢
      exact fun c hc => ih c hc (h c hc)
    · obtain rfl : k = j.dual := Connective.eq_dual_of_ne (Ne.symm hj)
      rw [evalAll_eq_dual_neutral_iff] at h ⊢
      obtain ⟨c, hc, hv⟩ := h
      exact ⟨c, hc, ih c hc hv⟩

theorem normalize_eq_constant_iff_forall :
    c.normalize = composite k [] ↔ ∀ v, eval v c = k.neutral := by
  rw [normalize_eq_constant_iff]
  exact ⟨fun h v => eval_of_unknown v h, fun h => h unknowns⟩

/-- There is an atom below every composite of a normal form that has parts. -/
theorem Normal.exists_occurs_atom (h : Normal c) (hc : ∀ k, c ≠ .composite k []) :
    ∃ a, Occurs (.atom a) c := by
  induction h with
  | atom a => exact ⟨a, .self⟩
  | @composite k cs parts fits several ih =>
    cases cs with
    | nil => exact absurd rfl (hc k)
    | cons d ds =>
      have hd : ∀ j, d ≠ .composite j [] := (fitsIn_iff.mp (fits d List.mem_cons_self)).2
      obtain ⟨a, ha⟩ := ih d List.mem_cons_self hd
      exact ⟨a, .part List.mem_cons_self ha⟩

end

/-- Just the conditions that have one definite value under every assignment are normalized to a
constant. The normal form of each other condition has an atom in it, and no empty composite. -/
theorem normalize_constant_iff (c : Condition) :
    (c.normalize = composite .all [] ↔ ∀ v, eval v c = .yes) ∧
    (c.normalize = composite .any [] ↔ ∀ v, eval v c = .no) ∧
    ((∀ k, c.normalize ≠ composite k []) ↔
      (∃ a, Occurs (atom a) c.normalize) ∧ ∀ k, ¬ Occurs (composite k []) c.normalize) := by
  refine ⟨normalize_eq_constant_iff_forall (k := .all),
    normalize_eq_constant_iff_forall (k := .any), ?_⟩
  have hnormal := normal_normalize c
  constructor
  · intro hc
    refine ⟨hnormal.exists_occurs_atom hc, fun k hk => ?_⟩
    exact hc k (hnormal.eq_of_occurs_empty hk)
  · rintro ⟨-, hempty⟩ k hk
    rw [hk] at hempty
    exact hempty k .self

end Condition

end Criteria
