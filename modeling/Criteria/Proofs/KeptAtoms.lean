import Criteria.Proofs.Atoms
import Criteria.Proofs.FixedPoints
import Mathlib.Data.List.Flatten

/-!
# The atoms that normalizing keeps

Normalizing adds, changes and moves no atom, it only leaves some out, and it does so at one place: in
a composite one part of which is normalized to the constant of the other connective, and then all
atoms of that composite go (`Absorbed`). So the normal form has the whole sequence of atoms exactly if
there is no atom in any such composite (`atoms_normalize`). Splicing, unwrapping and dropping neutral
parts lose nothing.
-/

namespace Criteria

namespace Condition

/-- Whether one of the parts of a `k` composite is normalized to what absorbs the others. -/
def Absorbed (k : Connective) (cs : List Condition) : Prop :=
  ∃ c ∈ cs, c.normalize = composite k.dual []

instance (k : Connective) (cs : List Condition) : Decidable (Absorbed k cs) :=
  inferInstanceAs (Decidable (∃ c ∈ cs, c.normalize = composite k.dual []))

section
variable {k : Connective} {c d : Condition} {cs : List Condition}

theorem not_occurs_atom {a : Atom} : ¬ Occurs (composite k cs) (atom a) := by
  intro h
  cases h

/-- What occurs in a composite is the composite itself or occurs in one of its parts. -/
theorem forall_occurs_composite {P : Connective → List Condition → Prop} :
    (∀ j ds, Occurs (composite j ds) (composite k cs) → P j ds) ↔
      P k cs ∧ ∀ c ∈ cs, ∀ j ds, Occurs (composite j ds) c → P j ds := by
  constructor
  · intro h
    exact ⟨h k cs .self, fun c hc j ds hoccurs => h j ds (.part hc hoccurs)⟩
  · rintro ⟨hself, hparts⟩ j ds hoccurs
    cases hoccurs with
    | self => exact hself
    | part mem hoccurs => exact hparts _ mem j ds hoccurs

theorem Occurs.atoms_subset (h : Occurs d c) : d.atoms ⊆ c.atoms := by
  induction h with
  | self => exact List.Subset.refl _
  | part mem _ ih =>
    intro a ha
    rw [atoms, atomsOf_eq_flatMap]
    exact List.mem_flatMap_of_mem mem (ih ha)

theorem atoms_normalize_of_absorbed (h : Absorbed k cs) : (composite k cs).normalize.atoms = [] := by
  have hmem : composite k.dual [] ∈ cs.map normalize := List.mem_map.mpr h
  rw [normalize, normalizeAll_eq_map, join_eq, if_pos hmem]
  rfl

theorem atoms_normalize_of_not_absorbed (h : ¬ Absorbed k cs) :
    (composite k cs).normalize.atoms = cs.flatMap fun c => c.normalize.atoms := by
  have hmem : composite k.dual [] ∉ cs.map normalize := mt List.mem_map.mp h
  rw [normalize, normalizeAll_eq_map, atoms_join hmem, List.flatMap_map]

/-- Sequences that each are part of another make up the same whole only if none lacks anything. -/
theorem flatMap_eq_iff_of_sublist {f g : Condition → List Atom}
    (h : ∀ c ∈ cs, (f c).Sublist (g c)) :
    cs.flatMap f = cs.flatMap g ↔ ∀ c ∈ cs, f c = g c := by
  induction cs with
  | nil => simp
  | cons c cs ih =>
    obtain ⟨hc, hcs⟩ := List.forall_mem_cons.mp h
    rw [List.forall_mem_cons, ← ih hcs, List.flatMap_cons, List.flatMap_cons]
    constructor
    · intro heq
      have hlength : (f c).length = (g c).length := by
        have htotal := congrArg List.length heq
        have hrest := (List.Sublist.flatMap_right cs hcs).length_le
        have hfirst := hc.length_le
        rw [List.length_append, List.length_append] at htotal
        omega
      exact List.append_inj heq hlength
    · rintro ⟨hfirst, hrest⟩
      rw [hfirst, hrest]

/-! ## The whole condition -/

/-- No atom is left out exactly if there is none where a composite is absorbed. -/
theorem atoms_normalize_eq_iff :
    c.normalize.atoms = c.atoms ↔
      ∀ k cs, Occurs (composite k cs) c → Absorbed k cs → (composite k cs).atoms = [] := by
  induction c with
  | atom a => exact iff_of_true rfl fun k cs h => absurd h not_occurs_atom
  | composite k cs ih =>
    rw [forall_occurs_composite]
    by_cases h : Absorbed k cs
    · rw [atoms_normalize_of_absorbed h]
      constructor
      · intro hnil
        refine ⟨fun _ => hnil.symm, ?_⟩
        intro c hc j ds hoccurs _
        have hsubset := (Occurs.part hc hoccurs).atoms_subset (c := composite k cs)
        rw [← hnil] at hsubset
        exact List.subset_nil.mp hsubset
      · rintro ⟨hself, -⟩
        exact (hself h).symm
    · rw [atoms_normalize_of_not_absorbed h, atoms, atomsOf_eq_flatMap,
        flatMap_eq_iff_of_sublist fun c _ => atoms_normalize_sublist c]
      constructor
      · intro hparts
        exact ⟨fun habsorbed => absurd habsorbed h, fun c hc => (ih c hc).mp (hparts c hc)⟩
      · rintro ⟨-, hall⟩ c hc
        exact (ih c hc).mpr (hall c hc)

end

/-- Normalizing keeps the order of the atoms and repeats none of them. All of them are kept if no
composite is absorbed, and exactly if no atom is in one that is. -/
theorem atoms_normalize (c : Condition) :
    c.normalize.atoms.Sublist c.atoms ∧
    ((∀ k cs, Occurs (composite k cs) c → ¬ Absorbed k cs) → c.normalize.atoms = c.atoms) ∧
    (c.normalize.atoms = c.atoms ↔
      ∀ k cs, Occurs (composite k cs) c → Absorbed k cs → (composite k cs).atoms = []) := by
  refine ⟨atoms_normalize_sublist c, ?_, atoms_normalize_eq_iff⟩
  intro hnone
  refine atoms_normalize_eq_iff.mpr ?_
  intro k cs hoccurs habsorbed
  exact absurd habsorbed (hnone k cs hoccurs)

/-- An atom that is repeated, neutral parts and a composite that is left with a single part. -/
theorem atoms_normalize_repeated :
    let a : Condition := text ⟨"name", .eq, "x", false⟩
    let b : Condition := comparison ⟨"age", .ge, .int 18⟩
    let c := composite .any
      [a, composite .any [composite .all [composite .all [], b], a], composite .any []]
    (∀ k cs, Occurs (composite k cs) c → ¬ Absorbed k cs) ∧ c.normalize.atoms = c.atoms := by
  intro a b c
  have hnone : ∀ k cs, Occurs (composite k cs) c → ¬ Absorbed k cs := by
    simp only [a, b, c, text, comparison, forall_occurs_composite, not_occurs_atom,
      List.forall_mem_cons, List.not_mem_nil, false_implies, implies_true, and_true, true_and]
    decide
  exact ⟨hnone, (atoms_normalize c).2.1 hnone⟩

/-- All atoms of an absorbed composite go, those before the part that absorbs too. -/
example :
    let a : Condition := text ⟨"name", .eq, "x", false⟩
    (composite .any [a, composite .all [a, composite .any [], a]]).normalize = a := by
  decide

end Condition

end Criteria
