import Criteria.Proofs.NormalForm

/-!
# The atoms of a condition

The atoms of a tree from left to right. Negating negates each of them, and normalizing keeps their
order and may leave some out, so that what holds of every atom, and is kept by negation, goes on to
hold of every atom.
-/

namespace Criteria

namespace Condition

mutual

/-- The atoms from left to right. -/
def atoms : Condition → List Atom
  | atom a => [a]
  | composite _ cs => atomsOf cs

def atomsOf : List Condition → List Atom
  | [] => []
  | c :: cs => atoms c ++ atomsOf cs

end

@[simp] theorem atomsOf_eq_flatMap (cs : List Condition) : atomsOf cs = cs.flatMap atoms := by
  induction cs with
  | nil => rfl
  | cons c cs ih => rw [atomsOf, ih, List.flatMap_cons]

theorem atoms_negate (c : Condition) : c.negate.atoms = c.atoms.map Atom.negate := by
  induction c with
  | atom a => rfl
  | composite k cs ih =>
    rw [negate, negateAll_eq_map, atoms, atoms, atomsOf_eq_flatMap, atomsOf_eq_flatMap,
      List.flatMap_map, List.map_flatMap, List.flatMap_def, List.flatMap_def,
      List.map_congr_left ih]

theorem flatMap_atoms_spread (k : Connective) (c : Condition) :
    (spread k c).flatMap atoms = c.atoms := by
  cases c with
  | atom a => rfl
  | composite j cs =>
    rw [spread]
    split
    · rw [atoms, atomsOf_eq_flatMap]
    · rw [List.flatMap_singleton]

theorem atoms_ofParts (k : Connective) (cs : List Condition) :
    (ofParts k cs).atoms = cs.flatMap atoms := by
  unfold ofParts
  split
  · rw [List.flatMap_singleton]
  · rw [atoms, atomsOf_eq_flatMap]

theorem atoms_join {k : Connective} {cs : List Condition} (h : composite k.dual [] ∉ cs) :
    (join k cs).atoms = cs.flatMap atoms := by
  rw [join_eq, if_neg h, atoms_ofParts, List.flatMap_assoc]
  simp only [flatMap_atoms_spread]

theorem atoms_join_sublist (k : Connective) (cs : List Condition) :
    (join k cs).atoms.Sublist (cs.flatMap atoms) := by
  by_cases h : composite k.dual [] ∈ cs
  · rw [join_eq, if_pos h]
    exact List.nil_sublist _
  · simp only [atoms_join h, List.Sublist.refl]

theorem atoms_normalize_sublist (c : Condition) : c.normalize.atoms.Sublist c.atoms := by
  induction c with
  | atom a => exact List.Sublist.refl _
  | composite k cs ih =>
    rw [normalize, normalizeAll_eq_map, atoms, atomsOf_eq_flatMap]
    refine (atoms_join_sublist k _).trans ?_
    rw [List.flatMap_map]
    induction cs with
    | nil => exact List.Sublist.refl _
    | cons c cs ihs =>
      obtain ⟨hc, hcs⟩ := List.forall_mem_cons.mp ih
      exact List.Sublist.append hc (ihs hcs)

/-! ## Properties of every atom -/

def Every (P : Atom → Prop) (c : Condition) : Prop :=
  ∀ a ∈ c.atoms, P a

section
variable {P : Atom → Prop} {c : Condition}

theorem every_atom {a : Atom} : Every P (atom a) ↔ P a :=
  List.forall_mem_singleton

theorem every_composite {k : Connective} {cs : List Condition} :
    Every P (composite k cs) ↔ ∀ c ∈ cs, Every P c := by
  rw [Every, atoms, atomsOf_eq_flatMap, List.forall_mem_flatMap]
  rfl

theorem Every.negate (hP : ∀ a, P a → P a.negate) (h : Every P c) : Every P c.negate := by
  rw [Every, atoms_negate, List.forall_mem_map]
  exact fun a ha => hP a (h a ha)

theorem Every.normalize (h : Every P c) : Every P c.normalize :=
  fun a ha => h a ((atoms_normalize_sublist c).subset ha)

theorem Every.parts (h : Every P c) : ∀ d ∈ c.parts, Every P d := by
  cases c with
  | atom a => simp [Condition.parts]
  | composite k cs => exact every_composite.mp h

end

end Condition

end Criteria
