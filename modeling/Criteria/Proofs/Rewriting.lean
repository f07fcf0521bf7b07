import Criteria.Proofs.NormalForm
import Mathlib.Logic.Relation

/-!
# Rewriting conditions

`Step` is one application of a rule at any position of a tree: the parts of a composite take its
place in a composite with the same connective, a composite of one part becomes that part, and a
composite with the constant of the other connective among its parts becomes that constant.

Every condition rewrites to its normal form (`reduces_normalize`), and a step leaves the normal form
as it is (`Step.normalize_eq`). So conditions have the same normal form exactly if steps, forwards
and backwards, lead from one to the other (`normalize_eq_iff`).
-/

namespace Criteria

namespace Condition

inductive Step : Condition → Condition → Prop where
  | splice (k : Connective) (before parts after : List Condition) :
      Step (composite k (before ++ composite k parts :: after))
        (composite k (before ++ parts ++ after))
  | unwrap (k : Connective) (c : Condition) : Step (composite k [c]) c
  | absorb (k : Connective) (before after : List Condition) :
      Step (composite k (before ++ composite k.dual [] :: after)) (composite k.dual [])
  | part (k : Connective) (before after : List Condition) {c d : Condition} (h : Step c d) :
      Step (composite k (before ++ c :: after)) (composite k (before ++ d :: after))

abbrev Reduces : Condition → Condition → Prop := Relation.ReflTransGen Step

section
variable {k : Connective} {before parts after cs : List Condition} {c d : Condition}

theorem Reduces.part (h : Reduces c d) :
    Reduces (composite k (before ++ c :: after)) (composite k (before ++ d :: after)) :=
  h.lift (fun c => composite k (before ++ c :: after)) fun _ _ h => .part k before after h

/-- Parts reduce independently of each other. The parts in `before` are those already reduced. -/
theorem reduces_map {f : Condition → Condition} (before : List Condition)
    (h : ∀ c ∈ cs, Reduces c (f c)) :
    Reduces (composite k (before ++ cs)) (composite k (before ++ cs.map f)) := by
  induction cs generalizing before with
  | nil => exact .refl
  | cons c cs ih =>
    obtain ⟨hc, hcs⟩ := List.forall_mem_cons.mp h
    have hrest := ih (before ++ [f c]) hcs
    rw [List.append_assoc, List.append_assoc] at hrest
    exact hc.part.trans hrest

theorem reduces_spread :
    Reduces (composite k (before ++ c :: after)) (composite k (before ++ spread k c ++ after)) := by
  cases c with
  | atom a => rw [spread, List.append_assoc]; exact .refl
  | composite j parts =>
    rw [spread]
    split
    · next h => subst h; exact .single (.splice j before parts after)
    · rw [List.append_assoc]; exact .refl

theorem reduces_flatMap_spread (before : List Condition) :
    Reduces (composite k (before ++ cs)) (composite k (before ++ cs.flatMap (spread k))) := by
  induction cs generalizing before with
  | nil => exact .refl
  | cons c cs ih =>
    have hrest := ih (before ++ spread k c)
    rw [List.append_assoc before _ (List.flatMap _ _), ← List.flatMap_cons] at hrest
    exact reduces_spread.trans hrest

theorem reduces_ofParts : Reduces (composite k cs) (ofParts k cs) := by
  unfold ofParts
  split
  · next c => exact .single (.unwrap k c)
  · exact .refl

theorem reduces_join : Reduces (composite k cs) (join k cs) := by
  rw [join_eq]
  split
  · next h =>
    obtain ⟨before, after, rfl⟩ := List.append_of_mem h
    exact .single (.absorb k before after)
  · exact (reduces_flatMap_spread []).trans reduces_ofParts

theorem reduces_normalize (c : Condition) : Reduces c c.normalize := by
  induction c with
  | atom a => exact .refl
  | composite k cs ih =>
    rw [normalize, normalizeAll_eq_map]
    exact (reduces_map [] ih).trans reduces_join

/-! ## Keeping the normal form -/

/-- A composite joined among the parts gives what its own parts give in its place. -/
theorem join_splice (h : ∀ c ∈ parts, Normal c) :
    join k (before ++ join k parts :: after) = join k (before ++ parts ++ after) := by
  have habsorbed : composite k.dual [] ∈ before ++ join k parts :: after ↔
      composite k.dual [] ∈ before ++ parts ++ after := by
    have := join_eq_dual_constant_iff (k := k) h
    simp only [List.mem_append, List.mem_cons, eq_comm (a := composite k.dual []), this, or_assoc]
  rw [join_eq k (before ++ join k parts :: after), join_eq k (before ++ parts ++ after)]
  by_cases hd : composite k.dual [] ∈ before ++ parts ++ after
  · rw [if_pos hd, if_pos (habsorbed.mpr hd)]
  · rw [if_neg hd, if_neg (mt habsorbed.mp hd)]
    have hp : composite k.dual [] ∉ parts := fun hm => hd (by simp [hm])
    simp only [List.flatMap_append, List.flatMap_cons, spread_join h hp, List.append_assoc]

theorem Step.normalize_eq (h : Step c d) : c.normalize = d.normalize := by
  induction h with
  | splice k before parts after =>
    simp only [normalize, normalizeAll_eq_map, List.map_append, List.map_cons]
    exact join_splice (List.forall_mem_map.mpr fun c _ => normal_normalize c)
  | unwrap k c => exact join_singleton (normal_normalize c)
  | absorb k before after =>
    rw [normalize, normalizeAll_eq_map, join_eq, if_pos]
    · rfl
    · exact List.mem_map_of_mem (f := normalize) (List.mem_append_right _ List.mem_cons_self)
  | part k before after _ ih =>
    simp only [normalize, normalizeAll_eq_map, List.map_append, List.map_cons, ih]

end

/-- Conditions have the same normal form exactly if a chain of steps, each taken forwards or
backwards, leads from one to the other. -/
theorem normalize_eq_iff (c d : Condition) :
    c.normalize = d.normalize ↔ Relation.ReflTransGen (Relation.SymmGen Step) c d := by
  rw [Relation.EqvGen.reflTransGen_symmGen]
  have reach (c : Condition) : Relation.EqvGen Step c c.normalize :=
    Relation.EqvGen.reflTransGen_le_eqvGen _ _ _ (reduces_normalize c)
  constructor
  · intro h
    exact .trans _ _ _ (reach c) (h ▸ .symm _ _ (reach d))
  · intro h
    induction h with
    | rel c d h => exact h.normalize_eq
    | refl c => rfl
    | symm c d _ ih => exact ih.symm
    | trans c d e _ _ ihc ihd => exact ihc.trans ihd

end Condition

end Criteria
