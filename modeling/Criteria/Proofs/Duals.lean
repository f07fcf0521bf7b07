import Criteria.Proofs.Negation
import Mathlib.Data.List.Basic

/-!
# Dual conditions

Two conditions are dual if they have the same tree, with the other connective at every composite and
the opposite operator at every leaf, which otherwise keeps what it has (`Dual`). A condition has one
dual, which is its negation, and negating that gives the condition back (`dual_iff`).

Connectives are treated alike when a condition is normalized: what a part of a composite spreads
into, and whether it absorbs the others, is decided for the dual part of the dual composite in the
same way. So the normal form of a negation is the negation of the normal form
(`normalize_negate`).
-/

namespace Criteria

theorem Operator.opposite_or_iff {p q : Operator} : p.Opposite q ∨ q.Opposite p ↔ q = p.dual := by
  constructor
  · rintro (h | h)
    · exact h.eq_dual
    · rw [h.eq_dual, dual_dual]
  · rintro rfl
    exact p.opposite_dual

namespace Condition

/-- Whether two conditions differ just in that they have opposite operators and connectives. -/
inductive Dual : Condition → Condition → Prop where
  | comparison {p q : Operator} (operators : p.Opposite q ∨ q.Opposite p) (field : String)
      (operand : Operand) :
      Dual (atom (.comparison ⟨field, p, operand⟩)) (atom (.comparison ⟨field, q, operand⟩))
  | text {p q : Operator} (operators : p.Opposite q ∨ q.Opposite p) (field text : String)
      (escaped : Bool) :
      Dual (atom (.text ⟨field, p, text, escaped⟩)) (atom (.text ⟨field, q, text, escaped⟩))
  | composite {j k : Connective} {cs ds : List Condition} (kinds : j ≠ k)
      (lengths : cs.length = ds.length)
      (parts : ∀ (i : Nat) (hc : i < cs.length) (hd : i < ds.length), Dual cs[i] ds[i]) :
      Dual (composite j cs) (composite k ds)

section
variable {k : Connective} {c d : Condition} {cs : List Condition}

theorem dual_negate (c : Condition) : Dual c c.negate := by
  induction c with
  | atom a =>
    cases a with
    | comparison c => exact .comparison c.operator.opposite_dual c.field c.operand
    | text t => exact .text t.operator.opposite_dual t.field t.text t.escaped
  | composite k cs ih =>
    rw [negate, negateAll_eq_map]
    refine .composite (Connective.dual_ne k).symm (by simp) fun i hc hd => ?_
    rw [List.getElem_map]
    exact ih cs[i] (List.getElem_mem hc)

theorem Dual.eq_negate (h : Dual c d) : d = c.negate := by
  induction h with
  | comparison operators field operand =>
    rw [Operator.opposite_or_iff.mp operators]
    rfl
  | text operators field text escaped =>
    rw [Operator.opposite_or_iff.mp operators]
    rfl
  | @composite j k cs ds kinds lengths parts ih =>
    have hds : ds = cs.map Condition.negate := by
      refine List.ext_getElem (by simp [lengths]) fun i hd hc => ?_
      rw [List.getElem_map]
      exact ih i (by simpa using hc) hd
    rw [negate, negateAll_eq_map, hds, Connective.eq_dual_of_ne kinds.symm]

@[simp] theorem negate_negate (c : Condition) : c.negate.negate = c := by
  induction c with
  | atom a => simp [negate]
  | composite k cs ih =>
    have hcs : (cs.map negate).map negate = cs := by
      rw [List.map_map]
      exact (List.map_congr_left ih).trans cs.map_id
    rw [negate, negate, negateAll_eq_map, negateAll_eq_map, Connective.dual_dual, hcs]

theorem negate_injective : Function.Injective negate :=
  Function.LeftInverse.injective negate_negate

theorem constant_mem_map_negate :
    composite k.dual.dual [] ∈ cs.map negate ↔ composite k.dual [] ∈ cs :=
  List.mem_map_of_injective negate_injective (a := composite k.dual [])

theorem spread_negate (k : Connective) (c : Condition) :
    spread k.dual c.negate = (spread k c).map negate := by
  cases c with
  | atom a => rfl
  | composite j cs =>
    have hkinds : j.dual = k.dual ↔ j = k := by
      constructor
      · intro h
        rw [← j.dual_dual, h, k.dual_dual]
      · exact congrArg Connective.dual
    rw [negate, negateAll_eq_map, spread, spread]
    simp only [hkinds]
    split
    · rfl
    · simp [negate]

theorem ofParts_negate (k : Connective) (cs : List Condition) :
    ofParts k.dual (cs.map negate) = (ofParts k cs).negate := by
  match cs with
  | [] | [_] | _ :: _ :: _ => simp [ofParts, negate]

/-- Joining the negated parts under the other connective negates what the parts are joined to. -/
theorem join_negate (k : Connective) (cs : List Condition) :
    join k.dual (cs.map negate) = (join k cs).negate := by
  rw [join_eq, join_eq]
  by_cases hd : composite k.dual [] ∈ cs
  · rw [if_pos hd, if_pos (constant_mem_map_negate.mpr hd)]
    rfl
  · rw [if_neg hd, if_neg (mt constant_mem_map_negate.mp hd), ← ofParts_negate,
      List.flatMap_map, List.map_flatMap]
    simp only [spread_negate]

end

/-- The negation of a condition is its only dual, and is negated to the condition again. -/
theorem dual_iff (c : Condition) : c.negate.negate = c ∧ ∀ d, Dual c d ↔ d = c.negate := by
  refine ⟨negate_negate c, fun d => ⟨Dual.eq_negate, ?_⟩⟩
  rintro rfl
  exact dual_negate c

/-- The normal form of a negation is the negation of the normal form. -/
theorem normalize_negate (c : Condition) : c.negate.normalize = c.normalize.negate := by
  induction c with
  | atom a => rfl
  | composite k cs ih =>
    have hcs : (cs.map negate).map normalize = (cs.map normalize).map negate := by
      rw [List.map_map, List.map_map]
      exact List.map_congr_left ih
    rw [negate, negateAll_eq_map, normalize, normalize, normalizeAll_eq_map, normalizeAll_eq_map,
      hcs, join_negate]

end Condition

end Criteria
