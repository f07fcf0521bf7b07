import Criteria.Proofs.NormalForm

/-!
# The truth of conditions

A condition is true, false or unknown once each of its atoms is. Unknown is the third value of the
strong Kleene logic: a connective has a definite value as soon as its other arguments settle it, and
on definite arguments it is the Boolean connective. `all` is conjunction and `any` disjunction, and
a composite without parts has its connective's neutral value.

Normalizing keeps the value under every assignment (`eval_normalize`): what a part spreads into has
together the value of the part, and where a part absorbs the others it has done so before.
-/

namespace Criteria

inductive Truth where
  | no
  | unknown
  | yes
  deriving DecidableEq, Repr

namespace Truth

protected def and : Truth → Truth → Truth
  | no, _ => no
  | _, no => no
  | yes, yes => yes
  | _, _ => unknown

protected def or : Truth → Truth → Truth
  | yes, _ => yes
  | _, yes => yes
  | no, no => no
  | _, _ => unknown

end Truth

namespace Connective

def neutral : Connective → Truth
  | all => .yes
  | any => .no

def combine : Connective → Truth → Truth → Truth
  | all => Truth.and
  | any => Truth.or

@[simp] theorem neutral_combine (k : Connective) (t : Truth) : k.combine k.neutral t = t := by
  cases k <;> cases t <;> rfl

@[simp] theorem combine_neutral (k : Connective) (t : Truth) : k.combine t k.neutral = t := by
  cases k <;> cases t <;> rfl

theorem combine_eq_neutral_iff {k : Connective} {s t : Truth} :
    k.combine s t = k.neutral ↔ s = k.neutral ∧ t = k.neutral := by
  cases k <;> cases s <;> cases t <;> decide

theorem combine_eq_dual_neutral_iff {k : Connective} {s t : Truth} :
    k.combine s t = k.dual.neutral ↔ s = k.dual.neutral ∨ t = k.dual.neutral := by
  cases k <;> cases s <;> cases t <;> decide

theorem neutral_ne_dual_neutral (k : Connective) : k.neutral ≠ k.dual.neutral := by
  cases k <;> decide

theorem combine_assoc (k : Connective) (s t u : Truth) :
    k.combine (k.combine s t) u = k.combine s (k.combine t u) := by
  cases k <;> cases s <;> cases t <;> cases u <;> rfl

end Connective

namespace Condition

mutual

/-- The value of a condition whose atoms have the given values. -/
def eval (v : Atom → Truth) : Condition → Truth
  | atom a => v a
  | composite k cs => evalAll v k cs

def evalAll (v : Atom → Truth) (k : Connective) : List Condition → Truth
  | [] => k.neutral
  | c :: cs => k.combine (eval v c) (evalAll v k cs)

end

section
variable {v : Atom → Truth} {k : Connective} {cs ds : List Condition}

theorem evalAll_append :
    evalAll v k (cs ++ ds) = k.combine (evalAll v k cs) (evalAll v k ds) := by
  induction cs with
  | nil => simp [evalAll]
  | cons c cs ih => rw [List.cons_append, evalAll, evalAll, ih, Connective.combine_assoc]

theorem evalAll_congr {f : Condition → Condition} (h : ∀ c ∈ cs, eval v (f c) = eval v c) :
    evalAll v k (cs.map f) = evalAll v k cs := by
  induction cs with
  | nil => rfl
  | cons c cs ih =>
    obtain ⟨hc, hcs⟩ := List.forall_mem_cons.mp h
    rw [List.map_cons, evalAll, evalAll, hc, ih hcs]

theorem evalAll_eq_neutral_iff :
    evalAll v k cs = k.neutral ↔ ∀ c ∈ cs, eval v c = k.neutral := by
  induction cs with
  | nil => simp [evalAll]
  | cons c cs ih => rw [evalAll, Connective.combine_eq_neutral_iff, ih, List.forall_mem_cons]

theorem evalAll_eq_dual_neutral_iff :
    evalAll v k cs = k.dual.neutral ↔ ∃ c ∈ cs, eval v c = k.dual.neutral := by
  induction cs with
  | nil => simp [evalAll, Connective.neutral_ne_dual_neutral]
  | cons c cs ih =>
    simp only [evalAll, Connective.combine_eq_dual_neutral_iff, ih, List.mem_cons, exists_eq_or_imp]

/-! ## Normal forms -/

theorem evalAll_spread (c : Condition) : evalAll v k (spread k c) = eval v c := by
  cases c with
  | atom a => rw [spread, evalAll, evalAll, Connective.combine_neutral]
  | composite j parts =>
    rw [spread]
    split
    · next h => rw [eval, h]
    · rw [evalAll, evalAll, Connective.combine_neutral]

theorem evalAll_flatMap_spread : evalAll v k (cs.flatMap (spread k)) = evalAll v k cs := by
  induction cs with
  | nil => rfl
  | cons c cs ih => rw [List.flatMap_cons, evalAll_append, evalAll_spread, ih, evalAll]

theorem eval_ofParts : eval v (ofParts k cs) = evalAll v k cs := by
  unfold ofParts
  split
  · rw [evalAll, evalAll, Connective.combine_neutral]
  · rfl

/-- Joining keeps the value: a part that absorbs the others has the absorbing value. -/
theorem eval_join : eval v (join k cs) = evalAll v k cs := by
  rw [join_eq]
  split
  · next h => exact (evalAll_eq_dual_neutral_iff.mpr ⟨_, h, rfl⟩).symm
  · rw [eval_ofParts, evalAll_flatMap_spread]

end

/-- A condition and its normal form have the same value, whatever its atoms have. -/
theorem eval_normalize (v : Atom → Truth) (c : Condition) : eval v c.normalize = eval v c := by
  induction c with
  | atom a => rfl
  | composite k cs ih =>
    rw [normalize, normalizeAll_eq_map, eval_join, evalAll_congr ih, eval]

end Condition

end Criteria
