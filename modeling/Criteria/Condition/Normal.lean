import Criteria.Condition

/-!
# Normal forms

Normalizing works from the leaves up. A normalized part with the connective of its composite gives
its own parts in its place; a part that is the constant of the other connective makes the whole
composite that constant; what is left of one part is that part.
-/

namespace Criteria

namespace Condition

/-- The parts of a `k` composite after splicing, none if one of them absorbs the others. -/
def splice (k : Connective) : List Condition → Option (List Condition)
  | [] => some []
  | .atom a :: rest => (splice k rest).map (.atom a :: ·)
  | .composite j cs :: rest =>
    if j = k then (splice k rest).map (cs ++ ·)
    else if cs.isEmpty then none
    else (splice k rest).map (.composite j cs :: ·)

/-- The normal form of a `k` composite whose parts are in normal form. -/
def join (k : Connective) (cs : List Condition) : Condition :=
  match splice k cs with
  | none => .composite k.dual []
  | some [c] => c
  | some cs => .composite k cs

mutual

def normalize : Condition → Condition
  | atom a => atom a
  | composite k cs => join k (normalizeAll cs)

def normalizeAll : List Condition → List Condition
  | [] => []
  | c :: cs => normalize c :: normalizeAll cs

end

@[simp] theorem normalizeAll_eq_map (cs : List Condition) :
    normalizeAll cs = cs.map normalize := by
  induction cs <;> simp_all [normalizeAll]

end Condition

end Criteria
