import Criteria.Condition.Factory
import Criteria.Json.Reader
import Criteria.Proofs.Outcome

/-!
# What is recorded

The events of a sequence of steps are those of its steps up to the first that fails. A refusal is
recorded once, and it comes to the same whether that is at the check that refuses or where the whole
construction ends (`ofBuild_bind`, `ofDecode_bind`): the checks of both bounds of `between`, or of an
atom deep inside a text that is decoded, may be read as recording their refusals on the spot.
-/

namespace Criteria

namespace Recorded

variable {ε ε' α β γ : Type}

/-- What follows a computation that gives a value; nothing follows a failure. -/
def next (r : Recorded ε α) (f : α → List γ) : List γ :=
  match r.outcome with
  | .ok a => f a
  | .error _ => []

theorem flatMap_next (r : Recorded ε α) (f : α → List β) (g : β → List γ) :
    (r.next f).flatMap g = r.next fun a => (f a).flatMap g := by
  unfold next
  split <;> rfl

@[simp] theorem events_pure (a : α) : (pure a : Recorded ε α).events = [] := rfl

@[simp] theorem events_mapError (r : Recorded ε α) (f : ε → ε') :
    (r.mapError f).events = r.events := rfl

theorem events_bind (r : Recorded ε α) (f : α → Recorded ε β) :
    (r >>= f).events = r.events ++ r.next fun a => (f a).events := by
  obtain ⟨outcome, events⟩ := r
  cases outcome with
  | ok a => rfl
  | error e => exact (List.append_nil events).symm

theorem next_eq_nil (r : Recorded ε α) {f : α → List γ} (h : ∀ a, f a = []) : r.next f = [] := by
  unfold next
  split
  · exact h _
  · rfl

@[simp] theorem next_nil (r : Recorded ε α) : (r.next fun _ => ([] : List γ)) = [] :=
  r.next_eq_nil fun _ => rfl

theorem ofBuild_bind (x : Except BuildError α) (f : α → Except BuildError β) :
    ofBuild (x >>= f) = ofBuild x >>= fun a => ofBuild (f a) := by
  cases x <;> rfl

theorem ofDecode_bind (x : Except DecodeError α) (f : α → Except DecodeError β) :
    ofDecode (x >>= f) = ofDecode x >>= fun a => ofDecode (f a) := by
  cases x with
  | ok a => rfl
  | error e => cases e <;> rfl

/-- A value that is refused while it is decoded is recorded as one that is refused when it is
built. -/
theorem ofDecode_accept (x : Except BuildError α) :
    ofDecode (Json.accept x) = (ofBuild x).mapError .rejected := by
  cases x <;> rfl

end Recorded

namespace Condition

/-- Each bound is checked and refused by itself; only the composite is recorded. -/
theorem between_eq (min max : Operand) (field : String) :
    between min max field =
      (do
        let lower ← .ofBuild (compared .ge min field)
        let upper ← .ofBuild (compared .le max field)
        gather .all [lower, upper]) := by
  rw [between, announce]
  cases compared .ge min field with
  | error e => rfl
  | ok lower => cases compared .le max field <;> rfl

end Condition

end Criteria
