import Criteria.Recorded

/-!
# Outcomes

What is known of the value of a computation when it succeeds. A sequence of steps succeeds exactly
if each of them does. The outcome of a recorded sequence is the sequence of the outcomes, whatever
its events, and `Recorded.Returns` carries a property of the value through the steps.
-/

namespace Criteria

section
variable {ε α β : Type}

@[simp] theorem except_ok_bind (a : α) (f : α → Except ε β) : (.ok a >>= f) = f a := rfl

@[simp] theorem except_error_bind (e : ε) (f : α → Except ε β) : (.error e >>= f) = .error e := rfl

@[simp] theorem except_map_ok (f : α → β) (a : α) : (f <$> .ok a : Except ε β) = .ok (f a) := rfl

@[simp] theorem except_map_error (f : α → β) (e : ε) : (f <$> .error e : Except ε β) = .error e := rfl

theorem except_bind_eq_ok_iff {x : Except ε α} {f : α → Except ε β} {b : β} :
    (x >>= f) = .ok b ↔ ∃ a, x = .ok a ∧ f a = .ok b := by
  cases x <;> simp

theorem except_map_eq_ok_iff {x : Except ε α} {f : α → β} {b : β} :
    f <$> x = .ok b ↔ ∃ a, x = .ok a ∧ f a = b := by
  cases x <;> simp

end

namespace Recorded

variable {ε ε' α β : Type} {P : α → Prop} {Q : β → Prop}

@[simp] theorem outcome_pure (a : α) : (pure a : Recorded ε α).outcome = .ok a := rfl

@[simp] theorem outcome_record (e : Event) : (record e : Recorded ε Unit).outcome = .ok () := rfl

@[simp] theorem outcome_bind (r : Recorded ε α) (f : α → Recorded ε β) :
    (r >>= f).outcome = r.outcome >>= fun a => (f a).outcome := by
  obtain ⟨outcome, events⟩ := r
  cases outcome <;> rfl

@[simp] theorem outcome_ofBuild (x : Except BuildError α) : (ofBuild x).outcome = x := by
  cases x <;> rfl

@[simp] theorem outcome_ofDecode (x : Except DecodeError α) : (ofDecode x).outcome = x := by
  cases x with
  | ok a => rfl
  | error e => cases e <;> rfl

/-- The value has the property if there is one. -/
def Returns (r : Recorded ε α) (P : α → Prop) : Prop :=
  ∀ a, r.outcome = .ok a → P a

theorem returns_pure {a : α} (h : P a) : (pure a : Recorded ε α).Returns P := by
  intro b hb
  cases hb
  exact h

theorem returns_error (e : ε) : (error e : Recorded ε α).Returns P := by
  intro a h
  cases h

theorem Returns.bind {r : Recorded ε α} {f : α → Recorded ε β} (hr : r.Returns P)
    (hf : ∀ a, P a → (f a).Returns Q) : (r >>= f).Returns Q := by
  intro b hb
  rw [outcome_bind] at hb
  obtain ⟨a, ha, hb⟩ := except_bind_eq_ok_iff.mp hb
  exact hf a (hr a ha) b hb

/-- A step of which only its events matter. -/
theorem Returns.after {r : Recorded ε α} {f : α → Recorded ε β} (hf : ∀ a, (f a).Returns Q) :
    (r >>= f).Returns Q :=
  Returns.bind (P := fun _ => True) (fun _ _ => trivial) fun a _ => hf a

/-- Steps for the items of a list, each from what the one before has given. -/
theorem Returns.foldlM {f : β → α → Recorded ε β} (hf : ∀ b a, Q b → (f b a).Returns Q) {b : β}
    (hb : Q b) (as : List α) : (as.foldlM f b).Returns Q := by
  induction as generalizing b with
  | nil => exact returns_pure hb
  | cons a as ih =>
    rw [List.foldlM_cons]
    exact (hf b a hb).bind fun c hc => ih hc

theorem Returns.mapError {r : Recorded ε α} {f : ε → ε'} (h : r.Returns P) :
    (r.mapError f).Returns P := by
  intro a ha
  obtain ⟨outcome, events⟩ := r
  cases outcome with
  | ok b => cases ha; exact h a rfl
  | error e => cases ha

theorem returns_ofBuild {x : Except BuildError α} (h : ∀ a, x = .ok a → P a) :
    (ofBuild x).Returns P :=
  fun a ha => h a ((outcome_ofBuild x).symm.trans ha)

theorem returns_ofDecode {x : Except DecodeError α} (h : ∀ a, x = .ok a → P a) :
    (ofDecode x).Returns P :=
  fun a ha => h a ((outcome_ofDecode x).symm.trans ha)

end Recorded

end Criteria
