import Criteria.Error

/-!
# Recorded computations

A computation that may fail, together with its events in the order in which they occurred. Events
are what constructions report while they run; what happened before a failure stays recorded.
-/

namespace Criteria

/-- The three forms of a condition. -/
inductive Shape where
  | comparison
  | text
  | composite
  deriving DecidableEq, Repr

inductive Event where
  | built (shape : Shape)
  /-- A condition with this shape at its root was negated. -/
  | negated (shape : Shape)
  /-- A pattern was compiled in which so many characters are escaped. -/
  | patternCompiled (escapes : Nat)
  | rejected (reason : Rejection)
  deriving DecidableEq, Repr

structure Recorded (ε α : Type) where
  outcome : Except ε α
  events : List Event

namespace Recorded

variable {ε ε' α β : Type}

def ok (a : α) : Recorded ε α :=
  ⟨.ok a, []⟩

def error (e : ε) : Recorded ε α :=
  ⟨.error e, []⟩

def bind (r : Recorded ε α) (f : α → Recorded ε β) : Recorded ε β :=
  match r.outcome with
  | .ok a =>
    let s := f a
    ⟨s.outcome, r.events ++ s.events⟩
  | .error e => ⟨.error e, r.events⟩

instance : Monad (Recorded ε) where
  pure := ok
  bind := bind

def record (e : Event) : Recorded ε Unit :=
  ⟨.ok (), [e]⟩

/-- The same with its error described differently. -/
def mapError (f : ε → ε') (r : Recorded ε α) : Recorded ε' α :=
  ⟨match r.outcome with
    | .ok a => .ok a
    | .error e => .error (f e), r.events⟩

/-- A construction whose refusal is recorded. -/
def ofBuild : Except BuildError α → Recorded BuildError α
  | .ok a => ok a
  | .error e => ⟨.error e, [.rejected e.rejection]⟩

/-- A decoding of which a refusal is recorded, and nothing else. -/
def ofDecode : Except DecodeError α → Recorded DecodeError α
  | .ok a => ok a
  | .error .malformed => error .malformed
  | .error (.rejected e) => ⟨.error (.rejected e), [.rejected e.rejection]⟩

end Recorded

end Criteria
