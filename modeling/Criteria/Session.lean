import Criteria.Counters

/-!
# Sessions

Every event goes to one place: the sink in force, or the counters when there is none. A sink keeps
what it receives in order.

A session is a sequence of calls, reports and scopes. A scope puts a sink in force for its body and
gives back the one before, however the body is left. A panic leaves everything up to the attempt
around it, which goes on after its body. What a call does is given by a function, from the call and
the state that calls share to its answer, the new state and its events.
-/

namespace Criteria

/-- Sinks are told apart by number. -/
abbrev SinkId := Nat

structure Telemetry where
  counters : Counters := {}
  received : SinkId → List Event := fun _ => []
  inForce : Option SinkId := none

namespace Telemetry

def record (t : Telemetry) (e : Event) : Telemetry :=
  match t.inForce with
  | none => { t with counters := t.counters.record e }
  | some sink =>
    { t with received := fun s => if s = sink then t.received s ++ [e] else t.received s }

def recordAll (t : Telemetry) (es : List Event) : Telemetry :=
  es.foldl record t

/-- Sets the counters to zero; the sinks keep what they have. -/
def reset (t : Telemetry) : Telemetry :=
  { t with counters := .zero }

/-- The same with another sink in force, or none. -/
def withSink (t : Telemetry) (sink : Option SinkId) : Telemetry :=
  { t with inForce := sink }

end Telemetry

/-- The state that calls share, and where their events go. -/
structure Session (σ : Type) where
  state : σ
  telemetry : Telemetry := {}

namespace Session

inductive Step (κ : Type) where
  | call (c : κ)
  | report
  | reset
  | scope (sink : SinkId) (body : List (Step κ))
  | panic
  | attempt (body : List (Step κ))

/-- What a step answers; a panic answers nothing. -/
inductive Reply (α : Type) where
  | answer (a : α)
  | counters (c : Counters)
  | scope (replies : List (Reply α))
  | attempt (replies : List (Reply α)) (panicked : Bool)

structure Effect (σ α : Type) where
  state : σ
  answer : α
  events : List Event

/-- The replies of steps, whether a panic has left them, and the session after them. -/
structure Outcome (σ α : Type) where
  replies : List (Reply α)
  panicked : Bool
  session : Session σ

variable {κ σ α : Type}

/-- The same session with another sink in force, or none. -/
def withSink (s : Session σ) (sink : Option SinkId) : Session σ :=
  { s with telemetry := s.telemetry.withSink sink }

def perform (f : κ → σ → Effect σ α) (c : κ) (s : Session σ) : Outcome σ α :=
  let e := f c s.state
  ⟨[.answer e.answer], false, ⟨e.state, s.telemetry.recordAll e.events⟩⟩

mutual

def runStep (f : κ → σ → Effect σ α) : Step κ → Session σ → Outcome σ α
  | .call c, s => perform f c s
  | .report, s => ⟨[.counters s.telemetry.counters], false, s⟩
  | .reset, s =>
    let s := { s with telemetry := s.telemetry.reset }
    ⟨[.counters s.telemetry.counters], false, s⟩
  | .scope sink body, s =>
    let o := run f body (s.withSink (some sink))
    ⟨[.scope o.replies], o.panicked, o.session.withSink s.telemetry.inForce⟩
  | .panic, s => ⟨[], true, s⟩
  | .attempt body, s =>
    let o := run f body s
    ⟨[.attempt o.replies o.panicked], false, o.session⟩

/-- Runs steps in order, up to a panic. -/
def run (f : κ → σ → Effect σ α) : List (Step κ) → Session σ → Outcome σ α
  | [], s => ⟨[], false, s⟩
  | step :: steps, s =>
    let first := runStep f step s
    if first.panicked then first
    else
      let rest := run f steps first.session
      ⟨first.replies ++ rest.replies, rest.panicked, rest.session⟩

end

end Session

end Criteria
