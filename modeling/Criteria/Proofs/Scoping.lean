import Criteria.Session

/-!
# Scopes and their sinks

The sink that an event is for can be told from where its call stands: it is the sink of the
innermost scope around the call, and where there is no scope the event is for the counters. `course`
follows steps in this way, without a sink that is put in force and put back, and a session that runs
them delivers every event just there (`run_session`). For a scope that means that its sink gets, in
their order, the events of the calls in it that are in no scope further in, that the counters and
the other sinks get none of these, and that the sink before is in force again after it, whether or
not a panic has left it; what the calls answer is the same without any scope (`runStep_scope`).
-/

namespace Criteria

namespace Telemetry

/-- The same with events delivered to a sink, or to the counters if there is none. -/
def deliver (t : Telemetry) (sink : Option SinkId) (es : List Event) : Telemetry :=
  match sink with
  | none => { t with counters := es.foldl Counters.record t.counters }
  | some sink => { t with received := fun s => if s = sink then t.received s ++ es else t.received s }

section
variable {t : Telemetry} {sink : Option SinkId} {es : List Event}

@[simp] theorem inForce_deliver : (t.deliver sink es).inForce = t.inForce := by
  cases sink <;> rfl

theorem deliver_withSink (other : Option SinkId) :
    (t.withSink other).deliver sink es = (t.deliver sink es).withSink other := by
  cases sink <;> rfl

/-- A sink that is put back after another one has been in force. -/
theorem withSink_withSink (h : t.inForce = sink) (other : Option SinkId) :
    (t.withSink other).withSink sink = t := by
  subst h
  rfl

theorem received_deliver (s : SinkId) :
    (t.deliver sink es).received s = t.received s ++ if sink = some s then es else [] := by
  cases sink with
  | none => simp [deliver]
  | some sink => by_cases h : s = sink <;> simp [deliver, h, eq_comm]

/-- Events that are recorded one by one all go to the sink in force. -/
theorem recordAll_eq_deliver (t : Telemetry) (es : List Event) :
    t.recordAll es = t.deliver t.inForce es := by
  obtain ⟨counters, received, inForce⟩ := t
  cases inForce with
  | none =>
    induction es generalizing counters with
    | nil => rfl
    | cons e es ih => exact ih (counters.record e)
  | some sink =>
    induction es generalizing received with
    | nil => simp [recordAll, deliver]
    | cons e es ih =>
      refine (ih _).trans ?_
      simp only [deliver, mk.injEq, true_and, and_true]
      funext s
      by_cases h : s = sink <;> simp [h]

end

end Telemetry

namespace Session

variable {κ σ α : Type}

/-! ## Where events belong -/

/-- What happens in steps: a call, with the sink of the innermost scope around it and the state it
finds, or a reset of the counters. -/
inductive Entry (κ σ : Type) where
  | call (sink : Option SinkId) (c : κ) (state : σ)
  | reset

namespace Entry

/-- The telemetry after an entry, given the events of every call. -/
def deliver (events : κ → σ → List Event) (t : Telemetry) : Entry κ σ → Telemetry
  | call sink c state => t.deliver sink (events c state)
  | reset => t.reset

def deliverAll (events : κ → σ → List Event) (t : Telemetry) (es : List (Entry κ σ)) : Telemetry :=
  es.foldl (deliver events) t

/-- The events of an entry that are for the sink. -/
def eventsFor (events : κ → σ → List Event) (s : SinkId) : Entry κ σ → List Event
  | call sink c state => if sink = some s then events c state else []
  | reset => []

/-- Whether no event of an entry is for the counters. -/
def inScope : Entry κ σ → Bool
  | call sink _ _ => sink.isSome
  | reset => true

def isReset : Entry κ σ → Bool
  | call _ _ _ => false
  | reset => true

section
variable {events : κ → σ → List Event} {t : Telemetry} {es : List (Entry κ σ)}

@[simp] theorem inForce_deliverAll : (deliverAll events t es).inForce = t.inForce := by
  induction es generalizing t with
  | nil => rfl
  | cons e es ih =>
    refine ih.trans ?_
    cases e with
    | call sink c state => exact Telemetry.inForce_deliver
    | reset => rfl

theorem deliverAll_withSink (sink : Option SinkId) :
    deliverAll events (t.withSink sink) es = (deliverAll events t es).withSink sink := by
  induction es generalizing t with
  | nil => rfl
  | cons e es ih =>
    have he : deliver events (t.withSink sink) e = (deliver events t e).withSink sink := by
      cases e with
      | call inner c state => exact Telemetry.deliver_withSink sink
      | reset => rfl
    simp only [deliverAll, List.foldl_cons, he]
    exact ih

theorem received_deliverAll (s : SinkId) :
    (deliverAll events t es).received s = t.received s ++ es.flatMap (eventsFor events s) := by
  induction es generalizing t with
  | nil => simp [deliverAll]
  | cons e es ih =>
    have he : (deliver events t e).received s = t.received s ++ e.eventsFor events s := by
      cases e with
      | call sink c state => exact Telemetry.received_deliver s
      | reset => simp [deliver, eventsFor, Telemetry.reset]
    rw [List.flatMap_cons, ← List.append_assoc, ← he]
    exact ih

/-- Entries in a scope leave the counters alone, unless one of them is a reset. -/
theorem counters_deliverAll (h : ∀ e ∈ es, e.inScope = true) :
    (deliverAll events t es).counters = if es.any isReset then .zero else t.counters := by
  induction es generalizing t with
  | nil => rfl
  | cons e es ih =>
    obtain ⟨he, hes⟩ := List.forall_mem_cons.mp h
    refine (ih hes).trans ?_
    cases e with
    | call sink c state =>
      obtain ⟨sink, rfl⟩ := Option.isSome_iff_exists.mp he
      simp [deliver, Telemetry.deliver, isReset]
    | reset => simp [deliver, Telemetry.reset, isReset]

theorem deliverAll_append (es fs : List (Entry κ σ)) :
    deliverAll events t (es ++ fs) = deliverAll events (deliverAll events t es) fs :=
  List.foldl_append

end

end Entry

/-- The entries of steps, whether a panic has left them, and the state after them. -/
structure Course (κ σ : Type) where
  entries : List (Entry κ σ)
  panicked : Bool
  state : σ

mutual

/-- The course of a step around which `sink` is the sink of the innermost scope. -/
def stepCourse (f : κ → σ → Effect σ α) (sink : Option SinkId) : Step κ → σ → Course κ σ
  | .call c, state => ⟨[.call sink c state], false, (f c state).state⟩
  | .report, state => ⟨[], false, state⟩
  | .reset, state => ⟨[.reset], false, state⟩
  | .scope inner body, state => course f (some inner) body state
  | .panic, state => ⟨[], true, state⟩
  | .attempt body, state =>
    let c := course f sink body state
    ⟨c.entries, false, c.state⟩

def course (f : κ → σ → Effect σ α) (sink : Option SinkId) : List (Step κ) → σ → Course κ σ
  | [], state => ⟨[], false, state⟩
  | step :: steps, state =>
    let first := stepCourse f sink step state
    if first.panicked then first
    else
      let rest := course f sink steps first.state
      ⟨first.entries ++ rest.entries, rest.panicked, rest.state⟩

end

/-! ## Runs -/

section
variable (f : κ → σ → Effect σ α)

def Course.after (c : Course κ σ) (s : Session σ) : Session σ :=
  ⟨c.state, Entry.deliverAll (fun c state => (f c state).events) s.telemetry c.entries⟩

mutual

/-- A step leaves the session that its course leads to: a scope takes back the sink that it has put in
force, so it is as if that had never been. -/
theorem runStep_session (step : Step κ) (s : Session σ) :
    (runStep f step s).session = (stepCourse f s.telemetry.inForce step s.state).after f s ∧
      (runStep f step s).panicked = (stepCourse f s.telemetry.inForce step s.state).panicked := by
  match step with
  | .call c =>
    refine ⟨?_, rfl⟩
    rw [runStep, perform, Telemetry.recordAll_eq_deliver]
    rfl
  | .report | .reset | .panic => exact ⟨rfl, rfl⟩
  | .scope sink body =>
    obtain ⟨hsession, hpanicked⟩ := run_session body (s.withSink (some sink))
    refine ⟨?_, hpanicked⟩
    rw [runStep, hsession, Course.after, withSink, withSink, Entry.deliverAll_withSink,
      Telemetry.withSink_withSink Entry.inForce_deliverAll]
    rfl
  | .attempt body =>
    obtain ⟨hsession, _⟩ := run_session body s
    exact ⟨hsession, rfl⟩

theorem run_session (steps : List (Step κ)) (s : Session σ) :
    (run f steps s).session = (course f s.telemetry.inForce steps s.state).after f s ∧
      (run f steps s).panicked = (course f s.telemetry.inForce steps s.state).panicked := by
  match steps with
  | [] => exact ⟨rfl, rfl⟩
  | step :: steps =>
    obtain ⟨hfirst, hpanicked⟩ := runStep_session step s
    obtain ⟨hrest, hend⟩ := run_session steps (runStep f step s).session
    have hsink : (runStep f step s).session.telemetry.inForce = s.telemetry.inForce := by
      rw [hfirst]
      exact Entry.inForce_deliverAll
    have hstate : (runStep f step s).session.state =
        (stepCourse f s.telemetry.inForce step s.state).state := by
      rw [hfirst, Course.after]
    rw [hsink, hstate] at hrest hend
    rw [run, course, hpanicked]
    split
    · exact ⟨hfirst, hpanicked⟩
    · refine ⟨?_, hend⟩
      dsimp only
      rw [hrest, hfirst, Course.after, Course.after, Course.after, Entry.deliverAll_append]

end

mutual

theorem stepCourse_inScope (step : Step κ) (sink : SinkId) (state : σ) :
    ∀ e ∈ (stepCourse f (some sink) step state).entries, e.inScope = true := by
  match step with
  | .call c => simp [stepCourse, Entry.inScope]
  | .report | .panic => simp [stepCourse]
  | .reset => simp [stepCourse, Entry.inScope]
  | .scope inner body => exact course_inScope body inner state
  | .attempt body => exact course_inScope body sink state

theorem course_inScope (steps : List (Step κ)) (sink : SinkId) (state : σ) :
    ∀ e ∈ (course f (some sink) steps state).entries, e.inScope = true := by
  match steps with
  | [] => simp [course]
  | step :: steps =>
    have hfirst := stepCourse_inScope step sink state
    rw [course]
    split
    · exact hfirst
    · exact List.forall_mem_append.mpr ⟨hfirst, course_inScope steps sink _⟩

end

/-! ## Steps without their scopes -/

mutual

/-- The steps that a step is without any scope. -/
def Step.unscoped : Step κ → List (Step κ)
  | .call c => [.call c]
  | .report => [.report]
  | .reset => [.reset]
  | .scope _ body => unscopedAll body
  | .panic => [.panic]
  | .attempt body => [.attempt (unscopedAll body)]

def unscopedAll : List (Step κ) → List (Step κ)
  | [] => []
  | step :: steps => step.unscoped ++ unscopedAll steps

end

mutual

/-- What a reply says besides counters, without any scope. -/
def Reply.results : Reply α → List (Reply α)
  | .answer a => [.answer a]
  | .counters _ => []
  | .scope replies => resultsAll replies
  | .attempt replies panicked => [.attempt (resultsAll replies) panicked]

def resultsAll : List (Reply α) → List (Reply α)
  | [] => []
  | reply :: replies => reply.results ++ resultsAll replies

end

@[simp] theorem resultsAll_append (rs ts : List (Reply α)) :
    resultsAll (rs ++ ts) = resultsAll rs ++ resultsAll ts := by
  induction rs with
  | nil => rfl
  | cons r rs ih => rw [List.cons_append, resultsAll, resultsAll, ih, List.append_assoc]

namespace Outcome

/-- Goes on, unless a panic has left the steps. -/
def andThen (o : Outcome σ α) (g : Session σ → Outcome σ α) : Outcome σ α :=
  if o.panicked then o
  else ⟨o.replies ++ (g o.session).replies, (g o.session).panicked, (g o.session).session⟩

theorem andThen_assoc (o : Outcome σ α) (g h : Session σ → Outcome σ α) :
    (o.andThen g).andThen h = o.andThen fun s => (g s).andThen h := by
  obtain ⟨replies, panicked, session⟩ := o
  cases panicked with
  | true => rfl
  | false => cases hg : (g session).panicked <;> simp [andThen, hg]

/-- Whether calls had the same results and came to the same end. -/
structure Agree (o p : Outcome σ α) : Prop where
  results : resultsAll o.replies = resultsAll p.replies
  panicked : o.panicked = p.panicked
  state : o.session.state = p.session.state

theorem Agree.andThen {o p : Outcome σ α} {g h : Session σ → Outcome σ α} (hop : o.Agree p)
    (hgh : ∀ s t : Session σ, s.state = t.state → (g s).Agree (h t)) :
    (o.andThen g).Agree (p.andThen h) := by
  have hrest := hgh o.session p.session hop.state
  unfold Outcome.andThen
  rw [hop.panicked]
  split
  · exact hop
  · exact ⟨by simp [hop.results, hrest.results], hrest.panicked, hrest.state⟩

end Outcome

theorem run_cons (step : Step κ) (steps : List (Step κ)) (s : Session σ) :
    run f (step :: steps) s = (runStep f step s).andThen (run f steps) := by
  rw [run, Outcome.andThen]

theorem run_singleton (step : Step κ) (s : Session σ) : run f [step] s = runStep f step s := by
  rw [run_cons]
  obtain ⟨replies, panicked, session⟩ := runStep f step s
  cases panicked <;> simp [Outcome.andThen, run]

theorem run_append (xs ys : List (Step κ)) (s : Session σ) :
    run f (xs ++ ys) s = (run f xs s).andThen (run f ys) := by
  induction xs generalizing s with
  | nil => simp [run, Outcome.andThen]
  | cons x xs ih =>
    rw [List.cons_append, run_cons, run_cons, Outcome.andThen_assoc]
    congr 1
    funext t
    exact ih t

mutual

theorem runStep_unscoped (step : Step κ) (s t : Session σ) (h : s.state = t.state) :
    (runStep f step s).Agree (run f step.unscoped t) := by
  match step with
  | .call c =>
    rw [Step.unscoped, run_singleton, runStep, runStep, perform, perform, h]
    exact ⟨rfl, rfl, rfl⟩
  | .report | .reset | .panic =>
    rw [Step.unscoped, run_singleton]
    exact ⟨rfl, rfl, h⟩
  | .scope sink body =>
    obtain ⟨hresults, hpanicked, hstate⟩ := run_unscoped body (s.withSink (some sink)) t h
    rw [Step.unscoped]
    refine ⟨?_, hpanicked, hstate⟩
    simpa [runStep, resultsAll, Reply.results] using hresults
  | .attempt body =>
    obtain ⟨hresults, hpanicked, hstate⟩ := run_unscoped body s t h
    rw [Step.unscoped, run_singleton]
    refine ⟨?_, rfl, hstate⟩
    simp [runStep, resultsAll, Reply.results, hresults, hpanicked]

/-- Calls have the same results without the scopes around them, whatever sink is in force. -/
theorem run_unscoped (steps : List (Step κ)) (s t : Session σ) (h : s.state = t.state) :
    (run f steps s).Agree (run f (unscopedAll steps) t) := by
  match steps with
  | [] => exact ⟨rfl, rfl, h⟩
  | step :: steps =>
    rw [run_cons, unscopedAll, run_append]
    exact (runStep_unscoped step s t h).andThen (run_unscoped steps)

end

/-- A scope delivers to every sink just the events of the calls in it that have a scope of that sink
as the innermost one around them, and none to the counters. After it the sink before is in force
again, and the calls have had the results that they have without a sink. -/
theorem runStep_scope (sink : SinkId) (body : List (Step κ)) (s : Session σ) :
    let scope := runStep f (.scope sink body) s
    let entries := (course f (some sink) body s.state).entries
    let events := fun c state => (f c state).events
    (∀ other, scope.session.telemetry.received other =
        s.telemetry.received other ++ entries.flatMap (Entry.eventsFor events other)) ∧
      scope.session.telemetry.counters =
        (if entries.any Entry.isReset then .zero else s.telemetry.counters) ∧
      scope.session.telemetry.inForce = s.telemetry.inForce ∧
      scope.Agree (run f (unscopedAll body) (s.withSink none)) := by
  intro scope entries events
  have hsession : scope.session.telemetry = Entry.deliverAll events s.telemetry entries :=
    congrArg Session.telemetry (runStep_session f (.scope sink body) s).1
  rw [hsession]
  refine ⟨fun other => Entry.received_deliverAll other, ?_, Entry.inForce_deliverAll, ?_⟩
  · exact Entry.counters_deliverAll (course_inScope f body sink s.state)
  · exact runStep_unscoped f (.scope sink body) s (s.withSink none) rfl

/-- A panic leaves the inner scope, and the sink of the outer one gets the call after it. -/
example :
    let f (escapes : Nat) (_ : Unit) : Effect Unit Unit := ⟨(), (), [.patternCompiled escapes]⟩
    let steps := [.call 1, .attempt [.scope 8 [.call 2, .reset, .panic, .call 3]], .call 4]
    let telemetry := (runStep f (.scope 7 steps) ⟨(), {}⟩).session.telemetry
    telemetry.received 7 = [.patternCompiled 1, .patternCompiled 4] ∧
      telemetry.received 8 = [.patternCompiled 2] ∧ telemetry.inForce = none := by
  decide

end

end Session

end Criteria
