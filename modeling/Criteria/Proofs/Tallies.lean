import Mathlib.Algebra.GroupWithZero.Nat
import Criteria.Binary64
import Criteria.Proofs.Scoping

/-!
# Tallies of events

What a counter shows is the exact number of its events, or for escapes their exact sum, as long as the
counter can hold it, and its greatest value otherwise; and so it is for all rejections together
(`Counters.Shows`). Every event adds its share to every counter (`value_record`), and additions up to a
limit come to one addition up to that limit, also where the numbers that are added have been cut off
before. Since the exact numbers do not depend on the order of the events, neither do the counters.

In a session the events that count are those of the calls in no scope, from the last reset on
(`run_shows`).
-/

namespace Criteria

namespace Event

def isNegation : Event → Bool
  | negated _ => true
  | _ => false

def isCompilation : Event → Bool
  | patternCompiled _ => true
  | _ => false

def isRejection : Event → Bool
  | rejected _ => true
  | _ => false

def escapes : Event → Nat
  | patternCompiled n => n
  | _ => 0

end Event

inductive Counter where
  | built (shape : Shape)
  | negations
  | patternsCompiled
  | patternEscapes
  | rejected (reason : Rejection)

/-- What a counter without a limit would show after the events. -/
def Counter.exact : Counter → List Event → Nat
  | built shape, es => es.count (.built shape)
  | negations, es => es.countP Event.isNegation
  | patternsCompiled, es => es.countP Event.isCompilation
  | patternEscapes, es => (es.map Event.escapes).sum
  | rejected reason, es => es.count (.rejected reason)

namespace Counters

def value (c : Counters) : Counter → UInt64
  | .built .comparison => c.operations.comparisonsBuilt
  | .built .text => c.operations.textsBuilt
  | .built .composite => c.operations.compositesBuilt
  | .negations => c.operations.negations
  | .patternsCompiled => c.operations.patternsCompiled
  | .patternEscapes => c.operations.patternEscapes
  | .rejected .missingArgument => c.rejections.missingArgument
  | .rejected .sameWildcard => c.rejections.sameWildcard
  | .rejected .textOperator => c.rejections.textOperator
  | .rejected .setOperand => c.rejections.setOperand

/-- Whether counters show the exact numbers of the events, up to their greatest value. -/
structure Shows (c : Counters) (es : List Event) : Prop where
  each (k : Counter) : (c.value k).toNat = min (k.exact es) (2 ^ 64 - 1)
  total : c.rejections.total.toNat = min (es.countP Event.isRejection) (2 ^ 64 - 1)

end Counters

namespace Counter

section
variable {es fs : List Event}

theorem exact_nil (k : Counter) : k.exact [] = 0 := by
  cases k <;> rfl

theorem exact_append (k : Counter) (es fs : List Event) :
    k.exact (es ++ fs) = k.exact es + k.exact fs := by
  cases k with
  | built | rejected => exact List.count_append
  | negations | patternsCompiled => exact List.countP_append
  | patternEscapes => simp [exact]

theorem exact_perm (k : Counter) (h : es.Perm fs) : k.exact es = k.exact fs := by
  cases k with
  | built | rejected => exact h.count_eq _
  | negations | patternsCompiled => exact h.countP_eq _
  | patternEscapes => exact (h.map Event.escapes).sum_nat

end

end Counter

/-- Every rejection has one reason. -/
theorem countP_isRejection (es : List Event) :
    es.countP Event.isRejection = es.count (.rejected .missingArgument) +
      es.count (.rejected .sameWildcard) + es.count (.rejected .textOperator) +
      es.count (.rejected .setOperand) := by
  induction es with
  | nil => rfl
  | cons e es ih =>
    rw [List.countP_cons, List.count_cons, List.count_cons, List.count_cons, List.count_cons, ih]
    cases e with
    | built | negated | patternCompiled => rfl
    | rejected reason =>
      cases reason with
      | missingArgument | sameWildcard | textOperator | setOperand =>
        simp [Event.isRejection]
        omega

/-! ## Counters -/

theorem addCount_zero (c : UInt64) : addCount c 0 = c := by
  apply UInt64.toNat_inj.mp
  have hlt := c.toNat_lt
  rw [toNat_addCount]
  unfold countLimit UInt64.size
  omega

namespace Counters

section
variable {c d : Counters} {es fs : List Event}

theorem value_record (c : Counters) (e : Event) (k : Counter) :
    (c.record e).value k = addCount (c.value k) (k.exact [e]) := by
  have hnone (n : UInt64) : n = addCount n 0 := (addCount_zero n).symm
  cases e with
  | built shape =>
    cases k with
    | built other => cases shape <;> cases other <;> first | rfl | exact hnone _
    | negations | patternsCompiled | patternEscapes => cases shape <;> exact hnone _
    | rejected reason => cases shape <;> cases reason <;> exact hnone _
  | negated shape =>
    cases k with
    | built other => cases other <;> exact hnone _
    | negations => rfl
    | patternsCompiled | patternEscapes => exact hnone _
    | rejected reason => cases reason <;> exact hnone _
  | patternCompiled n =>
    cases k with
    | built other => cases other <;> exact hnone _
    | negations => exact hnone _
    | patternsCompiled | patternEscapes => rfl
    | rejected reason => cases reason <;> exact hnone _
  | rejected reason =>
    cases k with
    | built other => cases reason <;> cases other <;> exact hnone _
    | negations | patternsCompiled | patternEscapes => cases reason <;> exact hnone _
    | rejected other => cases reason <;> cases other <;> first | rfl | exact hnone _

theorem ext_value (h : ∀ k, c.value k = d.value k) : c = d := by
  obtain ⟨⟨_, _, _, _, _, _⟩, ⟨_, _, _, _⟩⟩ := c
  obtain ⟨⟨_, _, _, _, _, _⟩, ⟨_, _, _, _⟩⟩ := d
  simp only [mk.injEq, OperationCounts.mk.injEq, RejectionCounts.mk.injEq]
  exact ⟨⟨h (.built .comparison), h (.built .text), h (.built .composite), h .negations,
      h .patternsCompiled, h .patternEscapes⟩,
    h (.rejected .missingArgument), h (.rejected .sameWildcard), h (.rejected .textOperator),
    h (.rejected .setOperand)⟩

/-- Events add up in every counter as they would without a limit, and the limit applies once. -/
theorem toNat_value_foldl_record (c : Counters) (es : List Event) (k : Counter) :
    ((es.foldl record c).value k).toNat = min ((c.value k).toNat + k.exact es) countLimit := by
  induction es generalizing c with
  | nil =>
    have hlt := (c.value k).toNat_lt
    rw [List.foldl_nil, k.exact_nil]
    unfold countLimit UInt64.size
    omega
  | cons e es ih =>
    have hshare : k.exact (e :: es) = k.exact [e] + k.exact es := k.exact_append [e] es
    rw [List.foldl_cons, ih, value_record, toNat_addCount, hshare]
    omega

theorem toNat_value_zero (k : Counter) : (zero.value k).toNat = 0 := by
  cases k with
  | built shape => cases shape <;> rfl
  | negations | patternsCompiled | patternEscapes => rfl
  | rejected reason => cases reason <;> rfl

/-- A sum of numbers that have been cut off is cut off just where their sum would be. -/
theorem shows_foldl_record (es : List Event) : (es.foldl record zero).Shows es := by
  have heach (k : Counter) :
      ((es.foldl record zero).value k).toNat = min (k.exact es) countLimit := by
    rw [toNat_value_foldl_record, toNat_value_zero, Nat.zero_add]
  refine ⟨heach, ?_⟩
  generalize es.foldl record zero = c at heach
  have hmissing : c.rejections.missingArgument.toNat =
      min (es.count (.rejected .missingArgument)) countLimit := heach (.rejected .missingArgument)
  have hsame : c.rejections.sameWildcard.toNat =
      min (es.count (.rejected .sameWildcard)) countLimit := heach (.rejected .sameWildcard)
  have htext : c.rejections.textOperator.toNat =
      min (es.count (.rejected .textOperator)) countLimit := heach (.rejected .textOperator)
  have hset : c.rejections.setOperand.toNat =
      min (es.count (.rejected .setOperand)) countLimit := heach (.rejected .setOperand)
  show _ = min _ countLimit
  rw [RejectionCounts.total, toNat_addCount, toNat_addCount, toNat_addCount, hmissing, hsame, htext,
    hset, countP_isRejection]
  omega

/-- Only one state of the counters shows the events, in whatever order they come. -/
theorem Shows.eq_of_perm (hc : c.Shows es) (hd : d.Shows fs) (h : es.Perm fs) : c = d := by
  refine ext_value fun k => ?_
  apply UInt64.toNat_inj.mp
  rw [hc.each, hd.each, k.exact_perm h]

end

end Counters

/-! ## Sessions -/

namespace Session

variable {κ σ α : Type}

namespace Entry

/-- What counts after an entry, of the events that counted before and its own: those of a call in no
scope are added, and a reset leaves none. -/
def counted (events : κ → σ → List Event) (es : List Event) : Entry κ σ → List Event
  | call none c state => es ++ events c state
  | call (some _) _ _ => es
  | reset => []

/-- The events for the counters from the last reset on. -/
def sinceReset (events : κ → σ → List Event) (entries : List (Entry κ σ)) : List Event :=
  entries.foldl (counted events) []

theorem counters_deliver (events : κ → σ → List Event) (t : Telemetry) (entry : Entry κ σ)
    {es : List Event} (h : t.counters = es.foldl Counters.record .zero) :
    (deliver events t entry).counters = (entry.counted events es).foldl Counters.record .zero := by
  cases entry with
  | call sink c state =>
    cases sink with
    | none => rw [deliver, Telemetry.deliver, counted, List.foldl_append, h]
    | some sink => exact h
  | reset => rfl

/-- The counters have recorded just what counts. -/
theorem counters_deliverAll_counted (events : κ → σ → List Event) (t : Telemetry)
    (entries : List (Entry κ σ)) {es : List Event}
    (h : t.counters = es.foldl Counters.record .zero) :
    (deliverAll events t entries).counters =
      (entries.foldl (counted events) es).foldl Counters.record .zero := by
  induction entries generalizing t es with
  | nil => exact h
  | cons entry entries ih => exact ih _ (counters_deliver events t entry h)

end Entry

/-- The report at the end of steps shows the exact numbers of the events that the counters have
received since they were last zero, each up to the greatest value of a counter, and so for all
rejections together. In any other order the same events would have given the same report. -/
theorem run_shows (f : κ → σ → Effect σ α) (steps : List (Step κ)) (s : Session σ)
    (h : s.telemetry.counters = .zero) :
    let events := fun c state => (f c state).events
    let es := Entry.sinceReset events (course f s.telemetry.inForce steps s.state).entries
    let last := (run f steps s).session
    (runStep f .report last).replies = [.counters last.telemetry.counters] ∧
      last.telemetry.counters.Shows es ∧
      ∀ fs : List Event, fs.Perm es → fs.foldl Counters.record .zero = last.telemetry.counters := by
  intro events es last
  have hcounters : last.telemetry.counters = es.foldl Counters.record .zero := by
    show (run f steps s).session.telemetry.counters = _
    rw [(run_session f steps s).1, Course.after]
    exact Entry.counters_deliverAll_counted events s.telemetry _ h
  rw [hcounters]
  refine ⟨?_, Counters.shows_foldl_record es, ?_⟩
  · rw [← hcounters]
    rfl
  · intro fs hperm
    exact (Counters.shows_foldl_record fs).eq_of_perm (Counters.shows_foldl_record es) hperm

/-- Two patterns whose escapes together exceed the limit, after the reset and in no scope. -/
theorem run_shows_saturated :
    let compile : Nat → Unit → Effect Unit Unit := fun n _ => ⟨(), (), [.patternCompiled n]⟩
    let steps : List (Step Nat) :=
      [.call 3, .reset, .call (2 ^ 64 - 2), .scope 7 [.call 9], .call 5]
    let last := (run compile steps ⟨(), {}⟩).session
    last.telemetry.counters.operations.patternEscapes.toNat = 2 ^ 64 - 1 ∧
      last.telemetry.counters.operations.patternsCompiled.toNat = 2 :=
  let shows := (run_shows (fun n _ => ⟨(), (), [.patternCompiled n]⟩)
    [.call 3, .reset, .call (2 ^ 64 - 2), .scope 7 [.call 9], .call 5] ⟨(), {}⟩ rfl).2.1
  ⟨shows.each .patternEscapes, shows.each .patternsCompiled⟩

end Session

end Criteria
