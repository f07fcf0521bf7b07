import Criteria.Proofs.Recording
import Criteria.Proofs.Scoping
import Criteria.Recipe
import Criteria.Wire.Counters
import Criteria.Wire.Wildcards

/-!
# The account of events

What a call records follows from what is called and how it ends (`Operation.account`): a pattern
that it compiles, once its wildcards differ; the negation of a root; then the condition that a
factory returns, by its root, or the refusal, if it fails with one. Nothing else is recorded, and
nothing twice, whatever is checked or negated on the way (`Operation.events_run`). A recipe records
what its calls record, and a session delivers just that (`run_account`). Calls that only look at
values, such as displaying or comparing them, record nothing and are left out.
-/

namespace Criteria

open Condition (announce gather matching)
open Recipe (Call Failure)

inductive Product where
  | condition (c : Condition)
  | pattern (s : String)
  | wildcards (w : Wildcards)
  | operator (op : Operator)
  | connective (k : Connective)
  | operand (a : Operand)
  | set (es : List Operand)
  | float (x : Float64)
  | counters (c : Counters)

inductive Form where
  | condition
  | comparison
  | text
  | composite
  | operator
  | connective
  | operand
  | set
  | float
  | wildcards
  | report

def Form.decode : Form → String → Except DecodeError Product
  | condition, s => .condition <$> Condition.decode s
  | comparison, s => (fun c => .condition (.comparison c)) <$> Comparison.decode s
  | text, s => (fun t => .condition (.text t)) <$> TextTest.decode s
  | composite, s => .condition <$> Condition.decodeComposite s
  | operator, s => .operator <$> Operator.decode s
  | connective, s => .connective <$> Connective.decode s
  | operand, s => .operand <$> Operand.decode s
  | set, s => .set <$> OperandSet.decode s
  | float, s => .float <$> Float64.decode s
  | wildcards, s => .wildcards <$> Wildcards.decode s
  | report, s => .counters <$> Counters.decodeReport s

/-- A call with all that it is given. -/
inductive Operation where
  | call (c : Call)
  | gather (k : Connective) (parts : List Condition)
  | composite (k : Connective) (parts : List Condition)
  | and (a b : Condition)
  | or (a b : Condition)
  | not (c : Condition)
  | negate (c : Condition)
  | normalize (c : Condition)
  | compile (single multi : Char) (before : Bool) (literal : String) (after : Bool)
  | escape (w : Wildcards) (before : Bool) (literal : String) (after : Bool)
  | wildcards (single multi : Char)
  | decode (form : Form) (text : String)

/-- A construction as a call that makes something of what is built. -/
def Recorded.making {α : Type} (r : Recorded BuildError α) (f : α → Product) :
    Recorded Failure Product := do
  return f (← r.mapError .refused)

def Operation.run : Operation → Recorded Failure Product
  | call c => c.run.making .condition
  | gather k parts => (Condition.gather k parts).making .condition
  | composite k parts => return .condition (.composite k parts)
  | and a b => return .condition (a.and b)
  | or a b => return .condition (a.or b)
  | not c => c.not.making .condition
  | negate c => return .condition c.negate
  | normalize c => return .condition c.normalize
  | compile single multi before literal after =>
    (compileLike single multi before literal after).making .pattern
  | escape w before literal after => (w.compile before literal after).making .pattern
  | wildcards single multi => (Recorded.ofBuild (Wildcards.build single multi)).making .wildcards
  | decode form text => (Recorded.ofDecode (form.decode text)).mapError .undecodable

/-! ## The account of a call -/

/-- A pattern is compiled if its wildcards differ, and then counts what it escapes. -/
def compilation (single multi : Char) (literal : String) : List Event :=
  if single = multi then []
  else [.patternCompiled
    (literal.toList.countP fun c => c = single ∨ c = multi ∨ c = escapeChar)]

def Recipe.Call.compilation : Call → List Event
  | likeWith s single multi _ | notLikeWith s single multi _ =>
    Criteria.compilation single multi s
  | startsWith s _ | endsWith s _ | contains s _ | notStartsWith s _ | notEndsWith s _
  | notContains s _ => Criteria.compilation singleWildcard multiWildcard s
  | _ => []

/-- The event by which a condition is announced or its negation is recorded, from what is at its
root. -/
def Condition.rootEvent (event : Shape → Event) : Condition → Event
  | atom (.comparison _) => event .comparison
  | atom (.text _) => event .text
  | composite _ _ => event .composite

/-- The event that a refusal is recorded by, whatever it is about. -/
def BuildError.refusal : BuildError → Event
  | missingArgument _ => .rejected .missingArgument
  | sameWildcard _ => .rejected .sameWildcard
  | textOperator _ => .rejected .textOperator
  | setOperand _ => .rejected .setOperand

/-- A refusal is recorded, whether of what is built or of what is decoded. -/
def Recipe.Failure.refusals : Failure → List Event
  | refused e | undecodable (.rejected e) => [e.refusal]
  | undecodable .malformed | unbound _ | noPart _ => []

namespace Operation

def compilation : Operation → List Event
  | call c => c.compilation
  | compile single multi _ literal _ => Criteria.compilation single multi literal
  | escape w _ literal _ => Criteria.compilation w.single w.multi literal
  | _ => []

def negation : Operation → List Event
  | not c => [c.rootEvent .negated]
  | _ => []

/-- What a factory makes is announced, and nothing else is. -/
def announcement : Operation → Product → List Event
  | call c, .condition made => if c.IsFactory then [made.rootEvent .built] else []
  | gather _ _, .condition made => [made.rootEvent .built]
  | _, _ => []

/-- What is recorded of the way a call ends. -/
def ending (op : Operation) : List Event :=
  match op.run.outcome with
  | .ok made => op.announcement made
  | .error e => e.refusals

/-- What a call records. -/
def account (op : Operation) : List Event :=
  op.compilation ++ (op.negation ++ op.ending)

end Operation

theorem Condition.event_shape (event : Shape → Event) (c : Condition) :
    event c.shape = c.rootEvent event := by
  cases c with
  | atom a => cases a <;> rfl
  | composite k cs => rfl

theorem BuildError.rejected_rejection (e : BuildError) : .rejected e.rejection = e.refusal := by
  cases e <;> rfl

namespace Recorded

variable {α : Type}

@[simp] theorem events_making (r : Recorded BuildError α) (f : α → Product) :
    (r.making f).events = r.events := by
  simp [making, events_bind]

/-- What is recorded of a construction apart from patterns: its refusal, or what it is announced
by. -/
def settlement (announcement : α → List Event) : Except BuildError α → List Event
  | .ok a => announcement a
  | .error e => [e.refusal]

theorem events_ofBuild (x : Except BuildError α) :
    (ofBuild x).events = settlement (fun _ => []) x := by
  cases x with
  | ok a => rfl
  | error e => exact congrArg ([·]) e.rejected_rejection

end Recorded

open Recorded (settlement)

namespace Wildcards

theorem events_compile (w : Wildcards) (before : Bool) (literal : String) (after : Bool) :
    (w.compile before literal after).events = compilation w.single w.multi literal := by
  rw [compilation, if_neg w.distinct, compile, escapes]
  simp only [← isSome_escaped?_iff, Bool.decide_eq_true]

end Wildcards

theorem events_compileLike (single multi : Char) (before : Bool) (literal : String) (after : Bool) :
    (compileLike single multi before literal after).events =
      compilation single multi literal ++
        settlement (fun _ => []) (compileLike single multi before literal after).outcome := by
  by_cases h : single = multi
  · rw [compileLike, Wildcards.build, dif_pos h, compilation, if_pos h]
    rfl
  · have hw : Wildcards.build single multi = .ok ⟨single, multi, h⟩ := dif_neg h
    rw [compileLike, hw]
    refine (Wildcards.events_compile ⟨single, multi, h⟩ before literal after).trans ?_
    exact (List.append_nil _).symm

/-- A factory settles with the root of what it returns. -/
theorem events_announce (x : Except BuildError Condition) :
    (announce x).events = settlement (fun c => [c.rootEvent .built]) (announce x).outcome := by
  cases x with
  | ok c => exact congrArg ([·]) (c.event_shape .built)
  | error e => exact congrArg ([·]) e.rejected_rejection

theorem events_matching (operator : Operator) (single multi : Char) (before : Bool)
    (literal : String) (after : Bool) (field : String) :
    let r := matching operator single multi before literal after field
    r.events = compilation single multi literal ++
      settlement (fun c => [c.rootEvent .built]) r.outcome := by
  intro r
  have hr : r = compileLike single multi before literal after >>= fun pattern =>
      announce (Condition.text <$> TextTest.build field operator pattern true) := rfl
  rw [hr, Recorded.events_bind, Recorded.outcome_bind, events_compileLike, List.append_assoc,
    Recorded.next]
  congr 1
  cases (compileLike single multi before literal after).outcome with
  | ok pattern => exact events_announce _
  | error e => rfl

theorem Recipe.Call.events_run (c : Call) :
    c.run.events = c.compilation ++
      settlement (fun made => if c.IsFactory then [made.rootEvent .built] else [])
        c.run.outcome := by
  cases c with
  | eq | ne | gt | ge | lt | le | between | isIn | notIn | like | notLike =>
    exact events_announce _
  | likeWith | notLikeWith | startsWith | endsWith | contains | notStartsWith | notEndsWith
  | notContains => exact events_matching ..
  | comparison | text =>
    rw [run, Recorded.events_ofBuild, Recorded.outcome_ofBuild]
    rfl

namespace Operation

theorem ending_of_making {α : Type} {op : Operation} {r : Recorded BuildError α} {f : α → Product}
    (h : op.run = r.making f) :
    op.ending = settlement (fun a => op.announcement (f a)) r.outcome := by
  rw [ending, h]
  obtain ⟨outcome, events⟩ := r
  cases outcome <;> rfl

/-- The account of a call is what it records. -/
theorem events_run (op : Operation) : op.run.events = op.account := by
  cases op with
  | call c =>
    rw [account, ending_of_making (r := c.run) rfl, run, Recorded.events_making, c.events_run]
    rfl
  | gather | composite | and | or | negate | normalize => rfl
  | not c => exact congrArg ([·]) (c.event_shape .negated)
  | compile single multi before literal after =>
    rw [account, ending_of_making (r := compileLike single multi before literal after) rfl, run,
      Recorded.events_making, events_compileLike]
    rfl
  | escape w before literal after =>
    rw [run, Recorded.events_making, w.events_compile]
    exact (List.append_nil _).symm
  | wildcards single multi =>
    rw [account, ending_of_making (r := .ofBuild (Wildcards.build single multi)) rfl, run,
      Recorded.events_making, Recorded.events_ofBuild, Recorded.outcome_ofBuild]
    rfl
  | decode form text =>
    rw [account, ending, run]
    cases form.decode text with
    | ok made => rfl
    | error e =>
      cases e with
      | malformed => rfl
      | rejected e => exact congrArg ([·]) e.rejected_rejection

example : (call (.likeWith "a_b%\\" '_' '%' " ")).account =
    [.patternCompiled 3, .rejected .missingArgument] := by decide

end Operation

/-! ## Recipes -/

namespace Recipe

/-- The calls of the layers around a condition. -/
def layered (kinds : List Connective) (beside : List Condition) :
    List Nat → Condition → List Operation
  | [], _ => []
  | i :: is, c =>
    let k := kinds[i % kinds.length]?.getD .all
    .gather k (c :: beside) :: layered kinds beside is (.composite k (c :: beside))

mutual

/-- The calls that a recipe comes to, in their order: that of a construct itself only after all its
parts have given a condition. -/
def operations (bindings : Bindings) : Recipe → List Operation
  | call c => [.call c]
  | decode text => [.decode .condition text]
  | bound _ => []
  | gather k rs =>
    operationsOf bindings rs ++ (runAll bindings rs).next fun cs => [.gather k cs]
  | composite k rs =>
    operationsOf bindings rs ++ (runAll bindings rs).next fun cs => [.composite k cs]
  | and a b =>
    operations bindings a ++ (run bindings a).next fun c =>
      operations bindings b ++ (run bindings b).next fun d => [.and c d]
  | or a b =>
    operations bindings a ++ (run bindings a).next fun c =>
      operations bindings b ++ (run bindings b).next fun d => [.or c d]
  | not r => operations bindings r ++ (run bindings r).next fun c => [.not c]
  | negate r => operations bindings r ++ (run bindings r).next fun c => [.negate c]
  | normalize r => operations bindings r ++ (run bindings r).next fun c => [.normalize c]
  | part r _ => operations bindings r
  | copies k n r =>
    operations bindings r ++ (run bindings r).next fun c => [.composite k (.replicate n c)]
  | layers kinds n r rs =>
    operations bindings r ++ (run bindings r).next fun c =>
      operationsOf bindings rs ++ (runAll bindings rs).next fun cs =>
        layered kinds cs (List.range n) c

def operationsOf (bindings : Bindings) : List Recipe → List Operation
  | [] => []
  | r :: rs => operations bindings r ++ (run bindings r).next fun _ => operationsOf bindings rs

end

theorem events_wrap (kinds : List Connective) (n : Nat) (c : Condition) (beside : List Condition) :
    (wrap kinds n c beside).events =
      (layered kinds beside (List.range n) c).flatMap Operation.account := by
  unfold wrap
  generalize List.range n = is
  induction is generalizing c with
  | nil => rfl
  | cons i is ih =>
    rw [List.foldlM_cons, Recorded.events_bind, layered, List.flatMap_cons]
    exact congrArg (_ ++ ·) (ih _)

section
variable (bindings : Bindings)

mutual

/-- A recipe records what its calls record. -/
theorem events_run (r : Recipe) :
    (r.run bindings).events = (r.operations bindings).flatMap Operation.account := by
  match r with
  | .call c =>
    rw [operations, List.flatMap_singleton, ← Operation.events_run]
    simp [run, Operation.run]
  | .decode text =>
    rw [operations, List.flatMap_singleton, ← Operation.events_run, run, Operation.run, Form.decode]
    rcases Condition.decode text with (_ | e) | c <;> rfl
  | .bound name =>
    rw [run]
    split <;> rfl
  | .gather k rs =>
    rw [run, operations, Recorded.events_bind, List.flatMap_append, Recorded.flatMap_next,
      events_runAll rs]
    rfl
  | .composite k rs =>
    rw [run, operations, Recorded.events_bind, List.flatMap_append, Recorded.flatMap_next,
      events_runAll rs]
    rfl
  | .and a b | .or a b =>
    simp only [run, operations, Recorded.events_bind, List.flatMap_append, Recorded.flatMap_next,
      events_run a, events_run b]
    rfl
  | .negate r | .normalize r | .copies k n r =>
    rw [run, operations, Recorded.events_bind, List.flatMap_append, Recorded.flatMap_next,
      events_run r]
    rfl
  | .not r =>
    rw [run, operations, Recorded.events_bind, List.flatMap_append, Recorded.flatMap_next,
      events_run r]
    simp only [List.flatMap_singleton, ← Operation.events_run]
    rfl
  | .part r index =>
    rw [run, operations, Recorded.events_bind, events_run r, Recorded.next_eq_nil, List.append_nil]
    intro c
    split <;> rfl
  | .layers kinds n r rs =>
    simp only [run, operations, Recorded.events_bind, List.flatMap_append, Recorded.flatMap_next,
      events_run r, events_runAll rs, events_wrap]

theorem events_runAll (rs : List Recipe) :
    (runAll bindings rs).events = (operationsOf bindings rs).flatMap Operation.account := by
  match rs with
  | [] => rfl
  | r :: rs =>
    simp only [runAll, operationsOf, Recorded.events_bind, List.flatMap_append,
      Recorded.flatMap_next, Recorded.events_pure, Recorded.next_nil, List.append_nil,
      events_run r, events_runAll rs]

end

end

end Recipe

/-! ## Sessions -/

/-- What is asked for in a session: a condition that a recipe makes and a name is bound to, or a
call by itself. -/
inductive Request where
  | make (name : String) (r : Recipe)
  | perform (op : Operation)

namespace Request

def effect : Request → Bindings → Session.Effect Bindings (Except Failure Product)
  | make name r, bindings =>
    let made := r.run bindings
    ⟨made.outcome.toOption.toList.map (name, ·) ++ bindings, .condition <$> made.outcome, made.events⟩
  | perform op, bindings => ⟨bindings, op.run.outcome, op.run.events⟩

def operations : Request → Bindings → List Operation
  | make _ r, bindings => r.operations bindings
  | perform op, _ => [op]

def account (request : Request) (bindings : Bindings) : List Event :=
  (request.operations bindings).flatMap Operation.account

theorem events_effect (request : Request) (bindings : Bindings) :
    (request.effect bindings).events = request.account bindings := by
  cases request with
  | make name r => exact r.events_run bindings
  | perform op =>
    rw [account, operations, List.flatMap_singleton]
    exact op.events_run

end Request

/-- A session delivers what its calls account for, in their order, and nothing else. -/
theorem Session.run_account (steps : List (Step Request)) (s : Session Bindings) :
    (run Request.effect steps s).session.telemetry =
      Entry.deliverAll Request.account s.telemetry
        (course Request.effect s.telemetry.inForce steps s.state).entries := by
  have hevents : (fun request bindings => (Request.effect request bindings).events) =
      Request.account := by
    funext request bindings
    exact request.events_effect bindings
  rw [(run_session Request.effect steps s).1, Course.after, hevents]

end Criteria
