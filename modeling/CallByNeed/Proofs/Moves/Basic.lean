import CallByNeed.Proofs.Runs.Equations
import Mathlib.Logic.Function.Iterate

/-! # Evaluations in single moves

An evaluation as a sequence of moments. `Engine.move` makes one move at a time, with what is left to
do written down as a `Rest`: the loops that a resolution is nested in, innermost first. There are no
rounds to run out of here, so nothing but the two checks of the limits ends a loop early, and every
moment between the start and the end can be looked at.

A stop is handed from each loop to the one around it, one move for each.
-/

namespace CallByNeed
set_option autoImplicit false

variable {ν σ α β : Type}

/-- Whom arguments are resolved for. -/
inductive Callee (ν : Type) where
  | native (method : Native ν)
  | closure (scope : Scope ν)

/-- What a part of an evaluation comes to. -/
inductive Part where
  | head | name | outcome | closure | call

/-- What is left of an evaluation after a part of it. -/
inductive Rest (ν : Type) : Part → Type where
  /-- Nothing: the head is the result. -/
  | resolved : Rest ν .head
  /-- Closures are run until the head is a result. -/
  | forced : Rest ν .head
  /-- As before, for a program. -/
  | interpreted : Rest ν .head
  /-- The head is applied to arguments as they are. -/
  | applied (arguments : List (Expr ν)) (scope : Scope ν) : Rest ν .head
  /-- The head is the operator of an application. -/
  | operator (arguments : List (Expr ν)) (scope : Scope ν) (rest : Rest ν .outcome) : Rest ν .head
  /-- The head is an argument, between those done and those to come. -/
  | argument (callee : Callee ν) (done more : List (Expr ν)) (scope : Scope ν)
      (rest : Rest ν .outcome) : Rest ν .head
  /-- The name is that of a binding, and there may be more bindings to come. -/
  | binding (bound : Expr ν) (more : List (Lambda.Binding ν)) (table : Table (Expr ν))
      (body : Expr ν) (scope : Scope ν) (rest : Rest ν .closure) : Rest ν .name
  /-- The loop of a resolution, with its pending identifiers. -/
  | toHead (pending : List (Scope ν × String)) (rest : Rest ν .head) : Rest ν .outcome
  /-- The loop that reduces a name position. -/
  | toName (rest : Rest ν .name) : Rest ν .outcome
  /-- The closure is the head of a lambda. -/
  | lambda (rest : Rest ν .outcome) : Rest ν .closure
  /-- Nothing: the closure is the result. -/
  | closed : Rest ν .closure
  /-- The call is a step of an application. -/
  | step (rest : Rest ν .outcome) : Rest ν .call
  /-- Nothing: the call is the result. -/
  | called : Rest ν .call

/-- How many resolutions of operators, arguments and binding names enclose a part. -/
def Rest.depth : {part : Part} → Rest ν part → Nat
  | _, .resolved | _, .forced | _, .interpreted | _, .applied _ _ => 0
  | _, .operator _ _ rest | _, .argument _ _ _ _ rest => rest.depth + 1
  | _, .binding _ _ _ _ _ rest => rest.depth + 1
  | _, .toHead _ rest => rest.depth
  | _, .toName rest => rest.depth
  | _, .lambda rest => rest.depth
  | _, .closed => 0
  | _, .step rest => rest.depth
  | _, .called => 0

/-- What an evaluation does next. -/
inductive Control (ν : Type) where
  /-- A resolution begins, unless it lies too deep. -/
  | enter (expr : Expr ν) (scope : Scope ν) (rest : Rest ν .head)
  /-- The reduction of a name position begins, unless it lies too deep. -/
  | enterName (position : Expr ν) (scope : Scope ν) (rest : Rest ν .name)
  /-- A name position is a name already, or takes a step. -/
  | position (position : Expr ν) (scope : Scope ν) (rest : Rest ν .name)
  /-- A step is counted. -/
  | count (expr : Expr ν) (scope : Scope ν) (rest : Rest ν .outcome)
  /-- A counted step is reported. -/
  | report (expr : Expr ν) (scope : Scope ν) (rest : Rest ν .outcome)
  /-- A counted step is taken. -/
  | reduce (expr : Expr ν) (scope : Scope ν) (rest : Rest ν .outcome)
  | outcome (outcome : Outcome ν) (rest : Rest ν .outcome)
  | head (head : Head ν) (rest : Rest ν .head)
  | name (name : String) (rest : Rest ν .name)
  /-- The items of a lambda are to be closed. -/
  | close (items : List (Item ν)) (scope : Scope ν) (rest : Rest ν .closure)
  /-- Bindings are to be entered into a table, and the table to be closed over. -/
  | bind (bindings : List (Lambda.Binding ν)) (table : Table (Expr ν)) (body : Expr ν)
      (scope : Scope ν) (rest : Rest ν .closure)
  | closure (closure : Scope ν) (rest : Rest ν .closure)
  /-- Arguments are to be resolved after those done. -/
  | arguments (callee : Callee ν) (done more : List (Expr ν)) (scope : Scope ν)
      (rest : Rest ν .outcome)
  /-- The callee gets its arguments. -/
  | hand (callee : Callee ν) (arguments : List (Expr ν)) (scope : Scope ν) (rest : Rest ν .call)
  /-- A stop leaves a part. -/
  | raise {part : Part} (stop : Stop) (rest : Rest ν part)
  | ended (outcome : Except Stop (Expr ν))

/-- What an evaluation does next, and on which machine. -/
structure Moment (ν σ : Type) where
  control : Control ν
  machine : Machine ν σ

/-- The moment after a run. -/
def Moment.afterRun {part : Part} (run : Run ν σ α) (next : α → Control ν) (rest : Rest ν part)
    (machine : Machine ν σ) : Moment ν σ :=
  match run machine with
  | (.ok result, after) => ⟨next result, after⟩
  | (.error stop, after) => ⟨.raise stop rest, after⟩

theorem Moment.afterRun_ok {part : Part} {run : Run ν σ α} {next : α → Control ν}
    {rest : Rest ν part} {machine after : Machine ν σ} {result : α}
    (h : run machine = (.ok result, after)) :
    afterRun run next rest machine = ⟨next result, after⟩ := by
  rw [afterRun, h]

theorem Moment.afterRun_error {part : Part} {run : Run ν σ α} {next : α → Control ν}
    {rest : Rest ν part} {machine after : Machine ν σ} {stop : Stop}
    (h : run machine = (.error stop, after)) :
    afterRun run next rest machine = ⟨.raise stop rest, after⟩ := by
  rw [afterRun, h]

/-! ## Moves -/

section Moves

/-- A program's evaluation ends: the end is an event, and a native method left over is wrapped. -/
def Moment.finished (result : Terminal ν) (machine : Machine ν σ) : Moment ν σ :=
  let world := machine.world.emit (.finished machine.steps)
  match result with
  | .value value => ⟨.ended (.ok (.value value)), machine.steps, world⟩
  | .native method =>
      ⟨.ended (.ok (.value (world.buildValue (.native method)).1)), machine.steps,
        (world.buildValue (.native method)).2⟩

/-- A head applied to arguments as they are. -/
def Control.applying (operator : Head ν) (arguments : List (Expr ν)) (scope : Scope ν) :
    Control ν :=
  match operator with
  | .terminal (.value it) => .ended (.ok (.value it))
  | .terminal (.native method) => .hand (.native method) arguments scope .called
  | .closure frame => .hand (.closure frame) arguments scope .called

/-- An operator is applied to arguments, unless there is a failure among them. -/
def Moment.ofOperator (head : Head ν) (arguments : List (Expr ν)) (scope : Scope ν)
    (machine : Machine ν σ) : Moment ν σ :=
  match arguments.findSome? Expr.failure? with
  | some failure => ⟨.raise (.failed failure) Rest.called, machine⟩
  | none => ⟨.applying head arguments scope, machine⟩

/-- What follows a head. -/
def Moment.ofHead (head : Head ν) : Rest ν .head → Machine ν σ → Moment ν σ
  | .resolved, machine => ⟨.ended (.ok head.toExpr), machine⟩
  | .forced, machine =>
      match head with
      | .terminal result => ⟨.ended (.ok result.toExpr), machine⟩
      | .closure closure =>
          .afterRun (Run.emit (.forcing closure)) (fun _ => .enter closure.body closure .forced)
            Rest.forced machine
  | .interpreted, machine =>
      match head with
      | .terminal result => finished result machine
      | .closure closure =>
          .afterRun (Run.emit (.forcing closure)) (fun _ => .enter closure.body closure .interpreted)
            Rest.interpreted machine
  | .applied arguments scope, machine => ofOperator head arguments scope machine
  | .operator arguments scope rest, machine =>
      match head with
      | .terminal (.value value) =>
          .afterRun (Run.emit (.argumentsIgnored value))
            (fun _ => .outcome (.finished (.terminal (.value value))) rest) rest machine
      | .terminal (.native method) => ⟨.arguments (.native method) [] arguments scope rest, machine⟩
      | .closure closure => ⟨.arguments (.closure closure) [] arguments scope rest, machine⟩
  | .argument callee done more scope rest, machine =>
      ⟨.arguments callee (done ++ [head.toExpr]) more scope rest, machine⟩

/-- What follows the outcome of a step. -/
def Moment.ofOutcome (outcome : Outcome ν) : Rest ν .outcome → Machine ν σ → Moment ν σ
  | .toHead pending rest, machine =>
      match outcome with
      | .finished head => .afterRun (Run.record head pending) (fun _ => .head head rest) rest machine
      | .further next inner => ⟨.count next inner (.toHead pending rest), machine⟩
      | .binding name bound owner =>
          ⟨.count bound owner (.toHead ((owner, name) :: pending) rest), machine⟩
  | .toName rest, machine =>
      match outcome with
      | .finished head =>
          match head.name? with
          | some name => ⟨.name name rest, machine⟩
          | none => ⟨.raise (.failed (.invalidBindingName head.toExpr.display)) rest, machine⟩
      | .further next inner => ⟨.position next inner rest, machine⟩
      | .binding _ bound owner => ⟨.position bound owner rest, machine⟩

/-- What a counted step does first. -/
def Moment.ofStep (expr : Expr ν) (scope : Scope ν) (rest : Rest ν .outcome)
    (machine : Machine ν σ) : Moment ν σ :=
  match expr with
  | .value value => ⟨.outcome (.finished (.terminal (.value value))) rest, machine⟩
  | .native method => ⟨.outcome (.finished (.terminal (.native method))) rest, machine⟩
  | .failure failure => ⟨.raise (.failed failure) rest, machine⟩
  | .identifier name =>
      .afterRun (Run.stepIdentifier name scope) (fun outcome => .outcome outcome rest) rest machine
  | .lambda items => ⟨.close items scope (.lambda rest), machine⟩
  | .scope inner => ⟨.outcome inner.enter rest, machine⟩
  | .application operator arguments =>
      ⟨.enter operator scope (.operator arguments scope rest), machine⟩

/-- What follows the result of a native method called in a scope. -/
def Rest.takeResult (result : Expr ν) (scope : Scope ν) : Rest ν .call → Control ν
  | .step rest => .outcome (.further result scope) rest
  | .called => .ended (.ok result)

/-- What follows a new call frame. -/
def Rest.takeFrame (frame : Scope ν) : Rest ν .call → Control ν
  | .step rest => .outcome (.further frame.body frame) rest
  | .called => .ended (.ok (.scope frame))

/-- What a stop leaves next. Nothing but the end of a program's evaluation looks at it. -/
def Moment.ofStop (stop : Stop) : {part : Part} → Rest ν part → Machine ν σ → Moment ν σ
  | _, .resolved, machine | _, .forced, machine | _, .closed, machine | _, .called, machine =>
      ⟨.ended (.error stop), machine⟩
  | _, .applied _ _, machine => ⟨.raise stop Rest.called, machine⟩
  | _, .interpreted, ⟨steps, world⟩ =>
      ⟨.ended (.error stop), steps, world.emit (.finished steps)⟩
  | _, .operator _ _ rest, machine | _, .argument _ _ _ _ rest, machine => ⟨.raise stop rest, machine⟩
  | _, .binding _ _ _ _ _ rest, machine => ⟨.raise stop rest, machine⟩
  | _, .toHead _ rest, machine => ⟨.raise stop rest, machine⟩
  | _, .toName rest, machine => ⟨.raise stop rest, machine⟩
  | _, .lambda rest, machine => ⟨.raise stop rest, machine⟩
  | _, .step rest, machine => ⟨.raise stop rest, machine⟩

namespace Engine

variable (engine : Engine ν σ)

/-- Stops what lies deeper than the limits allow. -/
def permit (depth : Nat) : Run ν σ Unit :=
  if engine.limits.maxDepth < depth then throw (.outOfDepth engine.limits.maxDepth) else pure ()

/-- One move of an evaluation. An evaluation that has ended moves no further. -/
def move : Moment ν σ → Moment ν σ
  | ⟨.enter expr scope rest, machine⟩ =>
      .afterRun (engine.permit rest.depth) (fun _ => .count expr scope (.toHead [] rest)) rest machine
  | ⟨.enterName position scope rest, machine⟩ =>
      .afterRun (engine.permit rest.depth) (fun _ => .position position scope rest) rest machine
  | ⟨.position position scope rest, machine⟩ =>
      match position.identifier? with
      | some name => .afterRun (ownName name) (fun name => .name name rest) rest machine
      | none => ⟨.count position scope (.toName rest), machine⟩
  | ⟨.count expr scope rest, machine⟩ =>
      .afterRun (Run.tick engine.limits) (fun _ => .report expr scope rest) rest machine
  | ⟨.report expr scope rest, machine⟩ =>
      .afterRun (Run.emit (.resolving expr)) (fun _ => .reduce expr scope rest) rest machine
  | ⟨.reduce expr scope rest, machine⟩ => .ofStep expr scope rest machine
  | ⟨.outcome outcome rest, machine⟩ => .ofOutcome outcome rest machine
  | ⟨.head head rest, machine⟩ => .ofHead head rest machine
  | ⟨.name name (.binding bound more table body scope rest), machine⟩ =>
      .afterRun (Run.reportRebound name table)
        (fun _ => .bind more (table.insert name bound) body scope rest) rest machine
  | ⟨.close items scope rest, machine⟩ =>
      match Lambda.parts items with
      | .error shape => ⟨.raise (.failed (.malformedLambda shape)) rest, machine⟩
      | .ok (bindings, body) => ⟨.bind bindings .empty body scope rest, machine⟩
  | ⟨.bind [] table body scope rest, machine⟩ =>
      .afterRun (Run.emit (.closing table.size body) >>= fun _ =>
        Run.withWorld (World.newClosure table body scope)) (fun closure => .closure closure rest)
        rest machine
  | ⟨.bind ((position, bound) :: more) table body scope rest, machine⟩ =>
      ⟨.enterName position scope (.binding bound more table body scope rest), machine⟩
  | ⟨.closure closure (.lambda rest), machine⟩ => ⟨.outcome (.finished (.closure closure)) rest, machine⟩
  | ⟨.closure closure .closed, machine⟩ => ⟨.ended (.ok (.scope closure)), machine⟩
  | ⟨.arguments callee done [] scope rest, machine⟩ => ⟨.hand callee done scope (.step rest), machine⟩
  | ⟨.arguments callee done (argument :: more) scope rest, machine⟩ =>
      ⟨.enter argument scope (.argument callee done more scope rest), machine⟩
  | ⟨.hand (.native method) arguments scope rest, machine⟩ =>
      .afterRun (engine.callNative method arguments scope) (fun result => rest.takeResult result scope)
        rest machine
  | ⟨.hand (.closure closure) arguments scope rest, machine⟩ =>
      .afterRun (Run.call closure arguments scope) rest.takeFrame rest machine
  | ⟨.raise stop rest, machine⟩ => .ofStop stop rest machine
  | ⟨.ended outcome, machine⟩ => ⟨.ended outcome, machine⟩

/-- The moment so many moves later. -/
def after (moves : Nat) (moment : Moment ν σ) : Moment ν σ :=
  engine.move^[moves] moment

end Engine

/-- What an evaluation does first. -/
def Evaluation.first : Evaluation ν → Control ν
  | .resolve expr scope => .enter expr scope .resolved
  | .force expr scope => .enter expr scope .forced
  | .apply operator arguments scope => .enter operator scope (.applied arguments scope)
  | .close items scope => .close items scope .closed
  | .interpret program root => .enter program root .interpreted

/-- The moment in which an evaluation starts. -/
def Evaluation.start (request : Evaluation ν) (world : World ν σ) : Moment ν σ :=
  ⟨request.first, 0, world⟩

/-- The moment in which an evaluation is over. -/
def Evaluated.moment (evaluated : Evaluated ν σ (Expr ν)) : Moment ν σ :=
  ⟨.ended evaluated.outcome, evaluated.steps, evaluated.world⟩

end Moves

/-! ## Any number of moves -/

namespace Engine

variable (engine : Engine ν σ)

theorem after_succ (moves : Nat) (moment : Moment ν σ) :
    engine.after (moves + 1) moment = engine.move (engine.after moves moment) :=
  Function.iterate_succ_apply' engine.move moves moment

theorem after_add (first second : Nat) (moment : Moment ν σ) :
    engine.after (first + second) moment = engine.after second (engine.after first moment) := by
  rw [Nat.add_comm]
  exact Function.iterate_add_apply engine.move second first moment

theorem after_move (moves : Nat) (moment : Moment ν σ) :
    engine.after (moves + 1) moment = engine.after moves (engine.move moment) :=
  Function.iterate_succ_apply engine.move moves moment

/-- What holds at first and is kept by every move holds after any number of them. -/
theorem after_invariant (holds : Moment ν σ → Prop)
    (hmove : ∀ moment, holds moment → holds (engine.move moment)) {moment : Moment ν σ}
    (h : holds moment) (moves : Nat) : holds (engine.after moves moment) := by
  induction moves with
  | zero => exact h
  | succ moves ih =>
    rw [after_succ]
    exact hmove _ ih

theorem after_ended (moves : Nat) (outcome : Except Stop (Expr ν)) (machine : Machine ν σ) :
    engine.after moves ⟨.ended outcome, machine⟩ = ⟨.ended outcome, machine⟩ :=
  Function.iterate_fixed rfl moves

section Limits

variable {engine}

theorem move_count_exhausted {expr : Expr ν} {scope : Scope ν} {rest : Rest ν .outcome}
    {machine : Machine ν σ} (h : engine.limits.maxSteps < machine.steps + 1) :
    engine.move ⟨.count expr scope rest, machine⟩ =
      ⟨.raise (.outOfSteps engine.limits.maxSteps) rest, machine.steps + 1, machine.world⟩ := by
  refine Moment.afterRun_error ?_
  rw [Run.tick_apply, if_pos h]

theorem move_count_allowed {expr : Expr ν} {scope : Scope ν} {rest : Rest ν .outcome}
    {machine : Machine ν σ} (h : ¬engine.limits.maxSteps < machine.steps + 1) :
    engine.move ⟨.count expr scope rest, machine⟩ =
      ⟨.report expr scope rest, machine.steps + 1, machine.world⟩ := by
  have htick : Run.tick engine.limits machine = (.ok (), ⟨machine.steps + 1, machine.world⟩) := by
    rw [Run.tick_apply, if_neg h]
  exact Moment.afterRun_ok htick

theorem permit_of_le {depth : Nat} (h : depth ≤ engine.limits.maxDepth) :
    engine.permit depth = pure () := by
  rw [permit, if_neg (Nat.not_lt.2 h)]

theorem permit_of_lt {depth : Nat} (h : engine.limits.maxDepth < depth) :
    engine.permit depth = throw (.outOfDepth engine.limits.maxDepth) := by
  rw [permit, if_pos h]

end Limits

end Engine

/-! ## Steps -/

/-- A run in which no steps are counted. -/
def Run.Timeless (run : Run ν σ α) : Prop :=
  ∀ machine, (run machine).2.steps = machine.steps

namespace Run

theorem timeless_pure (result : α) : Timeless (pure result : Run ν σ α) := fun _ => rfl

theorem timeless_fail (failure : Failure) : Timeless (fail failure : Run ν σ α) := fun _ => rfl

theorem timeless_emit (event : Event ν) : Timeless (emit event : Run ν σ Unit) := fun _ => rfl

theorem timeless_withWorld (change : World ν σ → α × World ν σ) : Timeless (withWorld change) :=
  fun _ => rfl

theorem Timeless.bind {first : Run ν σ α} {next : α → Run ν σ β} (h : Timeless first)
    (hn : ∀ result, Timeless (next result)) : Timeless (first >>= next) := by
  intro machine
  have hfirst := h machine
  rw [bind_apply]
  rcases hrun : first machine with ⟨stop | result, after⟩ <;> rw [hrun] at hfirst
  · exact hfirst
  · exact (hn result after).trans hfirst

theorem timeless_reportRebound (name : String) (table : Table (Expr ν)) :
    Timeless (reportRebound name table : Run ν σ Unit) := by
  rw [reportRebound]
  cases table.find? name with
  | none => exact timeless_pure ()
  | some dropped => exact timeless_emit _

theorem timeless_record (head : Head ν) (owners : List (Scope ν × String)) :
    Timeless (record head owners : Run ν σ Unit) := by
  cases head with
  | terminal result => exact fun _ => rfl
  | closure closure => exact timeless_pure ()

theorem timeless_stepIdentifier (name : String) (scope : Scope ν) :
    Timeless (stepIdentifier name scope : Run ν σ (Outcome ν)) := by
  rw [stepIdentifier]
  cases scope.find name with
  | error failure => exact timeless_fail failure
  | ok found =>
    refine Timeless.bind (fun _ => rfl) fun record => ?_
    cases record with
    | none => exact timeless_pure _
    | some result => exact timeless_pure _

theorem timeless_ownName (name : String) : Timeless (Engine.ownName name : Run ν σ String) := by
  rw [Engine.ownName]
  cases positional? name with
  | none => exact timeless_pure name
  | some index => exact timeless_fail _

theorem timeless_call (closure : Scope ν) (arguments : List (Expr ν)) (scope : Scope ν) :
    Timeless (call closure arguments scope : Run ν σ (Scope ν)) :=
  (timeless_withWorld _).bind fun _ => (timeless_emit _).bind fun _ => timeless_pure _

theorem timeless_callNative (engine : Engine ν σ) (method : Native ν) (arguments : List (Expr ν))
    (scope : Scope ν) : Timeless (engine.callNative method arguments scope) :=
  (timeless_emit _).bind fun _ => (timeless_withWorld _).bind fun _ =>
    (timeless_emit _).bind fun _ => timeless_pure _

theorem timeless_permit (engine : Engine ν σ) (depth : Nat) : Timeless (engine.permit depth) := by
  intro machine
  rw [Engine.permit]
  by_cases h : engine.limits.maxDepth < depth
  · rw [if_pos h]
    rfl
  · rw [if_neg h]
    rfl

end Run

namespace Moment

/-- How many steps the next move counts. -/
def pace : Moment ν σ → Nat
  | ⟨.count _ _ _, _⟩ => 1
  | _ => 0

theorem steps_afterRun {part : Part} {run : Run ν σ α} (h : run.Timeless) (next : α → Control ν)
    (rest : Rest ν part) (machine : Machine ν σ) :
    (afterRun run next rest machine).machine.steps = machine.steps := by
  have hrun := h machine
  rw [afterRun]
  rcases hafter : run machine with ⟨stop | result, after⟩ <;> rw [hafter] at hrun <;> exact hrun

theorem steps_finished (result : Terminal ν) (machine : Machine ν σ) :
    (finished result machine).machine.steps = machine.steps := by
  cases result <;> rfl

theorem steps_ofOperator (head : Head ν) (arguments : List (Expr ν)) (scope : Scope ν)
    (machine : Machine ν σ) :
    (ofOperator head arguments scope machine).machine.steps = machine.steps := by
  rw [ofOperator]
  cases arguments.findSome? Expr.failure? <;> rfl

theorem steps_ofHead (head : Head ν) (rest : Rest ν .head) (machine : Machine ν σ) :
    (ofHead head rest machine).machine.steps = machine.steps := by
  cases rest with
  | resolved => rfl
  | forced => cases head <;> rfl
  | interpreted =>
    cases head with
    | terminal result => exact steps_finished result machine
    | closure closure => rfl
  | applied arguments scope => exact steps_ofOperator head arguments scope machine
  | operator arguments scope rest => rcases head with (value | method) | closure <;> rfl
  | argument callee done more scope rest => rfl

theorem steps_ofOutcome (outcome : Outcome ν) (rest : Rest ν .outcome) (machine : Machine ν σ) :
    (ofOutcome outcome rest machine).machine.steps = machine.steps := by
  cases rest with
  | toHead pending rest =>
    cases outcome with
    | finished head => exact steps_afterRun (Run.timeless_record head pending) _ _ machine
    | further next inner => rfl
    | binding name bound owner => rfl
  | toName rest =>
    cases outcome with
    | finished head =>
      rw [ofOutcome]
      cases head.name? <;> rfl
    | further next inner => rfl
    | binding name bound owner => rfl

theorem steps_ofStep (expr : Expr ν) (scope : Scope ν) (rest : Rest ν .outcome)
    (machine : Machine ν σ) : (ofStep expr scope rest machine).machine.steps = machine.steps := by
  cases expr with
  | identifier name => exact steps_afterRun (Run.timeless_stepIdentifier name scope) _ _ machine
  | _ => rfl

theorem steps_ofStop (stop : Stop) {part : Part} (rest : Rest ν part) (machine : Machine ν σ) :
    (ofStop stop rest machine).machine.steps = machine.steps := by
  cases rest <;> rfl

end Moment

namespace Engine

variable (engine : Engine ν σ)

/-- Steps are counted one at a time, and by no other move. -/
theorem move_steps (moment : Moment ν σ) :
    (engine.move moment).machine.steps = moment.machine.steps + moment.pace := by
  obtain ⟨control, machine⟩ := moment
  cases control with
  | enter expr scope rest => exact Moment.steps_afterRun (Run.timeless_permit engine _) _ _ machine
  | enterName position scope rest =>
    exact Moment.steps_afterRun (Run.timeless_permit engine _) _ _ machine
  | position position scope rest =>
    rw [move]
    cases position.identifier? with
    | none => rfl
    | some name => exact Moment.steps_afterRun (Run.timeless_ownName name) _ _ machine
  | count expr scope rest =>
    rw [move, Moment.afterRun, Run.tick_apply]
    by_cases h : engine.limits.maxSteps < machine.steps + 1
    · rw [if_pos h]
      rfl
    · rw [if_neg h]
      rfl
  | report expr scope rest => rfl
  | reduce expr scope rest => exact Moment.steps_ofStep expr scope rest machine
  | outcome outcome rest => exact Moment.steps_ofOutcome outcome rest machine
  | head head rest => exact Moment.steps_ofHead head rest machine
  | name name rest =>
    cases rest with
    | binding bound more table body scope rest =>
      exact Moment.steps_afterRun (Run.timeless_reportRebound name table) _ _ machine
  | close items scope rest =>
    rw [move]
    cases Lambda.parts items <;> rfl
  | bind bindings table body scope rest => cases bindings <;> rfl
  | closure closure rest => cases rest <;> rfl
  | arguments callee done more scope rest => cases more <;> rfl
  | hand callee arguments scope rest =>
    cases callee with
    | native method =>
      exact Moment.steps_afterRun (Run.timeless_callNative engine method arguments scope) _ _ machine
    | closure closure =>
      exact Moment.steps_afterRun (Run.timeless_call closure arguments scope) _ _ machine
  | raise stop rest => exact Moment.steps_ofStop stop rest machine
  | ended outcome => rfl

theorem steps_le_after (moves : Nat) (moment : Moment ν σ) :
    moment.machine.steps ≤ (engine.after moves moment).machine.steps := by
  induction moves with
  | zero => exact Nat.le_refl _
  | succ moves ih =>
    rw [after_succ, move_steps]
    exact Nat.le_add_right_of_le ih

end Engine
end CallByNeed
