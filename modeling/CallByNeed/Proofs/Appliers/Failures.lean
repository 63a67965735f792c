import CallByNeed.Host.Natives
import CallByNeed.Proofs.Appliers.Enclosed
import CallByNeed.Proofs.CallByName.Basic

/-! # Failures among arguments

A failure among arguments takes the place of the application, whether the arguments are handed over
by `apply` or resolved by a step: the operator is not invoked on them, and no frame is made for them.
The two part where the operator is a plain value. A step has no use for the arguments then and leaves
them alone, while `apply` looks for failures first (`Host.failing_arguments`).
-/

namespace CallByNeed
set_option autoImplicit false

variable {ν σ : Type}

/-- Values, native methods, closures and failures. -/
def Expr.IsSettled (expr : Expr ν) : Prop :=
  expr.IsWeakHead ∨ ∃ failure, expr = .failure failure

namespace Engine

/-! ## Limits that are hit -/

def Refuses (engine : Engine ν σ) (moment : Moment ν σ) : Prop :=
  engine.RefusesStep moment ∨ engine.RefusesLoop moment

section Ends

variable {engine : Engine ν σ} {request : Evaluation ν} {world : World ν σ} {moves : Nat}

/-- The end that moves lead to is the end of the evaluation. -/
theorem evaluate_of_after {outcome : Except Stop (Expr ν)} {machine : Machine ν σ}
    (h : engine.after moves (request.start world) = ⟨.ended outcome, machine⟩) :
    engine.evaluate request world = ⟨outcome, machine.steps, machine.world⟩ := by
  obtain ⟨total, hover⟩ := evaluate_over engine request world
  have hend : (engine.evaluate request world).moment = ⟨.ended outcome, machine⟩ := by
    calc (engine.evaluate request world).moment
      _ = engine.after (moves + total) (request.start world) :=
        (hover _ (Nat.le_add_left _ _)).symm
      _ = engine.after total ⟨.ended outcome, machine⟩ := by rw [after_add, h]
      _ = ⟨.ended outcome, machine⟩ := engine.after_ended _ _ _
  rcases hevaluated : engine.evaluate request world with ⟨result, steps, after⟩
  rw [hevaluated] at hend
  cases hend
  rfl

/-- What a limit refuses cuts the evaluation short. -/
theorem isCut_of_refuses (h : engine.Refuses (engine.after moves (request.start world))) :
    (engine.evaluate request world).isCut = true := by
  unfold Evaluated.isCut
  rcases h with hstep | hloop
  · obtain ⟨rest, hmove⟩ := move_of_refusesStep hstep
    rw [(stops hmove).1]
    rfl
  · obtain ⟨part, rest, hmove⟩ := move_of_refusesLoop hloop
    rw [(stops hmove).1]
    rfl

theorem not_refuses (h : (engine.evaluate request world).isCut = false) (moves : Nat) :
    ¬engine.Refuses (engine.after moves (request.start world)) := by
  intro hrefuses
  rw [isCut_of_refuses hrefuses] at h
  cases h

end Ends

/-! ## Settled arguments -/

section Settled

variable {engine : Engine ν σ}

/-- A resolution hits a limit at once, or takes a step. -/
theorem resolve_counts (levels : Nat) (expr : Expr ν) (scope : Scope ν) (machine : Machine ν σ) :
    (∃ stop after, (engine.nested levels).resolve expr scope machine = (.error stop, after) ∧
      stop.isLimit = true) ∨
    ∃ inner rounds, (engine.nested levels).resolve expr scope machine =
      (engine.stepBody inner expr scope >>= engine.afterStep inner rounds [])
        ⟨machine.steps + 1, machine.world⟩ := by
  cases levels with
  | zero => exact .inl ⟨_, _, rfl, rfl⟩
  | succ levels =>
    show (∃ stop after, engine.resolveLoop (engine.nested levels) engine.limits.maxSteps expr scope []
      machine = (.error stop, after) ∧ _) ∨ ∃ inner rounds,
        engine.resolveLoop (engine.nested levels) engine.limits.maxSteps expr scope [] machine = _
    generalize engine.limits.maxSteps = rounds
    cases rounds with
    | zero =>
      rw [resolveLoop, Run.exhaust_apply]
      exact .inl ⟨_, _, rfl, rfl⟩
    | succ rounds =>
      rw [resolveLoop_step, step_eq, bind_assoc, Run.bind_apply, Run.tick_apply]
      by_cases h : engine.limits.maxSteps < machine.steps + 1
      · rw [if_pos h]
        exact .inl ⟨_, _, rfl, rfl⟩
      · rw [if_neg h]
        exact .inr ⟨_, _, rfl⟩

/-- A head is resolved to itself. -/
theorem resolve_head {head : Head ν} (h : head.Fits) (levels : Nat) (scope : Scope ν)
    (machine : Machine ν σ) :
    (∃ stop after, (engine.nested levels).resolve head.toExpr scope machine = (.error stop, after) ∧
      stop.isLimit = true) ∨
    ∃ after, (engine.nested levels).resolve head.toExpr scope machine = (.ok head, after) ∧
      machine.world.Matches after.world := by
  refine (resolve_counts levels head.toExpr scope machine).imp_right ?_
  rintro ⟨inner, rounds, hresolve⟩
  have hworld : machine.world.Matches (machine.world.emit (.resolving head.toExpr)) :=
    World.matches_emit _ rfl
  refine ⟨⟨machine.steps + 1, machine.world.emit (.resolving head.toExpr)⟩, ?_, hworld⟩
  rw [hresolve]
  rcases head with (value | method) | closure
  · rfl
  · rfl
  · have henter : closure.enter = .finished (.closure closure) := by
      unfold Scope.enter
      rw [show closure.kind = .closure from h]
    show ((pure closure.enter >>= engine.afterStep inner rounds []) _ : _ × Machine ν σ) = _
    rw [henter]
    rfl

theorem resolve_failure (failure : Failure) (levels : Nat) (scope : Scope ν)
    (machine : Machine ν σ) :
    ∃ stop after,
      (engine.nested levels).resolve (.failure failure) scope machine = (.error stop, after) ∧
      (stop.isLimit = true ∨ stop = .failed failure ∧ machine.world.Matches after.world) := by
  rcases resolve_counts levels (.failure failure) scope machine with
    ⟨stop, after, hresolve, hlimit⟩ | ⟨inner, rounds, hresolve⟩
  · exact ⟨stop, after, hresolve, .inl hlimit⟩
  · exact ⟨.failed failure, ⟨machine.steps + 1, machine.world.emit (.resolving (.failure failure))⟩,
      hresolve, .inr ⟨rfl, World.matches_emit _ rfl⟩⟩

/-- Arguments are resolved up to the first failure, and nothing but the log is different then. -/
theorem resolveAll_fails {arguments : List (Expr ν)}
    (harguments : ∀ argument ∈ arguments, argument.IsSettled) {failure : Failure}
    (hfailure : arguments.findSome? Expr.failure? = some failure) (levels : Nat) (scope : Scope ν)
    (machine : Machine ν σ) :
    ∃ stop after, (engine.nested levels).resolveAll scope arguments machine = (.error stop, after) ∧
      (stop.isLimit = true ∨ stop = .failed failure ∧ machine.world.Matches after.world) := by
  induction arguments generalizing machine with
  | nil => cases hfailure
  | cons argument rest ih =>
    obtain ⟨hargument, hrest⟩ := List.forall_mem_cons.1 harguments
    rw [Nested.resolveAll_cons, Run.bind_apply]
    rcases hargument with hhead | ⟨first, rfl⟩
    · obtain ⟨head, rfl, hfits⟩ := hhead.head
      rcases resolve_head hfits levels scope machine with
        ⟨stop, after, hresolve, hlimit⟩ | ⟨middle, hresolve, hworld⟩
      · rw [hresolve]
        exact ⟨stop, after, rfl, .inl hlimit⟩
      · have hlater : rest.findSome? Expr.failure? = some failure := by
          rcases head with (value | method) | closure <;> exact hfailure
        obtain ⟨stop, after, hall, hstop⟩ := ih hrest hlater middle
        rw [hresolve]
        refine ⟨stop, after, ?_, hstop.imp_right fun hstop => ⟨hstop.1, hworld.trans hstop.2⟩⟩
        show ((engine.nested levels).resolveAll scope rest >>= _) middle = _
        rw [Run.bind_apply, hall]
    · obtain rfl : first = failure := Option.some.inj hfailure
      obtain ⟨stop, after, hresolve, hstop⟩ := resolve_failure first levels scope machine
      rw [hresolve]
      exact ⟨stop, after, rfl, hstop⟩

end Settled

/-! ## The application as an operation and as a step -/

section Operator

variable {engine : Engine ν σ} {operator : Expr ν} {arguments : List (Expr ν)} {scope : Scope ν}
  {world : World ν σ} {failure : Failure} {outcome : Except Stop (Head ν)} {machine : Machine ν σ}

/-- Failures are looked for once the operator is resolved, whatever it comes to. -/
theorem evaluate_apply (hfailure : arguments.findSome? Expr.failure? = some failure)
    (hrun : engine.resolveTop operator scope ⟨0, world⟩ = (outcome, machine)) :
    engine.evaluate (.apply operator arguments scope) world =
      ⟨outcome.bind fun _ => .error (.failed failure), machine.steps, machine.world⟩ := by
  rw [evaluate, run, applyRun, Run.execute, Run.bind_apply, hrun, hfailure]
  cases outcome <;> rfl

/-- What is left to do while the operator of an application is resolved. -/
abbrev restOfApplication (arguments : List (Expr ν)) (scope : Scope ν) : Rest ν .head :=
  .operator arguments scope (.toHead [] .resolved)

/-- The resolution of an application begins with that of its operator. -/
theorem after_enter_operator
    (h : (engine.evaluate (.resolve (.application operator arguments) scope) world).isCut = false) :
    engine.after 4 ((Evaluation.resolve (.application operator arguments) scope).start world) =
      ⟨.enter operator scope (restOfApplication arguments scope), 1,
        world.emit (.resolving (.application operator arguments))⟩ := by
  have henter : engine.move ((Evaluation.resolve (.application operator arguments) scope).start
      world) = ⟨.count (.application operator arguments) scope (.toHead [] .resolved), 0, world⟩ := by
    have hpermit : engine.permit (Rest.resolved : Rest ν .head).depth = pure () :=
      permit_of_le (Nat.zero_le _)
    rw [Evaluation.start, Evaluation.first, move, hpermit]
    rfl
  have hstep : ¬engine.limits.maxSteps < 0 + 1 := by
    intro hstep
    refine not_refuses h 1 (.inl ?_)
    rw [after_succ]
    exact henter ▸ hstep
  show engine.move (engine.move (engine.move (engine.move _))) = _
  rw [henter, move_count_allowed hstep]
  rfl

theorem ended_of_isOver {moment : Moment ν σ} (h : moment.control.IsOver) :
    ∃ result, (engine.move moment).control = .ended result := by
  obtain ⟨control, machine⟩ := moment
  cases control with
  | head head rest =>
    obtain rfl : rest = .resolved := h
    exact ⟨_, rfl⟩
  | @raise part stop rest =>
    cases part with
    | head =>
      obtain rfl : rest = .resolved := h
      exact ⟨_, rfl⟩
    | _ => exact absurd h not_false
  | _ => exact absurd h not_false

/-- Before the resolution of an operator has come to its outcome, it is not over. -/
theorem not_isOver_before {moves : Nat}
    (h : engine.after moves ⟨.enter operator scope .resolved, 0, world⟩ =
      .afterRun (engine.resolveTop operator scope) (fun head => .head head .resolved)
        (Rest.resolved : Rest ν .head) ⟨0, world⟩) :
    ∀ earlier < moves,
      ¬(engine.after earlier ⟨.enter operator scope .resolved, 0, world⟩).control.IsOver := by
  intro earlier hlt hover
  obtain ⟨result, hended⟩ := ended_of_isOver hover
  obtain ⟨more, rfl⟩ := Nat.exists_eq_add_of_lt hlt
  rw [show earlier + more + 1 = earlier + 1 + more by omega, after_add, after_succ] at h
  generalize engine.move (engine.after earlier ⟨.enter operator scope .resolved, 0, world⟩) =
    moment at h hended
  obtain ⟨control, after⟩ := moment
  obtain rfl : control = .ended result := hended
  rw [after_ended, Moment.afterRun] at h
  rcases hrun : engine.resolveTop operator scope ⟨0, world⟩ with ⟨stop | head, last⟩ <;>
    rw [hrun] at h <;> cases h

/-- What follows a resolution with this outcome. -/
def resolvedTo (rest : Rest ν .head) : Except Stop (Head ν) → Control ν
  | .ok head => .head head rest
  | .error stop => .raise stop rest

/-- The operator of an application comes to what it comes to on its own. -/
theorem after_operator (hblind : engine.invoke.Blind)
    (hrun : engine.resolveTop operator scope ⟨0, world⟩ = (outcome, machine))
    (halone : (engine.evaluate (.resolve operator scope) world).isCut = false)
    (h : (engine.evaluate (.resolve (.application operator arguments) scope) world).isCut = false) :
    ∃ moves, ∃ machine' : Machine ν σ, machine.world.Matches machine'.world ∧
      engine.after moves ((Evaluation.resolve (.application operator arguments) scope).start world) =
        ⟨resolvedTo (restOfApplication arguments scope) outcome, machine'⟩ := by
  obtain ⟨moves, hmoves⟩ := resolveTop_leads engine
    (show Rest.depth (.resolved : Rest ν .head) = 0 from rfl) 0 operator scope ⟨0, world⟩
    (Nat.zero_le 0)
  have hover := not_isOver_before hmoves
  have hfollows : Moment.Follows (restOfApplication arguments scope) 1
      (⟨.enter operator scope .resolved, 0, world⟩ : Moment ν σ)
      ⟨.enter operator scope (restOfApplication arguments scope), 1,
        world.emit (.resolving (.application operator arguments))⟩ :=
    ⟨rfl, rfl, World.matches_emit world rfl⟩
  have hafter := after_follows hblind hfollows moves (.inr hover) fun earlier _ _ => by
    have hnot := not_refuses halone earlier
    have hnot' := not_refuses h (4 + earlier)
    rw [after_add, after_enter_operator h] at hnot'
    exact ⟨iff_of_false (fun hstep => hnot (.inl hstep)) fun hstep => hnot' (.inl hstep),
      iff_of_false (fun hloop => hnot (.inr hloop)) fun hloop => hnot' (.inr hloop)⟩
  rw [hmoves, Moment.afterRun, hrun, ← after_enter_operator h, ← after_add] at hafter
  rcases hmoment : engine.after (4 + moves)
    ((Evaluation.resolve (.application operator arguments) scope).start world) with ⟨control, last⟩
  rw [hmoment] at hafter
  obtain ⟨hcontrol, -, hworld⟩ := hafter
  refine ⟨4 + moves, last, ?_, ?_⟩
  · cases outcome <;> exact hworld
  · rw [hmoment]
    cases outcome <;> exact congrArg (Moment.mk · last) hcontrol

/-- How a step of an application with a failure among its arguments ends, by what its operator comes
to. -/
def stepWith (failure : Failure) : Except Stop (Expr ν) → Except Stop (Expr ν)
  | .ok (.value it) => .ok (.value it)
  | .ok _ => .error (.failed failure)
  | .error stop => .error stop

/-- Once the operator is known, nothing changes any more but the log, unless a limit is hit. -/
theorem application_settles (harguments : ∀ argument ∈ arguments, argument.IsSettled)
    (hfailure : arguments.findSome? Expr.failure? = some failure) (outcome : Except Stop (Head ν))
    (machine : Machine ν σ) :
    ∃ moves result, ∃ last : Machine ν σ,
      engine.after moves ⟨resolvedTo (restOfApplication arguments scope) outcome, machine⟩ =
        ⟨.ended result, last⟩ ∧
      ((∃ stop, result = .error stop ∧ stop.isLimit = true) ∨
        result = stepWith failure (outcome.map Head.toExpr) ∧ machine.world.Matches last.world) := by
  rcases outcome with stop | head
  · exact ⟨3, .error stop, machine, rfl, .inr ⟨rfl, .refl _⟩⟩
  have hdepth : engine.limits.maxDepth + (Rest.toHead [] .resolved : Rest ν .outcome).depth =
      engine.limits.maxDepth := rfl
  obtain ⟨moves, hmoves⟩ := applyHead_leads (nested_leads engine engine.limits.maxDepth) hdepth
    arguments scope head machine (Nat.zero_le _)
  obtain ⟨stop, last, hall, hstop⟩ :=
    resolveAll_fails harguments hfailure engine.limits.maxDepth scope machine
  have hstopped : ∀ {next : List (Expr ν) → Run ν σ (Outcome ν)},
      engine.applyHead (engine.nested engine.limits.maxDepth) arguments scope head =
        (engine.nested engine.limits.maxDepth).resolveAll scope arguments >>= next →
      engine.after (moves + 2) ⟨resolvedTo (restOfApplication arguments scope) (.ok head), machine⟩ =
        ⟨.ended (.error stop), last⟩ := by
    intro next happly
    rw [after_add, resolvedTo, hmoves, Moment.afterRun, happly, Run.bind_apply, hall]
    rfl
  have hends : (∃ limit, (.error stop : Except Stop (Expr ν)) = .error limit ∧ limit.isLimit = true) ∨
      (.error stop : Except Stop (Expr ν)) = .error (.failed failure) ∧
        machine.world.Matches last.world := by
    rcases hstop with hlimit | ⟨rfl, hworld⟩
    · exact .inl ⟨stop, rfl, hlimit⟩
    · exact .inr ⟨rfl, hworld⟩
  rcases head with (it | method) | closure
  · refine ⟨moves + 2, .ok (.value it), ⟨machine.steps, machine.world.emit (.argumentsIgnored it)⟩,
      ?_, .inr ⟨rfl, World.matches_emit _ rfl⟩⟩
    rw [after_add, resolvedTo, hmoves]
    rfl
  · exact ⟨moves + 2, .error stop, last, hstopped rfl, hends⟩
  · exact ⟨moves + 2, .error stop, last, hstopped rfl, hends⟩

end Operator

end Engine

/-- An application to settled arguments with a failure among them, as an operation and as a step. The
operation reports the failure unless the operator fails; the step does so unless the operator fails
or is a plain value, which it returns. Neither makes a frame or calls a native method once the
operator is resolved. -/
theorem Host.failing_arguments (host : Host ν σ) (levels : Nat) (limits : Limits)
    (operator : Expr ν) {arguments : List (Expr ν)} (scope : Scope ν) (world : World ν σ)
    {failure : Failure} (harguments : ∀ argument ∈ arguments, argument.IsSettled)
    (hfailure : arguments.findSome? Expr.failure? = some failure) :
    let engine := host.engine levels limits
    let alone := engine.evaluate (.resolve operator scope) world
    let applied := engine.evaluate (.apply operator arguments scope) world
    let resolved := engine.evaluate (.resolve (.application operator arguments) scope) world
    applied.isCut = false → resolved.isCut = false →
      applied.outcome = alone.outcome.bind (fun _ => .error (.failed failure)) ∧
      resolved.outcome = Engine.stepWith failure alone.outcome ∧
      (applied.reported = resolved.reported ↔ ∀ it, alone.outcome ≠ .ok (.value it)) ∧
      applied.world = alone.world ∧ alone.world.Matches resolved.world := by
  intro engine alone applied resolved happlied hresolved
  rcases hrun : engine.resolveTop operator scope ⟨0, world⟩ with ⟨outcome, machine⟩
  have halone : alone = ⟨outcome.map Head.toExpr, machine.steps, machine.world⟩ :=
    Engine.evaluate_resolve hrun
  have hoperation : applied = _ := Engine.evaluate_apply hfailure hrun
  have huncut : alone.isCut = false := by
    rw [hoperation] at happlied
    rw [halone]
    cases outcome <;> exact happlied
  obtain ⟨moves, middle, hworld, hmiddle⟩ :=
    Engine.after_operator (host.invokeAt_blind levels) hrun huncut hresolved
  obtain ⟨more, result, last, hlast, hends⟩ :=
    Engine.application_settles harguments hfailure outcome middle
  rw [← hmiddle, ← Engine.after_add] at hlast
  have hstep : resolved = ⟨result, last.steps, last.world⟩ := Engine.evaluate_of_after hlast
  rcases hends with ⟨stop, rfl, hlimit⟩ | ⟨rfl, hend⟩
  · rw [hstep] at hresolved
    exact absurd (hlimit.symm.trans hresolved) nofun
  clear_value alone applied resolved
  subst halone hoperation hstep
  refine ⟨?_, rfl, ?_, rfl, hworld.trans hend⟩
  · cases outcome <;> rfl
  · rcases outcome with stop | ((it | method) | closure)
    · exact iff_of_true rfl nofun
    · exact iff_of_false nofun fun hnone => hnone it rfl
    · exact iff_of_true rfl nofun
    · exact iff_of_true rfl nofun

/-- A native method is not invoked on a failure. -/
theorem failing_arguments_add :
    let engine := standardHost.engine 1 ⟨20, 4⟩
    let world : World StandardNative HostState := ((World.initial .initial).newRoot .empty).2
    let add : Expr StandardNative := .native ⟨"add", .add⟩
    let bad : Expr StandardNative := .failure (.native "bad")
    let applied := engine.evaluate (.apply add [bad] (.root 0 .empty)) world
    let resolved := engine.evaluate (.resolve (.application add [bad]) (.root 0 .empty)) world
    applied.isCut = false ∧ resolved.isCut = false ∧ applied.reported = resolved.reported := by
  intro engine world add bad applied resolved
  have happlied : applied.isCut = false := by decide +kernel
  have hresolved : resolved.isCut = false := by decide +kernel
  have halone : (engine.evaluate (.resolve add (.root 0 .empty)) world).outcome = .ok add := rfl
  have hfailing := standardHost.failing_arguments 1 ⟨20, 4⟩ add (.root 0 .empty) world
    (fun argument hm => .inr ⟨.native "bad", List.mem_singleton.1 hm⟩)
    (show [bad].findSome? Expr.failure? = some (.native "bad") from rfl) happlied hresolved
  refine ⟨happlied, hresolved, hfailing.2.2.1.2 fun it h => ?_⟩
  have hvalue : Expr.native ⟨"add", .add⟩ = .value it := Except.ok.inj (halone.symm.trans h)
  cases hvalue

/-- A plain value ignores a failure as an operator, but not when it is applied to it. -/
theorem failing_arguments_one :
    let engine := standardHost.engine 1 ⟨20, 4⟩
    let world : World StandardNative HostState := ((World.initial .initial).newRoot .empty).2
    let one : Expr StandardNative := .value ⟨.supplied 0, .integer .i64 1⟩
    let bad : Expr StandardNative := .failure (.native "bad")
    (engine.evaluate (.apply one [bad] (.root 0 .empty)) world).reported = .error (.native "bad") ∧
      (engine.evaluate (.resolve (.application one [bad]) (.root 0 .empty)) world).reported =
        .ok one :=
  ⟨rfl, rfl⟩

end CallByNeed
