import CallByNeed.Proofs.Appliers.Failures
import CallByNeed.Proofs.Frames.Store
import CallByNeed.Proofs.Moves.Next
import CallByNeed.Proofs.Runs.Rounds

/-! # Results are normal forms

A resolution comes to a value, a native method or a frame of a closure, and forcing to a value or a
native method; otherwise there is a failure. Such results stay what they are: when one is evaluated
again, whenever and wherever, a single step gives back the very same (`Engine.results_normal`).
-/

namespace CallByNeed
set_option autoImplicit false

variable {ν σ : Type}

/-! ## Heads -/

namespace Engine

variable {engine : Engine ν σ} {nested : Nested ν σ}

theorem step_yields (expr : Expr ν) (scope : Scope ν) :
    (engine.step nested expr scope).Yields Outcome.Fits := by
  rw [step_eq]
  exact .bind fun _ => stepBody_yields Outcome.fits_ofUnnamed engine nested
    fun name _ => Run.stepIdentifier_fits name scope

theorem resolveLoop_yields (rounds : Nat) (expr : Expr ν) (scope : Scope ν)
    (pending : List (Scope ν × String)) :
    (engine.resolveLoop nested rounds expr scope pending).Yields Head.Fits := by
  induction rounds generalizing expr scope pending with
  | zero =>
    intro machine head after hrun
    rw [resolveLoop, Run.exhaust_apply] at hrun
    cases hrun
  | succ rounds ih =>
    rw [resolveLoop_step]
    refine (step_yields expr scope).then fun outcome houtcome => ?_
    cases outcome with
    | finished head => exact .bind fun _ => Run.yields_pure houtcome
    | further next inner => exact ih next inner pending
    | binding name bound owner => exact ih bound owner ((owner, name) :: pending)

/-! ## Results -/

variable {expr : Expr ν} {scope : Scope ν} {world : World ν σ}

theorem resolve_settles (engine : Engine ν σ) (expr : Expr ν) (scope : Scope ν)
    (world : World ν σ) : (engine.evaluate (.resolve expr scope) world).result.IsSettled := by
  have hyields : (engine.resolveTop expr scope).Yields Head.Fits :=
    resolveLoop_yields engine.limits.maxSteps expr scope []
  rcases hrun : engine.resolveTop expr scope ⟨0, world⟩ with ⟨stop | head, after⟩
  all_goals rw [evaluate_resolve hrun]
  · exact .inr ⟨stop.failure, rfl⟩
  · exact .inl (hyields _ head after hrun).toExpr

theorem force_terminates (engine : Engine ν σ) (expr : Expr ν) (scope : Scope ν)
    (world : World ν σ) :
    (engine.evaluate (.force expr scope) world).result.isTerminal = true := by
  rcases hrun : engine.forceLoop engine.limits.maxSteps expr scope ⟨0, world⟩ with
    ⟨stop | (value | method), after⟩
  all_goals
    rw [evaluate_force hrun]
    rfl

end Engine

/-! ## Evaluating results again -/

/-- An evaluation that starts in this world gives back the expression in a single step. It calls no
native method and makes no frame, no record and no value. -/
structure Evaluated.GivesBack (expr : Expr ν) (world : World ν σ)
    (evaluated : Evaluated ν σ (Expr ν)) : Prop where
  result : evaluated.result = expr
  steps : evaluated.steps = 1
  world : world.Matches evaluated.world

namespace Engine

variable {engine : Engine ν σ} (hsteps : 1 ≤ engine.limits.maxSteps)
include hsteps

theorem resolveTop_head {head : Head ν} (hhead : head.Fits) (scope : Scope ν)
    (world : World ν σ) :
    engine.resolveTop head.toExpr scope ⟨0, world⟩ =
      (.ok head, ⟨1, world.emit (.resolving head.toExpr)⟩) := by
  have hbudget : (⟨0, world⟩ : Machine ν σ).steps < engine.limits.maxSteps := hsteps
  refine (resolve_allowed hbudget engine.limits.maxDepth head.toExpr scope).trans ?_
  rcases head with (value | method) | closure
  · rfl
  · rfl
  · have henter : closure.enter = .finished (.closure closure) := by
      rw [Scope.enter, show closure.kind = .closure from hhead]
    have hbody : engine.stepBody (engine.nested engine.limits.maxDepth) (.scope closure) scope
        ⟨1, world⟩ = (.ok closure.enter, ⟨1, world.emit (.resolving (.scope closure))⟩) := rfl
    rw [Run.bind_apply, show (Head.closure closure).toExpr = .scope closure from rfl]
    rw [hbody, henter]
    rfl

theorem resolveTop_failure (failure : Failure) (scope : Scope ν) (world : World ν σ) :
    engine.resolveTop (.failure failure) scope ⟨0, world⟩ =
      (.error (.failed failure), ⟨1, world.emit (.resolving (.failure failure))⟩) := by
  have hbudget : (⟨0, world⟩ : Machine ν σ).steps < engine.limits.maxSteps := hsteps
  exact resolve_allowed hbudget engine.limits.maxDepth (.failure failure) scope

variable {expr : Expr ν}

theorem givesBack_resolve (hexpr : expr.IsSettled) (scope : Scope ν) (world : World ν σ) :
    (engine.evaluate (.resolve expr scope) world).GivesBack expr world := by
  rcases hexpr with hhead | ⟨failure, rfl⟩
  · obtain ⟨head, rfl, hfits⟩ := hhead.head
    rw [evaluate_resolve (resolveTop_head hsteps hfits scope world)]
    exact ⟨rfl, rfl, world.matches_emit rfl⟩
  · rw [evaluate_resolve (resolveTop_failure hsteps failure scope world)]
    exact ⟨rfl, rfl, world.matches_emit rfl⟩

theorem givesBack_force (hexpr : expr.isTerminal = true) (scope : Scope ν) (world : World ν σ) :
    (engine.evaluate (.force expr scope) world).GivesBack expr world := by
  have hterminal (result : Terminal ν) :
      (engine.evaluate (.force result.toExpr scope) world).GivesBack result.toExpr world := by
    have hhead : engine.resolveTop result.toExpr scope ⟨0, world⟩ = _ :=
      resolveTop_head hsteps (show (Head.terminal result).Fits from trivial) scope world
    have hforce := congrFun (engine.forceLoop_eq result.toExpr scope) ⟨0, world⟩
    rw [Run.bind_apply, hhead] at hforce
    rw [evaluate_force hforce]
    exact ⟨rfl, rfl, world.matches_emit rfl⟩
  cases expr with
  | value value => exact hterminal (.value value)
  | native method => exact hterminal (.native method)
  | failure failure =>
    have hforce := congrFun (engine.forceLoop_eq (.failure failure) scope) ⟨0, world⟩
    rw [Run.bind_apply, resolveTop_failure hsteps] at hforce
    rw [evaluate_force hforce]
    exact ⟨rfl, rfl, world.matches_emit rfl⟩
  | _ => cases hexpr

omit hsteps in
/-- A resolution comes to a value, a native method, a closure or a failure, and forcing to the same
but closures. Evaluated again, by any engine with a step to spend, in any scope and in any world,
the result comes back after one step, with nothing else done. -/
theorem results_normal (engine : Engine ν σ) (expr : Expr ν) (scope : Scope ν)
    (world : World ν σ) :
    let resolved := (engine.evaluate (.resolve expr scope) world).result
    let forced := (engine.evaluate (.force expr scope) world).result
    (resolved.IsWeakHead ∨ ∃ failure, resolved = .failure failure) ∧
      forced.isTerminal = true ∧
      ∀ (again : Engine ν σ) (other : Scope ν) (later : World ν σ), 1 ≤ again.limits.maxSteps →
        (again.evaluate (.resolve resolved other) later).GivesBack resolved later ∧
        (again.evaluate (.force forced other) later).GivesBack forced later := by
  intro resolved forced
  have hresolved := engine.resolve_settles expr scope world
  have hforced := engine.force_terminates expr scope world
  exact ⟨hresolved, hforced, fun again other later hsteps =>
    ⟨givesBack_resolve hsteps hresolved other later, givesBack_force hsteps hforced other later⟩⟩

end Engine

/-- The closure of a block, by an engine that may take a single step and nest nothing. -/
theorem results_normal_block :
    let block := (standardHost.engine 1 ⟨20, 4⟩).evaluate
      (.resolve (.identifier "block") blockOfArgument.1) blockOfArgument.2
    let again := (standardHost.engine 1 ⟨1, 0⟩).evaluate
      (.resolve block.result blockOfArgument.1) block.world
    block.steps = 2 ∧ block.result.IsWeakHead ∧ again.GivesBack block.result block.world := by
  intro block again
  obtain ⟨hblock, -, hagain⟩ := (standardHost.engine 1 ⟨20, 4⟩).results_normal
    (.identifier "block") blockOfArgument.1 blockOfArgument.2
  refine ⟨rfl, ?_, (hagain _ _ _ (Nat.le_refl 1)).1⟩
  rcases hblock with hhead | ⟨failure, hfailure⟩
  · exact hhead
  · cases hfailure

end CallByNeed
