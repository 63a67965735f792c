import CallByNeed.Proofs.Limits.Evaluations

/-! # Rounds and budgets

Loops count their rounds and their steps. Each round takes a step, so a loop whose rounds cover what
is left of the budget never runs out of them: more rounds make no difference
(`Engine.resolveLoop_rounds`). So the rest of a resolution is a resolution itself, of what a step
has led to (`Engine.resolve_continues`), whichever step it is. That makes a resolution a recursion
in which rounds do not occur (`Engine.resolve_allowed`), and so is forcing (`Engine.forceLoop_eq`).
-/

namespace CallByNeed
set_option autoImplicit false

variable {ν σ : Type}

namespace Engine

variable {engine : Engine ν σ} {nested : Nested ν σ}

/-- A step beyond the budget stops there. -/
theorem step_exhausted {machine : Machine ν σ} (h : engine.limits.maxSteps ≤ machine.steps)
    (nested : Nested ν σ) (expr : Expr ν) (scope : Scope ν) :
    engine.step nested expr scope machine =
      (.error (.outOfSteps engine.limits.maxSteps), ⟨machine.steps + 1, machine.world⟩) := by
  rw [step_eq, Run.bind_apply, Run.tick_apply, if_pos (Nat.lt_succ_of_le h)]

/-- A step within the budget is counted and announced, and then taken. -/
theorem step_allowed {machine : Machine ν σ} (h : machine.steps < engine.limits.maxSteps)
    (nested : Nested ν σ) (expr : Expr ν) (scope : Scope ν) :
    engine.step nested expr scope machine =
      engine.stepBody nested expr scope ⟨machine.steps + 1, machine.world⟩ := by
  rw [step_eq, Run.bind_apply, Run.tick_apply, if_neg (Nat.not_lt.2 h)]

section Counts

variable (hcounts : nested.Obeys (Law.budget ν σ engine.limits))
include hcounts

theorem step_counts {expr : Expr ν} {scope : Scope ν} {machine after : Machine ν σ}
    {outcome : Outcome ν} (h : engine.step nested expr scope machine = (.ok outcome, after)) :
    machine.steps + 1 ≤ after.steps := by
  rw [step_eq] at h
  have hbody := (engine.budget_lawful.stepBody hcounts expr scope
    ⟨machine.steps + 1, machine.world⟩ (Nat.zero_le _)).1
  rw [Run.ok_of_tick_bind h] at hbody
  exact hbody

/-- Rounds beyond the budget make no difference to a resolution. -/
theorem resolveLoop_rounds {rounds : Nat} (more : Nat) (expr : Expr ν) (scope : Scope ν)
    (pending : List (Scope ν × String)) {machine : Machine ν σ}
    (h : engine.limits.maxSteps ≤ rounds + machine.steps) :
    engine.resolveLoop nested (rounds + more) expr scope pending machine =
      engine.resolveLoop nested rounds expr scope pending machine := by
  induction rounds generalizing expr scope pending machine with
  | zero =>
    cases more with
    | zero => rfl
    | succ more =>
      have hused : engine.limits.maxSteps ≤ machine.steps := by omega
      rw [Nat.zero_add, resolveLoop_step, Run.bind_apply, step_exhausted hused, resolveLoop,
        Run.exhaust_apply]
  | succ rounds ih =>
    rw [Nat.succ_add, resolveLoop_step, resolveLoop_step, Run.bind_apply, Run.bind_apply]
    rcases hstep : engine.step nested expr scope machine with ⟨stop | outcome, after⟩
    · rfl
    · have hafter : engine.limits.maxSteps ≤ rounds + after.steps := by
        have := step_counts hcounts hstep
        omega
      cases outcome with
      | finished head => rfl
      | further next inner => exact ih next inner pending hafter
      | binding name bound owner => exact ih bound owner ((owner, name) :: pending) hafter

end Counts

/-- What is left of a resolution after a step, whatever that step was, is a resolution at the same
depth. -/
theorem resolve_continues {levels rounds : Nat} (expr : Expr ν) (scope : Scope ν)
    {machine : Machine ν σ} (hrounds : rounds ≤ engine.limits.maxSteps)
    (h : engine.limits.maxSteps ≤ rounds + machine.steps) :
    engine.resolveLoop (engine.nested levels) rounds expr scope [] machine =
      (engine.nested (levels + 1)).resolve expr scope machine := by
  have hcounts := nested_obeys engine.budget_lawful levels
  obtain ⟨more, hmore⟩ := Nat.exists_eq_add_of_le hrounds
  show _ = engine.resolveLoop (engine.nested levels) engine.limits.maxSteps expr scope [] machine
  rw [← resolveLoop_rounds hcounts more expr scope [] h, ← hmore]

/-! ## Resolutions without rounds -/

/-- What is left of a resolution after a step with this outcome. -/
def goOn (engine : Engine ν σ) (levels : Nat) : Outcome ν → Run ν σ (Head ν)
  | .finished head => pure head
  | .further next inner => (engine.nested (levels + 1)).resolve next inner
  | .binding name bound owner =>
      (engine.nested (levels + 1)).resolve bound owner >>= fun head =>
        Run.record head [(owner, name)] >>= fun _ => pure head

/-- A resolution beyond the budget stops at its first step. -/
theorem resolve_exhausted {machine : Machine ν σ} (h : engine.limits.maxSteps ≤ machine.steps)
    (levels : Nat) (expr : Expr ν) (scope : Scope ν) :
    (engine.nested (levels + 1)).resolve expr scope machine =
      (.error (.outOfSteps engine.limits.maxSteps), ⟨machine.steps + 1, machine.world⟩) := by
  show engine.resolveLoop (engine.nested levels) engine.limits.maxSteps expr scope [] machine = _
  rcases hmax : engine.limits.maxSteps with _ | rounds
  · rw [resolveLoop, Run.exhaust_apply, hmax]
  · rw [resolveLoop_step, Run.bind_apply, step_exhausted h, hmax]

/-- A resolution within the budget takes a step and goes on from its outcome. -/
theorem resolve_allowed {machine : Machine ν σ} (h : machine.steps < engine.limits.maxSteps)
    (levels : Nat) (expr : Expr ν) (scope : Scope ν) :
    (engine.nested (levels + 1)).resolve expr scope machine =
      (engine.stepBody (engine.nested levels) expr scope >>= engine.goOn levels)
        ⟨machine.steps + 1, machine.world⟩ := by
  obtain ⟨rounds, hrounds⟩ := Nat.exists_eq_add_one.2 (Nat.zero_lt_of_lt h)
  have hcounts := nested_obeys engine.budget_lawful levels
  have hbody := (engine.budget_lawful.stepBody hcounts expr scope
    ⟨machine.steps + 1, machine.world⟩ (Nat.zero_le _)).1
  show engine.resolveLoop (engine.nested levels) engine.limits.maxSteps expr scope [] machine = _
  rw [hrounds, resolveLoop_succ, Run.bind_apply, Run.bind_apply, step_allowed h]
  rcases hstep : engine.stepBody (engine.nested levels) expr scope
    ⟨machine.steps + 1, machine.world⟩ with ⟨stop | outcome, after⟩
  · rfl
  · rw [hstep] at hbody
    have hcounted : machine.steps + 1 ≤ after.steps := hbody
    have hcontinues (next : Expr ν) (inner : Scope ν) :
        engine.resolveLoop (engine.nested levels) rounds next inner [] after =
          (engine.nested (levels + 1)).resolve next inner after :=
      resolve_continues next inner (by omega) (by omega)
    cases outcome with
    | finished head => rfl
    | further next inner => exact hcontinues next inner
    | binding name bound owner =>
      dsimp only [goOn]
      rw [Run.bind_apply, Run.bind_apply, hcontinues]

/-! ## Forcing without rounds -/

/-- A resolution that comes to something has taken a step. -/
theorem resolve_advances {levels : Nat} {expr : Expr ν} {scope : Scope ν}
    {machine after : Machine ν σ} {head : Head ν}
    (h : (engine.nested (levels + 1)).resolve expr scope machine = (.ok head, after)) :
    machine.steps + 1 ≤ after.steps := by
  rcases Nat.lt_or_ge machine.steps engine.limits.maxSteps with hlimit | hlimit
  · have hcounts := nested_obeys engine.budget_lawful
    rw [resolve_allowed hlimit] at h
    obtain ⟨outcome, middle, hstep, hgo⟩ := Run.ok_of_bind h
    have hbody := (engine.budget_lawful.stepBody (hcounts levels) expr scope
      ⟨machine.steps + 1, machine.world⟩ (Nat.zero_le _)).1
    have hrest : (engine.goOn levels outcome).Obeys (Law.budget ν σ engine.limits) := by
      cases outcome with
      | finished head => exact Run.obeys_pure head
      | further next inner => exact (hcounts (levels + 1)).resolve next inner
      | binding name bound owner =>
        exact ((hcounts (levels + 1)).resolve bound owner).bind fun head =>
          (engine.budget_lawful.record head _).bind fun _ => Run.obeys_pure head
    have hlater := (hrest middle (Nat.zero_le _)).1
    rw [hstep] at hbody
    rw [hgo] at hlater
    exact Nat.le_trans hbody hlater
  · rw [resolve_exhausted hlimit] at h
    cases h

/-- Rounds beyond the budget make no difference to forcing. -/
theorem forceLoop_rounds {rounds : Nat} (more : Nat) (expr : Expr ν) (scope : Scope ν)
    {machine : Machine ν σ} (h : engine.limits.maxSteps ≤ rounds + machine.steps) :
    engine.forceLoop (rounds + more) expr scope machine =
      engine.forceLoop rounds expr scope machine := by
  induction rounds generalizing expr scope machine with
  | zero =>
    cases more with
    | zero => rfl
    | succ more =>
      have hused : engine.limits.maxSteps ≤ machine.steps := by omega
      rw [Nat.zero_add, forceLoop_succ, Run.bind_apply, resolveTop, resolve_exhausted hused,
        forceLoop, Run.exhaust_apply]
  | succ rounds ih =>
    rw [Nat.succ_add, forceLoop_succ, forceLoop_succ, Run.bind_apply, Run.bind_apply]
    rcases hrun : engine.resolveTop expr scope machine with ⟨stop | head, after⟩
    · rfl
    · have hcounted := resolve_advances hrun
      cases head with
      | terminal result => rfl
      | closure closure =>
        dsimp only
        rw [Run.bind_apply, Run.bind_apply, Run.emit_apply]
        exact ih closure.body closure (show engine.limits.maxSteps ≤ rounds + after.steps by omega)

/-- What forcing makes of a head. -/
def forceOn (engine : Engine ν σ) : Head ν → Run ν σ (Terminal ν)
  | .terminal result => pure result
  | .closure closure => Run.emit (.forcing closure) >>= fun _ =>
      engine.forceLoop engine.limits.maxSteps closure.body closure

/-- Forcing resolves, and goes on from the head. -/
theorem forceLoop_eq (engine : Engine ν σ) (expr : Expr ν) (scope : Scope ν) :
    engine.forceLoop engine.limits.maxSteps expr scope =
      engine.resolveTop expr scope >>= engine.forceOn := by
  funext machine
  rcases hmax : engine.limits.maxSteps with _ | rounds
  · have hused : engine.limits.maxSteps ≤ machine.steps := by omega
    rw [Run.bind_apply, resolveTop, resolve_exhausted hused, forceLoop, Run.exhaust_apply]
  · rw [forceLoop_succ, Run.bind_apply, Run.bind_apply]
    rcases hrun : engine.resolveTop expr scope machine with ⟨stop | head, after⟩
    · rfl
    · have hcounted := resolve_advances hrun
      cases head with
      | terminal result => rfl
      | closure closure =>
        dsimp only [forceOn]
        have hrounds : engine.forceLoop (rounds + 1) closure.body closure
            ⟨after.steps, after.world.emit (.forcing closure)⟩ =
              engine.forceLoop rounds closure.body closure
                ⟨after.steps, after.world.emit (.forcing closure)⟩ :=
          forceLoop_rounds 1 closure.body closure
            (show engine.limits.maxSteps ≤ rounds + after.steps by omega)
        rw [Run.bind_apply, Run.bind_apply, Run.emit_apply, hmax]
        exact hrounds.symm

end Engine
end CallByNeed
