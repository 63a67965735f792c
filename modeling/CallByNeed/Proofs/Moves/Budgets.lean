import CallByNeed.Proofs.Limits.Evaluations
import CallByNeed.Proofs.Moves.Adequacy
import CallByNeed.Proofs.Moves.Next

/-! # Budgets

Whatever an evaluation reduces and whatever its natives do, it ends within its limits, and no limit
that was hit can be masked: `budgets_enforced`. One invariant of the moves bounds the depth of all
loops that take steps (`Control.WithinDepth`), another says that a stop leaves one part after the
other until the evaluation is over, with nothing done on the way (`Moment.Stopping`).
-/

namespace CallByNeed
set_option autoImplicit false

variable {ν σ : Type} {part : Part}

/-- Nothing has been done since, but that the end of a program's evaluation may be an event. -/
def Machine.Idle (before after : Machine ν σ) : Prop :=
  after = before ∨ after = ⟨before.steps, before.world.emit (.finished before.steps)⟩

theorem Machine.Idle.steps {before after : Machine ν σ} (h : before.Idle after) :
    after.steps = before.steps := by
  obtain rfl | rfl := h <;> rfl

/-- The check of the budget refuses the next step. -/
def Engine.RefusesStep (engine : Engine ν σ) : Moment ν σ → Prop
  | ⟨.count _ _ _, machine⟩ => engine.limits.maxSteps < machine.steps + 1
  | _ => False

/-- The check of the depth refuses the loop that is to begin. -/
def Engine.RefusesLoop (engine : Engine ν σ) : Moment ν σ → Prop
  | ⟨.enter _ _ rest, _⟩ => engine.limits.maxDepth < rest.depth
  | ⟨.enterName _ _ rest, _⟩ => engine.limits.maxDepth < rest.depth
  | _ => False

/-- What the limits do to an evaluation. The machine of a moment in which a check refuses something
is compared with the machines of all later ones. -/
structure Engine.EnforcesBudgets (engine : Engine ν σ) (request : Evaluation ν)
    (world : World ν σ) : Prop where
  /-- The evaluation ends, with what `Engine.evaluate` gives. -/
  ends : ∃ moves, engine.after moves (request.start world) =
    (engine.evaluate request world).moment
  steps_le : (engine.evaluate request world).steps ≤ engine.limits.maxSteps + 1
  /-- One step too many has been counted only if it was refused. -/
  exceeds : (engine.evaluate request world).steps = engine.limits.maxSteps + 1 →
    ∃ moves, engine.RefusesStep (engine.after moves (request.start world))
  /-- After a step was refused nothing is done any more, and the exhausted budget is reported. -/
  step_refused : ∀ moves, engine.RefusesStep (engine.after moves (request.start world)) →
    (engine.evaluate request world).steps = engine.limits.maxSteps + 1 ∧
    (engine.evaluate request world).reported =
      .error (.stepBudgetExhausted engine.limits.maxSteps) ∧
    ∀ more, Machine.Idle
      ⟨engine.limits.maxSteps + 1, (engine.after moves (request.start world)).machine.world⟩
      (engine.after (moves + 1 + more) (request.start world)).machine
  /-- No loop counts a step below the lowest level. -/
  depth_le : ∀ moves expr scope rest machine,
    engine.after moves (request.start world) = ⟨.count expr scope rest, machine⟩ →
      rest.depth ≤ engine.limits.maxDepth
  /-- After a loop was refused nothing is done any more, and the lowest level is reported. -/
  loop_refused : ∀ moves, engine.RefusesLoop (engine.after moves (request.start world)) →
    (engine.evaluate request world).reported = .error (.recursionLimit engine.limits.maxDepth) ∧
    ∀ more, Machine.Idle (engine.after moves (request.start world)).machine
      (engine.after (moves + 1 + more) (request.start world)).machine

/-! ## Depth -/

/-- The loops that have begun lie no deeper than so many levels. -/
def Control.WithinDepth (levels : Nat) : Control ν → Prop
  | .enter _ _ rest => rest.depth ≤ levels + 1
  | .enterName _ _ rest => rest.depth ≤ levels + 1
  | .position _ _ rest => rest.depth ≤ levels
  | .count _ _ rest | .report _ _ rest | .reduce _ _ rest | .outcome _ rest
  | .arguments _ _ _ _ rest => rest.depth ≤ levels
  | .head _ rest => rest.depth ≤ levels
  | .name _ rest => rest.depth ≤ levels
  | .close _ _ rest | .bind _ _ _ _ rest | .closure _ rest => rest.depth ≤ levels
  | .hand _ _ _ rest => rest.depth ≤ levels
  | .raise _ _ | .ended _ => True

/-- A part that begins inside another lies one level deeper, and only what lies within the limits
begins. -/
theorem Control.Next.withinDepth {limits : Limits} {control next : Control ν}
    (h : control.Next limits next) (hwithin : control.WithinDepth limits.maxDepth) :
    next.WithinDepth limits.maxDepth := by
  cases h with
  | raise | ended => trivial
  | enter hdepth | enterName hdepth => exact hdepth
  | application | bindings | arguments => exact Nat.succ_le_succ hwithin
  | operator | ignored | argument | bound => exact Nat.le_of_succ_le hwithin
  | forced | interpreted | applied => exact Nat.zero_le _
  | _ => exact hwithin

namespace Engine

variable (engine : Engine ν σ)

theorem after_withinDepth (request : Evaluation ν) (world : World ν σ) (moves : Nat) :
    (engine.after moves (request.start world)).control.WithinDepth engine.limits.maxDepth := by
  have hstart : (request.start world).control.WithinDepth engine.limits.maxDepth := by
    cases request <;> exact Nat.zero_le _
  exact engine.after_control Control.Next.withinDepth hstart moves

end Engine

/-! ## Stops -/

/-- A stop is on its way from the innermost part to the end of the evaluation. -/
inductive Moment.Stopping (stop : Stop) (machine : Machine ν σ) : Moment ν σ → Prop where
  | raising {part : Part} (rest : Rest ν part) : Stopping stop machine ⟨.raise stop rest, machine⟩
  | ended {after : Machine ν σ} (h : machine.Idle after) :
      Stopping stop machine ⟨.ended (.error stop), after⟩

namespace Engine

variable {engine : Engine ν σ} {request : Evaluation ν} {world : World ν σ} {stop : Stop}
  {machine : Machine ν σ}

theorem move_stopping {moment : Moment ν σ} (h : moment.Stopping stop machine) :
    (engine.move moment).Stopping stop machine := by
  cases h with
  | raising rest =>
    cases rest with
    | resolved => exact .ended (.inl rfl)
    | forced => exact .ended (.inl rfl)
    | closed => exact .ended (.inl rfl)
    | called => exact .ended (.inl rfl)
    | interpreted => exact .ended (.inr rfl)
    | applied arguments scope => exact .raising _
    | operator arguments scope rest => exact .raising _
    | argument callee done more scope rest => exact .raising _
    | binding bound more table body scope rest => exact .raising _
    | toHead pending rest => exact .raising _
    | toName rest => exact .raising _
    | lambda rest => exact .raising _
    | step rest => exact .raising _
  | ended h => exact .ended h

/-- A stop is what the evaluation ends with, and nothing is done before that. -/
theorem stops {rest : Rest ν part} {moves : Nat}
    (h : engine.move (engine.after moves (request.start world)) = ⟨.raise stop rest, machine⟩) :
    (engine.evaluate request world).outcome = .error stop ∧
    machine.Idle ⟨(engine.evaluate request world).steps, (engine.evaluate request world).world⟩ ∧
    ∀ more, machine.Idle (engine.after (moves + 1 + more) (request.start world)).machine := by
  have hstopping : ∀ more,
      (engine.after (moves + 1 + more) (request.start world)).Stopping stop machine := by
    intro more
    rw [after_add, after_succ, h]
    exact engine.after_invariant (Moment.Stopping stop machine)
      (fun _ => move_stopping) (.raising rest) more
  have hend : (engine.evaluate request world).moment.Stopping stop machine := by
    obtain ⟨total, hover⟩ := evaluate_over engine request world
    rw [← hover (moves + 1 + total) (Nat.le_add_left _ _)]
    exact hstopping total
  generalize hmoment : (engine.evaluate request world).moment = moment at hend
  refine ⟨?_, ?_, fun more => ?_⟩
  · cases hend with
    | raising rest => cases hmoment
    | ended hidle => exact Control.ended.inj (congrArg Moment.control hmoment)
  · cases hend with
    | raising rest => cases hmoment
    | ended hidle =>
      rw [show (⟨(engine.evaluate request world).steps, (engine.evaluate request world).world⟩ :
        Machine ν σ) = _ from congrArg Moment.machine hmoment]
      exact hidle
  · have hlater := hstopping more
    generalize engine.after (moves + 1 + more) (request.start world) = later at hlater
    cases hlater with
    | raising rest => exact .inl rfl
    | ended hidle => exact hidle

/-! ## Refusals -/

theorem move_of_refusesStep {moment : Moment ν σ} (h : engine.RefusesStep moment) :
    ∃ rest : Rest ν .outcome, engine.move moment =
      ⟨.raise (.outOfSteps engine.limits.maxSteps) rest, moment.machine.steps + 1,
        moment.machine.world⟩ := by
  obtain ⟨control, machine⟩ := moment
  cases control with
  | count expr scope rest => exact ⟨rest, move_count_exhausted h⟩
  | _ => exact absurd h not_false

theorem move_of_refusesLoop {moment : Moment ν σ} (h : engine.RefusesLoop moment) :
    ∃ (part : Part) (rest : Rest ν part), engine.move moment =
      ⟨.raise (.outOfDepth engine.limits.maxDepth) rest, moment.machine⟩ := by
  obtain ⟨control, machine⟩ := moment
  cases control with
  | enter expr scope rest =>
    refine ⟨.head, rest, ?_⟩
    rw [move, permit_of_lt h]
    rfl
  | enterName position scope rest =>
    refine ⟨.name, rest, ?_⟩
    rw [move, permit_of_lt h]
    rfl
  | _ => exact absurd h not_false

/-- The first step beyond the budget was refused. -/
theorem refusesStep_of_steps (moves : Nat)
    (h : engine.limits.maxSteps < (engine.after moves (request.start world)).machine.steps) :
    ∃ earlier, engine.RefusesStep (engine.after earlier (request.start world)) := by
  induction moves with
  | zero => exact absurd h (Nat.not_lt_zero _)
  | succ moves ih =>
    by_cases hearlier : engine.limits.maxSteps <
        (engine.after moves (request.start world)).machine.steps
    · exact ih hearlier
    · refine ⟨moves, ?_⟩
      rw [after_succ, move_steps] at h
      generalize engine.after moves (request.start world) = moment at h hearlier
      obtain ⟨control, machine⟩ := moment
      cases control with
      | count expr scope rest => exact h
      | _ => exact absurd h hearlier

/-- Every evaluation ends within its limits. A limit that is hit is what the evaluation reports,
and nothing happens after it is hit. -/
theorem budgets_enforced (engine : Engine ν σ) (request : Evaluation ν) (world : World ν σ) :
    engine.EnforcesBudgets request world := by
  have hspends := engine.evaluate_spends request world
  obtain ⟨total, htotal⟩ := evaluate_reached engine request world
  refine ⟨⟨total, htotal⟩, ?_, fun hsteps => ?_, fun moves hrefuses => ?_, ?_,
    fun moves hrefuses => ?_⟩
  · rcases hout : stop? (engine.evaluate request world).outcome with
      _ | (failure | maxSteps | maxDepth) <;> rw [hout] at hspends
    · exact Nat.le_succ_of_le hspends
    · exact Nat.le_succ_of_le hspends
    · exact Nat.le_of_eq hspends.2
    · exact Nat.le_succ_of_le hspends
  · refine refusesStep_of_steps total ?_
    rw [htotal]
    exact Nat.lt_of_lt_of_eq (Nat.lt_succ_self _) hsteps.symm
  · obtain ⟨rest, hmove⟩ := move_of_refusesStep hrefuses
    obtain ⟨hout, hlast, hidle⟩ := stops hmove
    have hsteps := evaluate_steps_of_outOfSteps hout
    refine ⟨hsteps, ?_, fun more => ?_⟩
    · rw [Evaluated.reported, hout]
      rfl
    · have hcounted : (engine.evaluate request world).steps =
          (engine.after moves (request.start world)).machine.steps + 1 := hlast.steps
      rw [← hsteps, hcounted]
      exact hidle more
  · intro moves expr scope rest machine hmoment
    have h := engine.after_withinDepth request world moves
    rwa [hmoment] at h
  · obtain ⟨part, rest, hmove⟩ := move_of_refusesLoop hrefuses
    obtain ⟨hout, -, hidle⟩ := stops hmove
    refine ⟨?_, hidle⟩
    rw [Evaluated.reported, hout]
    rfl

end Engine
end CallByNeed
