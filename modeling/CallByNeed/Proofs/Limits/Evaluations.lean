import CallByNeed.Proofs.Limits.Cuts
import CallByNeed.Host.Natives

/-! # What limits do to evaluations

An evaluation that hits no limit is the same under all larger limits. One that hits a limit has done
a part of what it does under larger limits: its native calls come first there, and its records stay.
How many steps an evaluation takes decides for which budgets it succeeds
(`Host.evaluate_limits`).
-/

namespace CallByNeed
set_option autoImplicit false

variable {ν σ : Type}

/-! ## The budget -/

/-- Whether a run that ended like this may have taken so many steps. Running out of them is taking
one too many. -/
def Limits.Spends (limits : Limits) : Option Stop → Nat → Prop
  | some (.outOfSteps maxSteps), steps =>
      maxSteps = limits.maxSteps ∧ steps = limits.maxSteps + 1
  | _, steps => steps ≤ limits.maxSteps

/-- The law that no run takes more steps than the budget, and the one that exceeds it. -/
def Law.budget (ν σ : Type) (limits : Limits) : Law ν σ where
  holds before stop after := before.steps ≤ after.steps ∧
    (before.steps ≤ limits.maxSteps → limits.Spends stop after.steps)
  refl _ := ⟨Nat.le_refl _, id⟩
  trans h h' := ⟨Nat.le_trans h.1 h'.1, fun hwithin => h'.2 (h.2 hwithin)⟩
  steps h := h.1

namespace Engine

theorem budget_lawful (engine : Engine ν σ) :
    engine.Lawful (Law.budget ν σ engine.limits) where
  tick machine _ := by
    rw [Run.tick_apply]
    by_cases h : engine.limits.maxSteps < machine.steps + 1
    · rw [if_pos h]
      refine ⟨Nat.le_succ _, fun hwithin => ⟨rfl, ?_⟩⟩
      show machine.steps + 1 = engine.limits.maxSteps + 1
      omega
    · rw [if_neg h]
      exact ⟨Nat.le_succ _, fun _ => Nat.le_of_not_lt h⟩
  change _ _ _ _ := ⟨Nat.le_refl _, id⟩
  failed _ _ := ⟨Nat.le_refl _, id⟩
  tooDeep _ := ⟨Nat.le_refl _, id⟩
  finished h := h

variable {engine : Engine ν σ} {request : Evaluation ν} {world : World ν σ}

theorem evaluate_spends (engine : Engine ν σ) (request : Evaluation ν) (world : World ν σ) :
    engine.limits.Spends (stop? (engine.evaluate request world).outcome)
      (engine.evaluate request world).steps :=
  (evaluate_obeys engine.budget_lawful request world).2 (Nat.zero_le _)

/-- An evaluation that hits no limit stays within the budget. -/
theorem evaluate_steps_le (h : (engine.evaluate request world).isCut = false) :
    (engine.evaluate request world).steps ≤ engine.limits.maxSteps := by
  have hspends := engine.evaluate_spends request world
  unfold Evaluated.isCut at h
  rcases hout : (engine.evaluate request world).outcome with stop | result
  · rw [hout] at h hspends
    cases stop with
    | failed failure => exact hspends
    | outOfSteps maxSteps => simp [Stop.isLimit] at h
    | outOfDepth maxDepth => simp [Stop.isLimit] at h
  · rw [hout] at hspends
    exact hspends

/-- An evaluation that runs out of steps has taken one more than permitted. -/
theorem evaluate_steps_of_outOfSteps {maxSteps : Nat}
    (h : (engine.evaluate request world).outcome = .error (.outOfSteps maxSteps)) :
    (engine.evaluate request world).steps = engine.limits.maxSteps + 1 := by
  have hspends := engine.evaluate_spends request world
  rw [h] at hspends
  exact hspends.2

end Engine

/-! ## The limits that are hit -/

/-- If the stop is due to a limit, it is due to one of these. -/
def Limits.Explain (limits : Limits) : Option Stop → Prop
  | some (.outOfSteps maxSteps) => maxSteps = limits.maxSteps
  | some (.outOfDepth maxDepth) => maxDepth = limits.maxDepth
  | some (.failed _) | none => True

/-- The law that a run hits no limits but its own. -/
def Law.ownLimits (ν σ : Type) (limits : Limits) : Law ν σ where
  holds before stop after := before.steps ≤ after.steps ∧ limits.Explain stop
  refl _ := ⟨Nat.le_refl _, trivial⟩
  trans h h' := ⟨Nat.le_trans h.1 h'.1, h'.2⟩
  steps h := h.1

namespace Engine

theorem ownLimits_lawful (engine : Engine ν σ) :
    engine.Lawful (Law.ownLimits ν σ engine.limits) where
  tick machine _ := by
    rw [Run.tick_apply]
    by_cases h : engine.limits.maxSteps < machine.steps + 1
    · rw [if_pos h]
      exact ⟨Nat.le_succ _, rfl⟩
    · rw [if_neg h]
      exact ⟨Nat.le_succ _, trivial⟩
  change _ _ _ _ := ⟨Nat.le_refl _, trivial⟩
  failed _ _ := ⟨Nat.le_refl _, trivial⟩
  tooDeep _ := ⟨Nat.le_refl _, rfl⟩
  finished h := h

/-- An evaluation that stops at a limit reports the limit of its engine. -/
theorem evaluate_reports_limit {engine : Engine ν σ} {request : Evaluation ν} {world : World ν σ}
    {stop : Stop} (h : (engine.evaluate request world).outcome = .error stop)
    (hlimit : stop.isLimit = true) :
    (engine.evaluate request world).reported =
        .error (.stepBudgetExhausted engine.limits.maxSteps) ∨
      (engine.evaluate request world).reported =
        .error (.recursionLimit engine.limits.maxDepth) := by
  obtain ⟨-, hexplain⟩ := evaluate_obeys engine.ownLimits_lawful request world
  rw [h] at hexplain
  unfold Evaluated.reported
  rw [h]
  cases stop with
  | failed failure => cases hlimit
  | outOfSteps maxSteps =>
    obtain rfl : maxSteps = engine.limits.maxSteps := hexplain
    exact .inl rfl
  | outOfDepth maxDepth =>
    obtain rfl : maxDepth = engine.limits.maxDepth := hexplain
    exact .inr rfl

end Engine

/-! ## Two limits -/

namespace Host

variable (host : Host ν σ) (levels : Nat)

/-- Under smaller limits an evaluation is the same, or it is stopped and goes on under the larger
ones. -/
theorem evaluate_cuts (small large : Limits) (hsteps : small.maxSteps ≤ large.maxSteps)
    (hdepth : small.maxDepth ≤ large.maxDepth) (request : Evaluation ν) (world : World ν σ) :
    (host.engine levels small).evaluate request world =
        (host.engine levels large).evaluate request world ∨
      ∃ stop, ((host.engine levels small).evaluate request world).outcome = .error stop ∧
        small.Cut large stop ∧
        ((host.engine levels small).evaluate request world).steps ≤
          ((host.engine levels large).evaluate request world).steps ∧
        ((host.engine levels small).evaluate request world).world.Extends
          ((host.engine levels large).evaluate request world).world := by
  have hcuts := Engine.run_cuts (host.engine_extension levels large) hsteps hdepth request
  rcases hcuts.outcome ⟨0, world⟩ (Nat.le_refl _) with heq | hcut
  · left
    show Run.execute _ _ = Run.execute _ _
    unfold Run.execute
    rw [show (host.engine levels small).run request ⟨0, world⟩ =
      (host.engine levels large).run request ⟨0, world⟩ from heq]
  · exact .inr hcut

/-- What a limit that is not hit would have been does not matter. -/
theorem evaluate_eq_of_not_cut (small large : Limits)
    (hsteps : small.maxSteps ≤ large.maxSteps) (hdepth : small.maxDepth ≤ large.maxDepth)
    {request : Evaluation ν} {world : World ν σ}
    (h : ((host.engine levels small).evaluate request world).isCut = false) :
    (host.engine levels large).evaluate request world =
      (host.engine levels small).evaluate request world := by
  rcases host.evaluate_cuts levels small large hsteps hdepth request world with
    heq | ⟨stop, hstop, hcut, -⟩
  · exact heq.symm
  · have hlimit : stop.isLimit = false := by
      simpa [Evaluated.isCut, hstop] using h
    rw [hcut.isLimit] at hlimit
    cases hlimit

/-- With fewer steps than an evaluation takes, it takes all of them and one more. -/
theorem evaluate_of_fewer_steps {limits : Limits} {request : Evaluation ν} {world : World ν σ}
    (h : ((host.engine levels limits).evaluate request world).isCut = false) {maxSteps : Nat}
    (hless : maxSteps < ((host.engine levels limits).evaluate request world).steps) :
    ((host.engine levels ⟨maxSteps, limits.maxDepth⟩).evaluate request world).outcome =
        .error (.outOfSteps maxSteps) ∧
      ((host.engine levels ⟨maxSteps, limits.maxDepth⟩).evaluate request world).steps =
        maxSteps + 1 := by
  have hwithin := Engine.evaluate_steps_le h
  have hsteps : maxSteps ≤ limits.maxSteps :=
    Nat.le_trans (Nat.le_of_lt hless) hwithin
  have hcuts := host.evaluate_cuts levels ⟨maxSteps, limits.maxDepth⟩ limits hsteps
    (Nat.le_refl _) request world
  rcases hcuts with heq | ⟨stop, hstop, hcut, -⟩
  · -- Within the smaller budget the evaluation cannot take all its steps.
    rw [← heq] at h hless
    exact absurd (Engine.evaluate_steps_le h) (Nat.not_le.2 hless)
  · cases hcut with
    | steps => exact ⟨hstop, Engine.evaluate_steps_of_outOfSteps hstop⟩
    | depth hlt => exact absurd hlt (Nat.lt_irrefl _)

/-- As many steps as an evaluation takes are enough for it. -/
theorem evaluate_of_enough_steps {limits : Limits} {request : Evaluation ν} {world : World ν σ}
    (h : ((host.engine levels limits).evaluate request world).isCut = false) {maxSteps : Nat}
    (henough : ((host.engine levels limits).evaluate request world).steps ≤ maxSteps) :
    (host.engine levels ⟨maxSteps, limits.maxDepth⟩).evaluate request world =
      (host.engine levels limits).evaluate request world := by
  by_cases hle : limits.maxSteps ≤ maxSteps
  · exact host.evaluate_eq_of_not_cut levels limits ⟨maxSteps, limits.maxDepth⟩ hle (Nat.le_refl _) h
  · have hcuts := host.evaluate_cuts levels ⟨maxSteps, limits.maxDepth⟩ limits
      (Nat.le_of_lt (Nat.lt_of_not_le hle)) (Nat.le_refl _) request world
    rcases hcuts with heq | ⟨stop, hstop, hcut, hsteps, -⟩
    · exact heq
    · cases hcut with
      | steps =>
        have hexceeded := Engine.evaluate_steps_of_outOfSteps hstop
        have hmax : (host.engine levels ⟨maxSteps, limits.maxDepth⟩).limits.maxSteps = maxSteps :=
          rfl
        omega
      | depth hlt => exact absurd hlt (Nat.lt_irrefl _)

/-- Limits only cut an evaluation short. -/
theorem evaluate_limits (request : Evaluation ν) (world : World ν σ) :
    (∀ small large : Limits, small.maxSteps ≤ large.maxSteps →
      small.maxDepth ≤ large.maxDepth →
      let cut := (host.engine levels small).evaluate request world
      let full := (host.engine levels large).evaluate request world
      (cut.isCut = false → full = cut) ∧
      (cut.isCut = true →
        (∃ made later, cut.world.calls = world.calls ++ made ∧
          full.world.calls = world.calls ++ made ++ later) ∧
        ∀ scope name result, cut.world.memoized scope name = some result →
          full.world.memoized scope name = some result)) ∧
    ∀ limits : Limits,
      let whole := (host.engine levels limits).evaluate request world
      whole.isCut = false →
      (∀ maxSteps, whole.steps ≤ maxSteps →
        (host.engine levels ⟨maxSteps, limits.maxDepth⟩).evaluate request world = whole) ∧
      ∀ maxSteps, maxSteps < whole.steps →
        let short := (host.engine levels ⟨maxSteps, limits.maxDepth⟩).evaluate request world
        short.reported = .error (.stepBudgetExhausted maxSteps) ∧
          short.isCut = true ∧ short.steps = maxSteps + 1 := by
  constructor
  · intro small large hsteps hdepth
    constructor
    · exact host.evaluate_eq_of_not_cut levels small large hsteps hdepth
    · intro _
      have hextends : ((host.engine levels small).evaluate request world).world.Extends
          ((host.engine levels large).evaluate request world).world := by
        rcases host.evaluate_cuts levels small large hsteps hdepth request world with
          heq | ⟨stop, -, -, -, hworld⟩
        · rw [heq]
          exact .refl _
        · exact hworld
      obtain ⟨made, hmade⟩ := (host.evaluate_extends levels small request world).calls
      obtain ⟨later, hlater⟩ := hextends.calls
      refine ⟨⟨made, later, hmade.symm, ?_⟩, fun scope name result => hextends.grows.record⟩
      rw [hmade, hlater]
  · intro limits whole h
    refine ⟨fun maxSteps henough => host.evaluate_of_enough_steps levels h henough, ?_⟩
    intro maxSteps hless
    obtain ⟨houtcome, hsteps⟩ := host.evaluate_of_fewer_steps levels h hless
    refine ⟨?_, ?_, hsteps⟩
    · unfold Evaluated.reported
      rw [houtcome]
      rfl
    · unfold Evaluated.isCut
      rw [houtcome]
      rfl

def sumOfSums : Expr StandardNative :=
  let number (value : Int) : Expr StandardNative := .value ⟨.supplied 0, .integer .i64 value⟩
  let sum (first second : Expr StandardNative) : Expr StandardNative :=
    .application (.native ⟨"add", .add⟩) [first, second]
  sum (sum (number 1) (number 2)) (sum (number 3) (number 4))

/-- Nine steps are enough for the first of the inner sums, thirteen for everything. -/
theorem evaluate_limits_sumOfSums :
    let evaluate := fun limits => (standardHost.engine 1 limits).evaluate
      (.force sumOfSums (.root 0 .empty)) (.initial .initial)
    evaluate ⟨30, 5⟩ = evaluate ⟨20, 4⟩ ∧ evaluate ⟨13, 4⟩ = evaluate ⟨20, 4⟩ ∧
      (evaluate ⟨9, 4⟩).reported = .error (.stepBudgetExhausted 9) ∧
      ∃ made later, made.length = 1 ∧ (evaluate ⟨9, 4⟩).world.calls = made ∧
        (evaluate ⟨20, 4⟩).world.calls = made ++ later := by
  intro evaluate
  have h := evaluate_limits standardHost 1 (.force sumOfSums (.root 0 .empty)) (.initial .initial)
  obtain ⟨hpair, hsteps⟩ := h
  have hwhole := hsteps ⟨20, 4⟩ (by decide)
  obtain ⟨⟨made, later, hmade, hlater⟩, -⟩ :=
    (hpair ⟨9, 4⟩ ⟨20, 4⟩ (by decide) (by decide)).2 (by decide)
  refine ⟨(hpair ⟨20, 4⟩ ⟨30, 5⟩ (by decide) (by decide)).1 (by decide),
    hwhole.1 13 (by decide), (hwhole.2 9 (by decide)).1, made, later, ?_, hmade, hlater⟩
  have hlength : (evaluate ⟨9, 4⟩).world.calls.length = 1 := rfl
  rw [← hlength, hmade]
  rfl

end Host
end CallByNeed
