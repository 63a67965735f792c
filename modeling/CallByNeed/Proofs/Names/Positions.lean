import CallByNeed.Proofs.Names.Registered
import CallByNeed.Proofs.Runs.Rounds

/-! # What a name position comes to

A name position is stepped until it arrives at an identifier, which is the name and is not looked
up, or ends in a value that spells one (`Engine.Arrives`). The search for a name does these steps
and no others, as often as the budget allows, one level below the lambda (`Engine.bindingName_iff`).
-/

namespace CallByNeed
set_option autoImplicit false

variable {ν σ : Type}

/-- What a name position comes to when it is stepped with so many levels below it, and the machine
it leaves. -/
inductive Engine.Arrives (engine : Engine ν σ) (levels : Nat) :
    Expr ν → Scope ν → Machine ν σ → Except Stop String → Machine ν σ → Prop where
  /-- An identifier is the name itself: no step is taken of it. -/
  | identifier {name : String} (scope : Scope ν) (machine : Machine ν σ)
      (hname : positional? name = none) :
      Arrives engine levels (.identifier name) scope machine (.ok name) machine
  | reserved {name : String} {index : Nat} (scope : Scope ν) (machine : Machine ν σ)
      (hname : positional? name = some index) :
      Arrives engine levels (.identifier name) scope machine
        (.error (.failed (.invalidBindingName name))) machine
  | stops {expr : Expr ν} {scope : Scope ν} {machine after : Machine ν σ} {stop : Stop}
      (hexpr : expr.identifier? = none)
      (hstep : engine.step (engine.nested levels) expr scope machine = (.error stop, after)) :
      Arrives engine levels expr scope machine (.error stop) after
  | spelled {expr : Expr ν} {scope : Scope ν} {machine after : Machine ν σ} {value : Value ν}
      {name : String} (hexpr : expr.identifier? = none)
      (hstep : engine.step (engine.nested levels) expr scope machine =
        (.ok (.finished (.terminal (.value value))), after))
      (hvalue : value.name? = some name) :
      Arrives engine levels expr scope machine (.ok name) after
  /-- A head that is not the value of a name is reported as it is displayed. -/
  | nameless {expr : Expr ν} {scope : Scope ν} {machine after : Machine ν σ} {head : Head ν}
      (hexpr : expr.identifier? = none)
      (hstep : engine.step (engine.nested levels) expr scope machine =
        (.ok (.finished head), after))
      (hhead : head.name? = none) :
      Arrives engine levels expr scope machine
        (.error (.failed (.invalidBindingName head.toExpr.display))) after
  | further {expr next : Expr ν} {scope inner : Scope ν} {machine middle after : Machine ν σ}
      {outcome : Except Stop String} (hexpr : expr.identifier? = none)
      (hstep : engine.step (engine.nested levels) expr scope machine =
        (.ok (.further next inner), middle))
      (hnext : Arrives engine levels next inner middle outcome after) :
      Arrives engine levels expr scope machine outcome after

/-- What a name position comes to with so many levels allowed, if any. -/
inductive Engine.Names (engine : Engine ν σ) (position : Expr ν) (scope : Scope ν)
    (machine : Machine ν σ) : Nat → Except Stop String → Machine ν σ → Prop where
  | tooDeep :
      Names engine position scope machine 0 (.error (.outOfDepth engine.limits.maxDepth)) machine
  | arrives {levels : Nat} {outcome : Except Stop String} {after : Machine ν σ}
      (h : engine.Arrives levels position scope machine outcome after) :
      Names engine position scope machine (levels + 1) outcome after

namespace Engine

variable {engine : Engine ν σ} {levels rounds : Nat} {expr : Expr ν} {scope : Scope ν}
  {machine after : Machine ν σ} {outcome : Except Stop String}

/-- A search whose rounds cover the rest of the budget takes a step of anything but an
identifier. -/
theorem nameLoop_covered (hexpr : expr.identifier? = none)
    (hrounds : engine.limits.maxSteps ≤ rounds + machine.steps) :
    engine.nameLoop (engine.nested levels) rounds expr scope machine =
      (engine.step (engine.nested levels) expr scope >>=
        engine.nameAfterStep (engine.nested levels) (rounds - 1)) machine := by
  cases rounds with
  | zero =>
    have hused : engine.limits.maxSteps ≤ machine.steps := by omega
    rw [nameLoop_zero _ _ _ _ hexpr, Run.exhaust_apply, Run.bind_apply, step_exhausted hused]
  | succ rounds => rw [nameLoop_succ _ _ _ _ _ hexpr, Nat.add_sub_cancel]

/-- The rest of the budget is covered after a step. -/
theorem covered_of_step {result : Outcome ν}
    (hstep : engine.step (engine.nested levels) expr scope machine = (.ok result, after))
    (hrounds : engine.limits.maxSteps ≤ rounds + machine.steps) :
    engine.limits.maxSteps ≤ rounds - 1 + after.steps := by
  have := step_counts (nested_obeys engine.budget_lawful levels) hstep
  omega

theorem Arrives.nameLoop (h : engine.Arrives levels expr scope machine outcome after)
    (hrounds : engine.limits.maxSteps ≤ rounds + machine.steps) :
    engine.nameLoop (engine.nested levels) rounds expr scope machine = (outcome, after) := by
  induction h generalizing rounds with
  | identifier scope machine hname =>
    rw [nameLoop_identifier, ownName, hname]
    rfl
  | reserved scope machine hname =>
    rw [nameLoop_identifier, ownName, hname]
    rfl
  | stops hexpr hstep => rw [nameLoop_covered hexpr hrounds, Run.bind_apply, hstep]
  | spelled hexpr hstep hvalue =>
    rw [nameLoop_covered hexpr hrounds, Run.bind_apply, hstep]
    dsimp only [nameAfterStep, Head.name?]
    rw [hvalue]
    rfl
  | nameless hexpr hstep hhead =>
    rw [nameLoop_covered hexpr hrounds, Run.bind_apply, hstep]
    dsimp only [nameAfterStep]
    rw [hhead]
    rfl
  | further hexpr hstep hnext ih =>
    rw [nameLoop_covered hexpr hrounds, Run.bind_apply, hstep]
    exact ih (covered_of_step hstep hrounds)

theorem arrives_of_identifier (engine : Engine ν σ) (levels : Nat) (name : String)
    (scope : Scope ν) (machine : Machine ν σ) :
    ∃ outcome after, engine.Arrives levels (.identifier name) scope machine outcome after := by
  cases hname : positional? name with
  | none => exact ⟨_, _, .identifier scope machine hname⟩
  | some index => exact ⟨_, _, .reserved scope machine hname⟩

/-- Whatever the steps of a name position do, it comes to something. -/
theorem arrives_of_covered (engine : Engine ν σ) (levels : Nat) (expr : Expr ν) (scope : Scope ν)
    (hrounds : engine.limits.maxSteps ≤ rounds + machine.steps) :
    ∃ outcome after, engine.Arrives levels expr scope machine outcome after := by
  induction rounds generalizing expr scope machine with
  | zero =>
    cases hexpr : expr.identifier? with
    | some name =>
      cases expr <;> cases hexpr
      exact arrives_of_identifier engine levels name scope machine
    | none => exact ⟨_, _, .stops hexpr (step_exhausted (by omega) _ _ _)⟩
  | succ rounds ih =>
    cases hexpr : expr.identifier? with
    | some name =>
      cases expr <;> cases hexpr
      exact arrives_of_identifier engine levels name scope machine
    | none =>
      rcases hstep : engine.step (engine.nested levels) expr scope machine with
        ⟨stop | result, middle⟩
      · exact ⟨_, _, .stops hexpr hstep⟩
      · cases result with
        | finished head =>
          cases hhead : head.name? with
          | none => exact ⟨_, _, .nameless hexpr hstep hhead⟩
          | some name =>
            obtain ⟨value, rfl, hvalue⟩ := Head.of_name? hhead
            exact ⟨_, _, .spelled hexpr hstep hvalue⟩
        | further next inner =>
          obtain ⟨outcome, after, hnext⟩ := ih next inner (covered_of_step hstep hrounds)
          exact ⟨outcome, after, .further hexpr hstep hnext⟩
        | binding name bound owner =>
          exact (step_entersNothing engine _ hexpr scope machine _ _ hstep).elim

/-- The search for a name follows the steps of its position. -/
theorem bindingName_iff (engine : Engine ν σ) (levels : Nat) (position : Expr ν)
    (scope : Scope ν) (machine after : Machine ν σ) (outcome : Except Stop String) :
    (engine.nested levels).bindingName position scope machine = (outcome, after) ↔
      engine.Names position scope machine levels outcome after := by
  cases levels with
  | zero =>
    refine ⟨fun h => ?_, fun h => ?_⟩
    · cases h
      exact .tooDeep
    · cases h
      rfl
  | succ levels =>
    have hrounds := Nat.le_add_right engine.limits.maxSteps machine.steps
    refine ⟨fun h => .arrives ?_, fun h => ?_⟩
    · obtain ⟨found, last, hfound⟩ := arrives_of_covered engine levels position scope hrounds
      cases h.symm.trans (hfound.nameLoop hrounds)
      exact hfound
    · cases h with
      | arrives hname => exact hname.nameLoop hrounds

end Engine
end CallByNeed
