import CallByNeed.Proofs.Runs.Equations

/-! # Laws of runs

A law relates the machine before a run to the machine after it and to the reason for a stop. A law
that the changes of the world, the count of a step and the failures obey is obeyed by every
evaluation: `Engine.evaluate_obeys`. The proof goes through the reducer once, so a law is all that
a statement about single runs needs.
-/

namespace CallByNeed
set_option autoImplicit false

variable {ν σ α β : Type}

/-- One change that an evaluation makes to the world. -/
inductive World.Change (invoke : Invoke ν σ) : World ν σ → World ν σ → Prop where
  | event (event : Event ν) (world : World ν σ) : Change invoke world (world.emit event)
  | value (payload : Payload ν) (world : World ν σ) :
      Change invoke world (world.buildValue payload).2
  | closure (bindings : Table (Expr ν)) (body : Expr ν) (parent : Scope ν) (world : World ν σ) :
      Change invoke world (world.newClosure bindings body parent).2
  | call (closure : Scope ν) (arguments : List (Expr ν)) (calling : Scope ν)
      (world : World ν σ) : Change invoke world (world.newCall closure arguments calling).2
  | record (scope : Scope ν) (name : String) (result : Terminal ν) (world : World ν σ) :
      Change invoke world (world.memoize scope name result)
  | native (method : Native ν) (arguments : List (Expr ν)) (scope : Scope ν)
      (world : World ν σ) : Change invoke world (invoke method arguments scope world).2

/-- A relation that composes along a run and in which steps are only ever added. -/
structure Law (ν σ : Type) where
  holds : Machine ν σ → Option Stop → Machine ν σ → Prop
  refl : ∀ machine, holds machine none machine
  trans : ∀ {first second third stop}, holds first none second → holds second stop third →
    holds first stop third
  steps : ∀ {before after stop}, holds before stop after → before.steps ≤ after.steps

/-- The reason for the stop that an outcome is. -/
def stop? : Except Stop α → Option Stop
  | .ok _ => none
  | .error stop => some stop

/-- A run obeys a law from every machine that has taken at least so many steps. -/
def Run.ObeysFrom (law : Law ν σ) (least : Nat) (run : Run ν σ α) : Prop :=
  ∀ machine, least ≤ machine.steps → law.holds machine (stop? (run machine).1) (run machine).2

abbrev Run.Obeys (law : Law ν σ) (run : Run ν σ α) : Prop :=
  Run.ObeysFrom law 0 run

/-- The parts of an evaluation obey a law. -/
structure Engine.Lawful (engine : Engine ν σ) (law : Law ν σ) : Prop where
  tick : Run.Obeys law (Run.tick engine.limits)
  change : ∀ steps {before after}, World.Change engine.invoke before after →
    law.holds ⟨steps, before⟩ none ⟨steps, after⟩
  failed : ∀ machine failure, law.holds machine (some (.failed failure)) machine
  tooDeep : ∀ machine, law.holds machine (some (.outOfDepth engine.limits.maxDepth)) machine
  /-- The end of a program's evaluation is an event also after a stop. -/
  finished : ∀ {before after stop}, law.holds before stop after →
    law.holds before stop ⟨after.steps, after.world.emit (.finished after.steps)⟩

/-! ## Composition -/

namespace Run

variable {law : Law ν σ} {least : Nat}

theorem ObeysFrom.mono {run : Run ν σ α} {more : Nat} (h : ObeysFrom law least run)
    (hle : least ≤ more) : ObeysFrom law more run :=
  fun machine hm => h machine (Nat.le_trans hle hm)

theorem obeys_pure (result : α) : ObeysFrom law least (pure result : Run ν σ α) :=
  fun machine _ => law.refl machine

theorem obeys_memoized (scope : Scope ν) (name : String) :
    ObeysFrom law least (memoized scope name : Run ν σ _) :=
  fun machine _ => law.refl machine

theorem ObeysFrom.bind {first : Run ν σ α} {next : α → Run ν σ β}
    (h : ObeysFrom law least first) (hn : ∀ result, ObeysFrom law least (next result)) :
    ObeysFrom law least (first >>= next) := by
  intro machine hm
  have hfirst := h machine hm
  rw [bind_apply]
  rcases hrun : first machine with ⟨stop | result, after⟩
  · rw [hrun] at hfirst
    exact hfirst
  · rw [hrun] at hfirst
    exact law.trans hfirst (hn result after (Nat.le_trans hm (law.steps hfirst)))

/-- What follows a tick starts with one more step. -/
theorem ObeysFrom.tick_bind {limits : Limits} {next : Unit → Run ν σ β}
    (h : Obeys law (tick limits)) (hn : ObeysFrom law (least + 1) (next ())) :
    ObeysFrom law least (tick limits >>= next) := by
  intro machine hm
  have htick := h machine (Nat.zero_le _)
  rw [bind_apply]
  rw [tick_apply] at htick ⊢
  by_cases hlimit : limits.maxSteps < machine.steps + 1
  · rw [if_pos hlimit] at htick ⊢
    exact htick
  · rw [if_neg hlimit] at htick ⊢
    exact law.trans htick (hn _ (Nat.succ_le_succ hm))

end Run

structure Nested.Obeys (law : Law ν σ) (nested : Nested ν σ) : Prop where
  resolve : ∀ expr scope, Run.Obeys law (nested.resolve expr scope)
  bindingName : ∀ expr scope, Run.Obeys law (nested.bindingName expr scope)

namespace Engine.Lawful

variable {engine : Engine ν σ} {law : Law ν σ} {nested : Nested ν σ}

section Primitives

variable (lawful : engine.Lawful law)
include lawful

theorem withWorld {change : World ν σ → α × World ν σ}
    (h : ∀ world, World.Change engine.invoke world (change world).2) :
    Run.Obeys law (Run.withWorld change) :=
  fun machine _ => lawful.change machine.steps (h machine.world)

theorem emit (event : Event ν) : Run.Obeys law (Run.emit event) :=
  fun machine _ => lawful.change machine.steps (.event event machine.world)

theorem fail (failure : Failure) : Run.Obeys law (Run.fail failure : Run ν σ α) :=
  fun machine _ => lawful.failed machine failure

theorem memoizeAll (result : Terminal ν) (owners : List (Scope ν × String)) :
    Run.Obeys law (Run.memoizeAll result owners) := by
  intro machine _
  obtain ⟨steps, world⟩ := machine
  induction owners generalizing world with
  | nil => exact law.refl _
  | cons owner owners ih =>
    exact law.trans (lawful.change steps (.record owner.1 owner.2 result world))
      (ih _ (Nat.zero_le _))

theorem record (head : Head ν) (owners : List (Scope ν × String)) :
    Run.Obeys law (Run.record head owners) := by
  cases head with
  | terminal result => exact lawful.memoizeAll result owners
  | closure closure => exact Run.obeys_pure ()

theorem reportRebound (name : String) (table : Table (Expr ν)) :
    Run.Obeys law (Run.reportRebound name table) := by
  rw [Run.reportRebound]
  cases table.find? name with
  | none => exact Run.obeys_pure ()
  | some dropped => exact lawful.emit _

/-- When the budget is used up, running out of rounds is what the next step would do. -/
theorem exhaust : Run.ObeysFrom law engine.limits.maxSteps
    (Run.exhaust engine.limits : Run ν σ α) := by
  intro machine hm
  have htick := lawful.tick machine (Nat.zero_le _)
  rw [Run.tick_apply, if_pos (Nat.lt_succ_of_le hm)] at htick
  rw [Run.exhaust_apply]
  exact htick

end Primitives

/-! ## Steps -/

theorem bindAll (lawful : engine.Lawful law) (hnested : nested.Obeys law) (scope : Scope ν)
    (bindings : List (Lambda.Binding ν)) (table : Table (Expr ν)) :
    Run.Obeys law (nested.bindAll scope bindings table) := by
  induction bindings generalizing table with
  | nil => exact Run.obeys_pure table
  | cons binding rest ih =>
    obtain ⟨position, bound⟩ := binding
    rw [Nested.bindAll_cons]
    refine (hnested.bindingName position scope).bind fun name => ?_
    exact (lawful.reportRebound name table).bind fun _ => ih _

theorem close (lawful : engine.Lawful law) (hnested : nested.Obeys law) (items : List (Item ν))
    (scope : Scope ν) : Run.Obeys law (nested.close items scope) := by
  rw [Nested.close]
  cases Lambda.parts items with
  | error shape => exact lawful.fail _
  | ok parts =>
    obtain ⟨bindings, body⟩ := parts
    refine (lawful.bindAll hnested scope bindings .empty).bind fun table => ?_
    refine (lawful.emit _).bind fun _ => ?_
    exact lawful.withWorld fun world => .closure table body scope world

theorem resolveAll (hnested : nested.Obeys law) (scope : Scope ν) (arguments : List (Expr ν)) :
    Run.Obeys law (nested.resolveAll scope arguments) := by
  induction arguments with
  | nil => exact Run.obeys_pure []
  | cons argument rest ih =>
    rw [Nested.resolveAll_cons]
    refine (hnested.resolve argument scope).bind fun head => ?_
    exact ih.bind fun heads => Run.obeys_pure _

theorem call (lawful : engine.Lawful law) (closure : Scope ν) (arguments : List (Expr ν))
    (scope : Scope ν) : Run.Obeys law (Run.call closure arguments scope) := by
  refine Run.ObeysFrom.bind ?_ fun frame => (lawful.emit _).bind fun _ => Run.obeys_pure frame
  exact lawful.withWorld fun world => .call closure arguments scope world

theorem callNative (lawful : engine.Lawful law) (method : Native ν) (arguments : List (Expr ν))
    (scope : Scope ν) : Run.Obeys law (engine.callNative method arguments scope) := by
  refine (lawful.emit _).bind fun _ => Run.ObeysFrom.bind ?_ fun result =>
    (lawful.emit _).bind fun _ => Run.obeys_pure result
  exact lawful.withWorld fun world => .native method arguments scope world

theorem stepIdentifier (lawful : engine.Lawful law) (name : String) (scope : Scope ν) :
    Run.Obeys law (Run.stepIdentifier name scope) := by
  rw [Run.stepIdentifier]
  cases scope.find name with
  | error failure => exact lawful.fail failure
  | ok found =>
    refine (Run.obeys_memoized found.2 name).bind fun record => ?_
    cases record with
    | none => exact Run.obeys_pure _
    | some result => exact Run.obeys_pure _

theorem applyHead (lawful : engine.Lawful law) (hnested : nested.Obeys law)
    (arguments : List (Expr ν)) (scope : Scope ν) (head : Head ν) :
    Run.Obeys law (engine.applyHead nested arguments scope head) := by
  rcases head with (value | method) | closure
  · exact (lawful.emit _).bind fun _ => Run.obeys_pure _
  · refine (resolveAll hnested scope arguments).bind fun heads => ?_
    exact (lawful.callNative method heads scope).bind fun _ => Run.obeys_pure _
  · refine (resolveAll hnested scope arguments).bind fun heads => ?_
    exact (lawful.call closure heads scope).bind fun _ => Run.obeys_pure _

theorem stepApplication (lawful : engine.Lawful law) (hnested : nested.Obeys law)
    (operator : Expr ν) (arguments : List (Expr ν)) (scope : Scope ν) :
    Run.Obeys law (engine.stepApplication nested operator arguments scope) := by
  rw [Engine.stepApplication_eq]
  exact (hnested.resolve operator scope).bind (lawful.applyHead hnested arguments scope)

theorem stepBody (lawful : engine.Lawful law) (hnested : nested.Obeys law) (expr : Expr ν)
    (scope : Scope ν) : Run.Obeys law (engine.stepBody nested expr scope) := by
  refine (lawful.emit _).bind fun _ => ?_
  cases expr with
  | value value => exact Run.obeys_pure _
  | native method => exact Run.obeys_pure _
  | failure failure => exact lawful.fail failure
  | identifier name => exact lawful.stepIdentifier name scope
  | lambda items =>
    exact (lawful.close hnested items scope).bind fun _ => Run.obeys_pure _
  | scope inner => exact Run.obeys_pure _
  | application operator arguments =>
    exact lawful.stepApplication hnested operator arguments scope

/-- A step, followed by anything that obeys the law with one more step taken. -/
theorem step_bind (lawful : engine.Lawful law) (hnested : nested.Obeys law) (expr : Expr ν)
    (scope : Scope ν) {least : Nat} {next : Outcome ν → Run ν σ β}
    (hn : ∀ outcome, Run.ObeysFrom law (least + 1) (next outcome)) :
    Run.ObeysFrom law least (engine.step nested expr scope >>= next) := by
  rw [Engine.step_eq, bind_assoc]
  have hbody := (lawful.stepBody hnested expr scope).mono (Nat.zero_le (least + 1))
  exact Run.ObeysFrom.tick_bind lawful.tick (hbody.bind hn)

/-! ## Loops

A loop is obeyed from every machine whose remaining budget is covered by the rounds. -/

/-- A resolution, followed by anything that obeys the law with one more step taken. -/
theorem resolveLoop_bind (lawful : engine.Lawful law) (hnested : nested.Obeys law)
    (rounds least : Nat) (hrounds : engine.limits.maxSteps ≤ rounds + least) (expr : Expr ν)
    (scope : Scope ν) {next : Head ν → Run ν σ β}
    (hn : ∀ head, Run.ObeysFrom law (least + 1) (next head)) :
    Run.ObeysFrom law least (engine.resolveLoop nested rounds expr scope [] >>= next) := by
  induction rounds generalizing least expr scope next with
  | zero =>
    rw [Engine.resolveLoop, Run.exhaust_bind]
    exact lawful.exhaust.mono (by omega)
  | succ rounds ih =>
    have hlater : ∀ head, Run.ObeysFrom law (least + 1 + 1) (next head) :=
      fun head => (hn head).mono (Nat.le_succ _)
    rw [Engine.resolveLoop_succ, bind_assoc]
    refine lawful.step_bind hnested expr scope fun outcome => ?_
    cases outcome with
    | finished head => exact hn head
    | further further inner => exact ih (least + 1) (by omega) further inner hlater
    | binding name bound owner =>
      simp only [bind_assoc]
      refine ih (least + 1) (by omega) bound owner fun head => ?_
      exact ((lawful.record head _).mono (Nat.zero_le _)).bind fun _ => hlater head

theorem resolveLoop (lawful : engine.Lawful law) (hnested : nested.Obeys law) (rounds least : Nat)
    (hrounds : engine.limits.maxSteps ≤ rounds + least) (expr : Expr ν) (scope : Scope ν) :
    Run.ObeysFrom law least (engine.resolveLoop nested rounds expr scope []) := by
  have h := lawful.resolveLoop_bind hnested rounds least hrounds expr scope
    fun head => Run.obeys_pure head
  rwa [bind_pure] at h

theorem ownName (lawful : engine.Lawful law) (name : String) :
    Run.Obeys law (Engine.ownName name : Run ν σ String) := by
  rw [Engine.ownName]
  cases positional? name with
  | none => exact Run.obeys_pure name
  | some index => exact lawful.fail _

theorem nameLoop (lawful : engine.Lawful law) (hnested : nested.Obeys law) (rounds least : Nat)
    (hrounds : engine.limits.maxSteps ≤ rounds + least) (expr : Expr ν) (scope : Scope ν) :
    Run.ObeysFrom law least (engine.nameLoop nested rounds expr scope) := by
  induction rounds generalizing least expr scope with
  | zero =>
    cases h : expr.identifier? with
    | none =>
      rw [Engine.nameLoop_zero engine nested expr scope h]
      exact lawful.exhaust.mono (by omega)
    | some name =>
      rw [Engine.nameLoop, h]
      exact (lawful.ownName name).mono (Nat.zero_le _)
  | succ rounds ih =>
    cases h : expr.identifier? with
    | none =>
      rw [Engine.nameLoop_succ engine nested rounds expr scope h]
      refine lawful.step_bind hnested expr scope fun outcome => ?_
      cases outcome with
      | finished head =>
        rw [Engine.nameAfterStep]
        cases head.name? with
        | none => exact (lawful.fail _).mono (Nat.zero_le _)
        | some name => exact Run.obeys_pure name
      | further next inner => exact ih (least + 1) (by omega) next inner
      | binding name bound owner => exact ih (least + 1) (by omega) bound owner
    | some name =>
      rw [Engine.nameLoop, h]
      exact (lawful.ownName name).mono (Nat.zero_le _)

end Engine.Lawful

/-! ## Evaluations -/

namespace Engine

variable {engine : Engine ν σ} {law : Law ν σ}

theorem nested_obeys (lawful : engine.Lawful law) (levels : Nat) :
    (engine.nested levels).Obeys law := by
  induction levels with
  | zero => exact ⟨fun _ _ machine _ => lawful.tooDeep machine,
      fun _ _ machine _ => lawful.tooDeep machine⟩
  | succ levels ih => exact ⟨lawful.resolveLoop ih _ 0 (Nat.le_refl _),
      lawful.nameLoop ih _ 0 (Nat.le_refl _)⟩

theorem resolveTop_obeys (lawful : engine.Lawful law) (expr : Expr ν) (scope : Scope ν) :
    Run.Obeys law (engine.resolveTop expr scope) :=
  (nested_obeys lawful _).resolve expr scope

theorem forceLoop_obeys (lawful : engine.Lawful law) (rounds least : Nat)
    (hrounds : engine.limits.maxSteps ≤ rounds + least) (expr : Expr ν) (scope : Scope ν) :
    Run.ObeysFrom law least (engine.forceLoop rounds expr scope) := by
  induction rounds generalizing least expr scope with
  | zero => exact lawful.exhaust.mono (by omega)
  | succ rounds ih =>
    rw [forceLoop_succ]
    have hnested := nested_obeys lawful engine.limits.maxDepth
    refine lawful.resolveLoop_bind hnested _ least (by omega) expr scope fun head => ?_
    cases head with
    | terminal result => exact Run.obeys_pure result
    | closure closure =>
      refine ((lawful.emit _).mono (Nat.zero_le _)).bind fun _ => ?_
      exact ih (least + 1) (by omega) closure.body closure

theorem applyOperator_obeys (lawful : engine.Lawful law) (arguments : List (Expr ν))
    (scope : Scope ν) (head : Head ν) :
    Run.Obeys law (engine.applyOperator arguments scope head) := by
  unfold applyOperator
  cases arguments.findSome? Expr.failure? with
  | some failure => exact lawful.fail failure
  | none =>
    rcases head with (value | method) | closure
    · exact Run.obeys_pure _
    · exact lawful.callNative method arguments scope
    · exact (lawful.call closure arguments scope).bind fun frame => Run.obeys_pure _

theorem applyRun_obeys (lawful : engine.Lawful law) (operator : Expr ν)
    (arguments : List (Expr ν)) (scope : Scope ν) :
    Run.Obeys law (engine.applyRun operator arguments scope) := by
  rw [applyRun_eq]
  exact (resolveTop_obeys lawful operator scope).bind fun head =>
    applyOperator_obeys lawful arguments scope head

theorem interpretRun_obeys (lawful : engine.Lawful law) (program : Expr ν) (root : Scope ν) :
    Run.Obeys law (engine.interpretRun program root) := by
  intro machine hm
  have hforce := forceLoop_obeys lawful engine.limits.maxSteps 0 (Nat.le_refl _) program root
    machine hm
  rw [interpretRun]
  rcases hrun : engine.forceLoop engine.limits.maxSteps program root machine with
    ⟨stop | result, after⟩
  · rw [hrun] at hforce
    exact lawful.finished hforce
  · rw [hrun] at hforce
    have hend := lawful.finished hforce
    cases result with
    | value value => exact hend
    | native method => exact law.trans hend (lawful.change _ (.value _ _))

theorem run_obeys (lawful : engine.Lawful law) (request : Evaluation ν) :
    Run.Obeys law (engine.run request) := by
  cases request with
  | resolve expr scope =>
    rw [run, map_eq_pure_bind]
    exact (resolveTop_obeys lawful expr scope).bind fun head => Run.obeys_pure _
  | force expr scope =>
    rw [run, map_eq_pure_bind]
    exact (forceLoop_obeys lawful _ 0 (Nat.le_refl _) expr scope).bind fun result =>
      Run.obeys_pure _
  | apply operator arguments scope => exact applyRun_obeys lawful operator arguments scope
  | close items scope =>
    rw [run, map_eq_pure_bind]
    exact (lawful.close (nested_obeys lawful _) items scope).bind fun frame => Run.obeys_pure _
  | interpret program root =>
    rw [run, map_eq_pure_bind]
    exact (interpretRun_obeys lawful program root).bind fun value => Run.obeys_pure _

/-- Every evaluation obeys the laws that its parts obey. -/
theorem evaluate_obeys (lawful : engine.Lawful law) (request : Evaluation ν)
    (world : World ν σ) :
    law.holds ⟨0, world⟩ (stop? (engine.evaluate request world).outcome)
      ⟨(engine.evaluate request world).steps, (engine.evaluate request world).world⟩ :=
  run_obeys lawful request ⟨0, world⟩ (Nat.le_refl _)

end Engine
end CallByNeed
