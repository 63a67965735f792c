import CallByNeed.Reduction.Evaluation

/-! # Equations of runs

What the primitive runs do to a machine, and the reducer's functions written as binds. Below these
equations no proof opens a run.

`resolveLoop_pending` takes the pending identifiers out of the loop: a loop that carries them is the
loop that starts without any, followed by one record for each of them. So the loop is a recursion
in which an identifier resolves what it is bound to and then records the result
(`resolveLoop_succ`).
-/

namespace CallByNeed
set_option autoImplicit false

variable {ν σ α β : Type}

namespace Run

/-! ## Primitive runs -/

theorem pure_apply (result : α) (machine : Machine ν σ) :
    (pure result : Run ν σ α) machine = (.ok result, machine) := rfl

theorem withWorld_apply (change : World ν σ → α × World ν σ) (machine : Machine ν σ) :
    withWorld change machine =
      (.ok (change machine.world).1, ⟨machine.steps, (change machine.world).2⟩) := rfl

theorem emit_apply (event : Event ν) (machine : Machine ν σ) :
    emit event machine = (.ok (), ⟨machine.steps, machine.world.emit event⟩) := rfl

theorem memoized_apply (scope : Scope ν) (name : String) (machine : Machine ν σ) :
    memoized scope name machine = (.ok (machine.world.memoized scope name), machine) := rfl

theorem memoizeAll_apply (result : Terminal ν) (owners : List (Scope ν × String))
    (machine : Machine ν σ) :
    memoizeAll result owners machine =
      (.ok (), ⟨machine.steps, machine.world.memoizeAll result owners⟩) := rfl

theorem tick_apply (limits : Limits) (machine : Machine ν σ) :
    tick limits machine =
      if limits.maxSteps < machine.steps + 1 then
        (.error (.outOfSteps limits.maxSteps), ⟨machine.steps + 1, machine.world⟩)
      else (.ok (), ⟨machine.steps + 1, machine.world⟩) := rfl

theorem exhaust_apply (limits : Limits) (machine : Machine ν σ) :
    (exhaust limits : Run ν σ α) machine =
      (.error (.outOfSteps limits.maxSteps), ⟨machine.steps + 1, machine.world⟩) := by
  rw [exhaust, bind_apply, tick_apply]
  by_cases h : limits.maxSteps < machine.steps + 1
  · rw [if_pos h]
  · rw [if_neg h]
    rfl

theorem exhaust_bind (limits : Limits) (next : α → Run ν σ β) :
    (exhaust limits >>= next : Run ν σ β) = exhaust limits := by
  funext machine
  rw [bind_apply, exhaust_apply, exhaust_apply]

/-- If a bind comes to something, both of its parts do. -/
theorem ok_of_bind {first : Run ν σ α} {next : α → Run ν σ β} {machine after : Machine ν σ}
    {result : β} (h : (first >>= next) machine = (.ok result, after)) :
    ∃ between middle, first machine = (.ok between, middle) ∧
      next between middle = (.ok result, after) := by
  rw [bind_apply] at h
  rcases hfirst : first machine with ⟨stop | between, middle⟩
  · rw [hfirst] at h
    cases h
  · rw [hfirst] at h
    exact ⟨between, middle, rfl, h⟩

/-- If something is come to, the budget has allowed for one more step. -/
theorem ok_of_tick_bind {limits : Limits} {next : Unit → Run ν σ β} {machine after : Machine ν σ}
    {result : β} (h : (tick limits >>= next) machine = (.ok result, after)) :
    next () ⟨machine.steps + 1, machine.world⟩ = (.ok result, after) := by
  rw [bind_apply, tick_apply] at h
  by_cases hlimit : limits.maxSteps < machine.steps + 1
  · rw [if_pos hlimit] at h
    cases h
  · rw [if_neg hlimit] at h
    exact h

end Run

/-! ## The reducer as binds -/

/-- Reports that a name is bound again, if it was bound before. -/
def Run.reportRebound (name : String) (table : Table (Expr ν)) : Run ν σ Unit :=
  match table.find? name with
  | some dropped => Run.emit (.rebound name dropped)
  | none => pure ()

/-- Records a head for all identifiers that came to it, unless it is a closure. -/
def Run.record (head : Head ν) (owners : List (Scope ν × String)) : Run ν σ Unit :=
  match head with
  | .terminal result => Run.memoizeAll result owners
  | .closure _ => pure ()

theorem Nested.bindAll_cons (nested : Nested ν σ) (scope : Scope ν) (position bound : Expr ν)
    (rest : List (Lambda.Binding ν)) (table : Table (Expr ν)) :
    nested.bindAll scope ((position, bound) :: rest) table =
      nested.bindingName position scope >>= fun name =>
        Run.reportRebound name table >>= fun _ =>
          nested.bindAll scope rest (table.insert name bound) := by
  rw [Nested.bindAll]
  congr 1
  funext name
  rw [Run.reportRebound]
  cases table.find? name with
  | none => rfl
  | some dropped => rfl

theorem Nested.resolveAll_cons (nested : Nested ν σ) (scope : Scope ν) (argument : Expr ν)
    (rest : List (Expr ν)) :
    nested.resolveAll scope (argument :: rest) =
      nested.resolve argument scope >>= fun head =>
        nested.resolveAll scope rest >>= fun heads => pure (head.toExpr :: heads) := rfl

/-- The names of more bindings are worked out with the table that the first ones have led to. -/
theorem Nested.bindAll_append (nested : Nested ν σ) (scope : Scope ν)
    (first second : List (Lambda.Binding ν)) (table : Table (Expr ν)) :
    nested.bindAll scope (first ++ second) table =
      nested.bindAll scope first table >>= nested.bindAll scope second := by
  induction first generalizing table with
  | nil => rw [List.nil_append, Nested.bindAll, pure_bind]
  | cons binding first ih =>
    obtain ⟨position, bound⟩ := binding
    simp only [List.cons_append, bindAll_cons, bind_assoc, ih]

theorem Nested.resolveAll_append (nested : Nested ν σ) (scope : Scope ν)
    (first second : List (Expr ν)) :
    nested.resolveAll scope (first ++ second) =
      nested.resolveAll scope first >>= fun heads =>
        nested.resolveAll scope second >>= fun others => pure (heads ++ others) := by
  induction first with
  | nil =>
    rw [List.nil_append, Nested.resolveAll, pure_bind]
    exact (bind_pure _).symm
  | cons argument first ih =>
    simp only [List.cons_append, resolveAll_cons, bind_assoc, pure_bind, ih]

theorem World.memoizeAll_append (result : Terminal ν) (first second : List (Scope ν × String))
    (world : World ν σ) :
    world.memoizeAll result (first ++ second) =
      (world.memoizeAll result first).memoizeAll result second := by
  induction first generalizing world with
  | nil => rfl
  | cons owner first ih => exact ih _

theorem Run.record_append (head : Head ν) (first second : List (Scope ν × String)) :
    (Run.record head (first ++ second) : Run ν σ Unit) =
      Run.record head first >>= fun _ => Run.record head second := by
  cases head with
  | closure scope => rfl
  | terminal result =>
    funext machine
    rw [Run.record, Run.memoizeAll_apply, World.memoizeAll_append, Run.bind_apply]
    rfl

namespace Engine

/-- What a step does once it is counted. -/
def stepBody (engine : Engine ν σ) (nested : Nested ν σ) (expr : Expr ν) (scope : Scope ν) :
    Run ν σ (Outcome ν) :=
  Run.emit (.resolving expr) >>= fun _ =>
    match expr with
    | .value value => pure (.finished (.terminal (.value value)))
    | .native method => pure (.finished (.terminal (.native method)))
    | .failure failure => Run.fail failure
    | .identifier name => Run.stepIdentifier name scope
    | .lambda items => nested.close items scope >>= fun closure =>
        pure (.finished (.closure closure))
    | .scope inner => pure inner.enter
    | .application operator arguments =>
        engine.stepApplication nested operator arguments scope

theorem step_eq (engine : Engine ν σ) (nested : Nested ν σ) (expr : Expr ν) (scope : Scope ν) :
    engine.step nested expr scope =
      Run.tick engine.limits >>= fun _ => engine.stepBody nested expr scope := rfl

/-- What a step of an application makes of its operator. -/
def applyHead (engine : Engine ν σ) (nested : Nested ν σ) (arguments : List (Expr ν))
    (scope : Scope ν) : Head ν → Run ν σ (Outcome ν)
  | .terminal (.value value) => Run.emit (.argumentsIgnored value) >>= fun _ =>
      pure (.finished (.terminal (.value value)))
  | .terminal (.native method) => nested.resolveAll scope arguments >>= fun heads =>
      engine.callNative method heads scope >>= fun result => pure (.further result scope)
  | .closure closure => nested.resolveAll scope arguments >>= fun heads =>
      Run.call closure heads scope >>= fun frame => pure (.further frame.body frame)

theorem stepApplication_eq (engine : Engine ν σ) (nested : Nested ν σ) (operator : Expr ν)
    (arguments : List (Expr ν)) (scope : Scope ν) :
    engine.stepApplication nested operator arguments scope =
      nested.resolve operator scope >>= engine.applyHead nested arguments scope := by
  rw [stepApplication]
  congr 1

/-- What the resolution of an expression makes of the outcome of its first step. -/
def afterStep (engine : Engine ν σ) (nested : Nested ν σ) (rounds : Nat)
    (pending : List (Scope ν × String)) : Outcome ν → Run ν σ (Head ν)
  | .finished head => Run.record head pending >>= fun _ => pure head
  | .further next inner => engine.resolveLoop nested rounds next inner pending
  | .binding name bound owner =>
      engine.resolveLoop nested rounds bound owner ((owner, name) :: pending)

theorem resolveLoop_step (engine : Engine ν σ) (nested : Nested ν σ) (rounds : Nat)
    (expr : Expr ν) (scope : Scope ν) (pending : List (Scope ν × String)) :
    engine.resolveLoop nested (rounds + 1) expr scope pending =
      engine.step nested expr scope >>= engine.afterStep nested rounds pending := by
  rw [resolveLoop]
  congr 1
  funext outcome
  rcases outcome with (_ | _) | _ | _ <;> rfl

/-- A loop with pending identifiers is the loop without any, followed by their records. -/
theorem resolveLoop_pending (engine : Engine ν σ) (nested : Nested ν σ) (rounds : Nat)
    (expr : Expr ν) (scope : Scope ν) (pending : List (Scope ν × String)) :
    engine.resolveLoop nested rounds expr scope pending =
      engine.resolveLoop nested rounds expr scope [] >>= fun head =>
        Run.record head pending >>= fun _ => pure head := by
  induction rounds generalizing expr scope pending with
  | zero =>
    funext machine
    rw [Run.bind_apply, resolveLoop, resolveLoop, Run.exhaust_apply]
  | succ rounds ih =>
    rw [resolveLoop_step, resolveLoop_step, bind_assoc]
    congr 1
    funext outcome
    cases outcome with
    | finished head =>
      cases head with
      | terminal result => rfl
      | closure closure => rfl
    | further next inner => exact ih next inner pending
    | binding name bound owner =>
      -- The identifiers met later stand before the earlier ones, as does their record.
      rw [afterStep, afterStep, ih bound owner ((owner, name) :: pending),
        ih bound owner [(owner, name)], bind_assoc]
      congr 1
      funext head
      rw [show (owner, name) :: pending = [(owner, name)] ++ pending from rfl,
        Run.record_append, bind_assoc, bind_assoc]
      congr 1

/-- One round of a resolution, as a recursion: what a name is bound to is resolved in its owner,
and the result is recorded there. -/
theorem resolveLoop_succ (engine : Engine ν σ) (nested : Nested ν σ) (rounds : Nat)
    (expr : Expr ν) (scope : Scope ν) :
    engine.resolveLoop nested (rounds + 1) expr scope [] =
      engine.step nested expr scope >>= fun outcome =>
        match outcome with
        | .finished head => pure head
        | .further next inner => engine.resolveLoop nested rounds next inner []
        | .binding name bound owner =>
            engine.resolveLoop nested rounds bound owner [] >>= fun head =>
              Run.record head [(owner, name)] >>= fun _ => pure head := by
  rw [resolveLoop_step]
  congr 1
  funext outcome
  cases outcome with
  | finished head =>
    cases head with
    | terminal result => rfl
    | closure closure => rfl
  | further next inner => rfl
  | binding name bound owner =>
    exact resolveLoop_pending engine nested rounds bound owner [(owner, name)]

/-- A value or native method is resolved in one step. -/
theorem resolveLoop_terminal {engine : Engine ν σ} {nested : Nested ν σ} (rounds : Nat)
    (result : Terminal ν) (scope : Scope ν) {machine : Machine ν σ}
    (h : machine.steps + 1 ≤ engine.limits.maxSteps) :
    engine.resolveLoop nested (rounds + 1) result.toExpr scope [] machine =
      (.ok (.terminal result),
        ⟨machine.steps + 1, machine.world.emit (.resolving result.toExpr)⟩) := by
  rw [resolveLoop_succ, step_eq, bind_assoc, Run.bind_apply, Run.tick_apply,
    if_neg (Nat.not_lt.2 h)]
  cases result <;> rfl

/-- The resolution of an identifier: its record, or what it is bound to, with a record of the result.
The loop resolves other expressions. -/
def identifierRun (loop : Expr ν → Scope ν → Run ν σ (Head ν)) (name : String)
    (scope : Scope ν) : Run ν σ (Head ν) :=
  match scope.find name with
  | .error failure => Run.fail failure
  | .ok (bound, owner) =>
      Run.memoized owner name >>= fun record =>
        match record with
        | some result => loop result.toExpr owner
        | none =>
            loop bound owner >>= fun head =>
              Run.record head [(owner, name)] >>= fun _ => pure head

/-- The run of an identifier is a step of it, followed by the loop. -/
theorem identifierRun_eq (loop : Expr ν → Scope ν → Run ν σ (Head ν)) (name : String)
    (scope : Scope ν) :
    identifierRun loop name scope =
      Run.stepIdentifier name scope >>= fun outcome =>
        match outcome with
        | .finished head => pure head
        | .further next inner => loop next inner
        | .binding name bound owner =>
            loop bound owner >>= fun head =>
              Run.record head [(owner, name)] >>= fun _ => pure head := by
  symm
  rw [Run.stepIdentifier, identifierRun]
  cases scope.find name with
  | error failure => rfl
  | ok found =>
    rw [bind_assoc]
    congr 1
    funext record
    cases record with
    | none => rfl
    | some result => rfl

theorem resolveLoop_identifier (engine : Engine ν σ) (nested : Nested ν σ) (rounds : Nat)
    (name : String) (scope : Scope ν) :
    engine.resolveLoop nested (rounds + 1) (.identifier name) scope [] =
      Run.tick engine.limits >>= fun _ => Run.emit (.resolving (.identifier name)) >>= fun _ =>
        identifierRun (fun expr inner => engine.resolveLoop nested rounds expr inner []) name
          scope := by
  rw [resolveLoop_succ, step_eq, bind_assoc]
  congr 1
  funext _
  unfold stepBody
  rw [bind_assoc]
  congr 1
  funext _
  rw [identifierRun_eq]

section Identifiers

variable {loop : Expr ν → Scope ν → Run ν σ (Head ν)} {name : String} {scope owner : Scope ν}
  {bound : Expr ν} {machine : Machine ν σ}

theorem identifierRun_missing {failure : Failure} (hfind : scope.find name = .error failure) :
    identifierRun loop name scope = Run.fail failure := by
  rw [identifierRun, hfind]

theorem identifierRun_recorded {result : Terminal ν}
    (hfind : scope.find name = .ok (bound, owner))
    (hrecord : machine.world.memoized owner name = some result) :
    identifierRun loop name scope machine = loop result.toExpr owner machine := by
  rw [identifierRun, hfind]
  show (Run.memoized owner name >>= _) machine = _
  rw [Run.bind_apply, Run.memoized_apply, hrecord]

theorem identifierRun_unrecorded (hfind : scope.find name = .ok (bound, owner))
    (hrecord : machine.world.memoized owner name = none) :
    identifierRun loop name scope machine =
      (loop bound owner >>= fun head =>
        Run.record head [(owner, name)] >>= fun _ => pure head) machine := by
  rw [identifierRun, hfind]
  show (Run.memoized owner name >>= _) machine = _
  rw [Run.bind_apply, Run.memoized_apply, hrecord]

end Identifiers

theorem eq_identifier {expr : Expr ν} {name : String} (h : expr.identifier? = some name) :
    expr = .identifier name := by
  cases expr with
  | identifier other => exact congrArg Expr.identifier (Option.some.inj h)
  | _ => cases h

/-- What the search for a binding's name makes of the outcome of a step. -/
def nameAfterStep (engine : Engine ν σ) (nested : Nested ν σ) (rounds : Nat) :
    Outcome ν → Run ν σ String
  | .finished head =>
      match head.name? with
      | some name => pure name
      | none => Run.fail (.invalidBindingName head.toExpr.display)
  | .further next inner => engine.nameLoop nested rounds next inner
  | .binding _ bound owner => engine.nameLoop nested rounds bound owner

theorem nameLoop_identifier (engine : Engine ν σ) (nested : Nested ν σ) (rounds : Nat)
    (name : String) (scope : Scope ν) :
    engine.nameLoop nested rounds (.identifier name) scope = ownName name := by
  cases rounds <;> rfl

theorem nameLoop_zero (engine : Engine ν σ) (nested : Nested ν σ) (expr : Expr ν)
    (scope : Scope ν) (h : expr.identifier? = none) :
    engine.nameLoop nested 0 expr scope = Run.exhaust engine.limits := by
  rw [nameLoop, h]

theorem nameLoop_succ (engine : Engine ν σ) (nested : Nested ν σ) (rounds : Nat)
    (expr : Expr ν) (scope : Scope ν) (h : expr.identifier? = none) :
    engine.nameLoop nested (rounds + 1) expr scope =
      engine.step nested expr scope >>= engine.nameAfterStep nested rounds := by
  rw [nameLoop, h]
  rfl

/-- What loops reduce an expression to: the head of a resolution, or the name of a binding. -/
inductive Aim where
  | head
  | name

def Aim.Result (ν : Type) : Aim → Type
  | .head => Head ν
  | .name => String

/-- A loop with nothing pending. -/
def loop (engine : Engine ν σ) (nested : Nested ν σ) (rounds : Nat) :
    (aim : Aim) → Expr ν → Scope ν → Run ν σ (aim.Result ν)
  | .head, expr, scope => engine.resolveLoop nested rounds expr scope []
  | .name, position, scope => engine.nameLoop nested rounds position scope

/-- The loop one level deeper. -/
def nestedLoop (nested : Nested ν σ) : (aim : Aim) → Expr ν → Scope ν → Run ν σ (aim.Result ν)
  | .head => nested.resolve
  | .name => nested.bindingName

/-- What a loop makes of the head that a step finishes in. -/
def finish : (aim : Aim) → Head ν → Run ν σ (aim.Result ν)
  | .head, head => pure head
  | .name, head =>
      match head.name? with
      | some name => pure name
      | none => Run.fail (.invalidBindingName head.toExpr.display)

/-- What a loop makes of the outcome of a step. -/
def loopAfterStep (engine : Engine ν σ) (nested : Nested ν σ) (rounds : Nat) :
    (aim : Aim) → Outcome ν → Run ν σ (aim.Result ν)
  | .head => engine.afterStep nested rounds []
  | .name => engine.nameAfterStep nested rounds

section Loops

variable (engine : Engine ν σ) (nested : Nested ν σ) (rounds : Nat) (aim : Aim)

theorem nestedLoop_nested (levels : Nat) (expr : Expr ν) (scope : Scope ν) :
    nestedLoop (engine.nested (levels + 1)) aim expr scope =
      engine.loop (engine.nested levels) engine.limits.maxSteps aim expr scope := by
  cases aim <;> rfl

theorem loop_zero {expr : Expr ν} (h : expr.identifier? = none) (scope : Scope ν) :
    engine.loop nested 0 aim expr scope = Run.exhaust engine.limits := by
  cases aim with
  | head => rfl
  | name => exact nameLoop_zero engine nested expr scope h

theorem loop_succ {expr : Expr ν} (h : expr.identifier? = none) (scope : Scope ν) :
    engine.loop nested (rounds + 1) aim expr scope =
      engine.step nested expr scope >>= engine.loopAfterStep nested rounds aim := by
  cases aim with
  | head => exact resolveLoop_step engine nested rounds expr scope []
  | name => exact nameLoop_succ engine nested rounds expr scope h

theorem loopAfterStep_finished (head : Head ν) :
    engine.loopAfterStep nested rounds aim (.finished head) = finish aim head := by
  cases aim with
  | head => cases head <;> rfl
  | name => rfl

theorem loopAfterStep_further (next : Expr ν) (inner : Scope ν) :
    engine.loopAfterStep nested rounds aim (.further next inner) =
      engine.loop nested rounds aim next inner := by
  cases aim <;> rfl

end Loops

theorem forceLoop_succ (engine : Engine ν σ) (rounds : Nat) (expr : Expr ν) (scope : Scope ν) :
    engine.forceLoop (rounds + 1) expr scope =
      engine.resolveTop expr scope >>= fun head =>
        match head with
        | .terminal result => pure result
        | .closure closure => Run.emit (.forcing closure) >>= fun _ =>
            engine.forceLoop rounds closure.body closure := rfl

/-- What `apply` makes of its operator. -/
def applyOperator (engine : Engine ν σ) (arguments : List (Expr ν)) (scope : Scope ν)
    (head : Head ν) : Run ν σ (Expr ν) :=
  match arguments.findSome? Expr.failure? with
  | some failure => Run.fail failure
  | none =>
      match head with
      | .terminal (.value value) => pure (.value value)
      | .terminal (.native method) => engine.callNative method arguments scope
      | .closure closure => Run.call closure arguments scope >>= fun frame => pure (.scope frame)

theorem applyRun_eq (engine : Engine ν σ) (operator : Expr ν) (arguments : List (Expr ν))
    (scope : Scope ν) :
    engine.applyRun operator arguments scope =
      engine.resolveTop operator scope >>= engine.applyOperator arguments scope := rfl

/-! ## Evaluations -/

section Evaluations

variable {engine : Engine ν σ} {expr : Expr ν} {scope : Scope ν} {world : World ν σ}
  {machine : Machine ν σ}

/-- A resolution, as an evaluation. -/
theorem evaluate_resolve {outcome : Except Stop (Head ν)}
    (hrun : engine.resolveTop expr scope ⟨0, world⟩ = (outcome, machine)) :
    engine.evaluate (.resolve expr scope) world =
      ⟨outcome.map Head.toExpr, machine.steps, machine.world⟩ := by
  rw [evaluate, run, map_eq_pure_bind, Run.execute, Run.bind_apply, hrun]
  cases outcome <;> rfl

theorem evaluate_force {outcome : Except Stop (Terminal ν)}
    (hrun : engine.forceLoop engine.limits.maxSteps expr scope ⟨0, world⟩ = (outcome, machine)) :
    engine.evaluate (.force expr scope) world =
      ⟨outcome.map Terminal.toExpr, machine.steps, machine.world⟩ := by
  rw [evaluate, run, map_eq_pure_bind, Run.execute, Run.bind_apply, hrun]
  cases outcome <;> rfl

end Evaluations

end Engine

/-! ## What a run comes to in any case -/

/-- What the run comes to, if it comes to anything, has this property. -/
def Run.Yields (property : α → Prop) (run : Run ν σ α) : Prop :=
  ∀ machine result after, run machine = (.ok result, after) → property result

namespace Run

variable {property : β → Prop}

theorem yields_true (run : Run ν σ β) : Yields (fun _ => True) run :=
  fun _ _ _ _ => trivial

theorem yields_pure {result : β} (h : property result) :
    Yields property (pure result : Run ν σ β) := by
  intro machine other after hrun
  rw [pure_apply] at hrun
  cases hrun
  exact h

theorem Yields.bind {first : Run ν σ α} {next : α → Run ν σ β}
    (h : ∀ result, Yields property (next result)) : Yields property (first >>= next) := by
  intro machine result after hrun
  obtain ⟨between, middle, -, hnext⟩ := ok_of_bind hrun
  exact h between middle result after hnext

/-- What follows may use what the first run comes to. -/
theorem Yields.then {between : α → Prop} {first : Run ν σ α} {next : α → Run ν σ β}
    (h : first.Yields between)
    (hn : ∀ result, between result → (next result).Yields property) :
    (first >>= next).Yields property := by
  intro machine result after hrun
  obtain ⟨middle, turn, hfirst, hnext⟩ := ok_of_bind hrun
  exact hn middle (h machine middle turn hfirst) turn result after hnext

/-- What is closed over a scope is a closure. -/
theorem closing_yields (event : Event ν) (table : Table (Expr ν)) (body : Expr ν)
    (parent : Scope ν) :
    Yields (fun closure => closure.kind = .closure)
      (emit event >>= fun _ => withWorld (World.newClosure table body parent) :
        Run ν σ (Scope ν)) := by
  refine .bind fun _ => ?_
  intro machine closure after hrun
  cases hrun
  rfl

end Run

theorem Nested.close_yields (nested : Nested ν σ) (items : List (Item ν)) (scope : Scope ν) :
    (nested.close items scope).Yields fun closure => closure.kind = .closure := by
  rw [close]
  cases Lambda.parts items with
  | error shape => exact nofun
  | ok parts => exact .bind fun table => Run.closing_yields _ table parts.2 scope

/-- The property holds of what the steps come to that look up no name: of values, native methods
and closures, and of all that is to be reduced further. -/
structure Outcome.OfUnnamed (property : Outcome ν → Prop) : Prop where
  terminal : ∀ result, property (.finished (.terminal result))
  closure : ∀ closure : Scope ν, closure.kind = .closure → property (.finished (.closure closure))
  further : ∀ next inner, property (.further next inner)

section Steps

variable {property : Outcome ν → Prop}

theorem Outcome.OfUnnamed.enter (h : OfUnnamed property) (scope : Scope ν) :
    property scope.enter := by
  unfold Scope.enter
  cases hkind : scope.kind with
  | closure => exact h.closure scope hkind
  | thunk => exact h.further _ _
  | call => exact h.further _ _
  | root => exact h.further _ _

namespace Engine

/-- An application finishes only in the plain value that its operator is. -/
theorem stepApplication_yields (h : Outcome.OfUnnamed property) (engine : Engine ν σ)
    (nested : Nested ν σ) (operator : Expr ν) (arguments : List (Expr ν)) (scope : Scope ν) :
    (engine.stepApplication nested operator arguments scope).Yields property := by
  rw [stepApplication_eq]
  refine .bind fun head => ?_
  rcases head with (value | method) | closure
  · exact .bind fun _ => Run.yields_pure (h.terminal _)
  · exact .bind fun heads => .bind fun result => Run.yields_pure (h.further _ _)
  · exact .bind fun heads => .bind fun frame => Run.yields_pure (h.further _ _)

theorem stepBody_yields (h : Outcome.OfUnnamed property) (engine : Engine ν σ)
    (nested : Nested ν σ) {expr : Expr ν} {scope : Scope ν}
    (hidentifier : ∀ name, expr = .identifier name →
      (Run.stepIdentifier name scope : Run ν σ (Outcome ν)).Yields property) :
    (engine.stepBody nested expr scope).Yields property := by
  unfold stepBody
  refine .bind fun _ => ?_
  cases expr with
  | value value => exact Run.yields_pure (h.terminal _)
  | native method => exact Run.yields_pure (h.terminal _)
  | failure failure => exact nofun
  | identifier name => exact hidentifier name rfl
  | lambda items =>
    exact (nested.close_yields items scope).then fun _ hkind => Run.yields_pure (h.closure _ hkind)
  | scope inner => exact Run.yields_pure (h.enter inner)
  | application operator arguments =>
    exact stepApplication_yields h engine nested operator arguments scope

end Engine

end Steps

/-- The outcome does not enter what a name is bound to. -/
def Outcome.EntersNothing : Outcome ν → Prop
  | .binding _ _ _ => False
  | .finished _ | .further _ _ => True

namespace Engine

/-- Only identifiers enter what they are bound to. -/
theorem stepBody_entersNothing (engine : Engine ν σ) (nested : Nested ν σ) {expr : Expr ν}
    (hexpr : expr.identifier? = none) (scope : Scope ν) :
    Run.Yields Outcome.EntersNothing (engine.stepBody nested expr scope) := by
  refine stepBody_yields ⟨fun _ => trivial, fun _ _ => trivial, fun _ _ => trivial⟩ engine nested
    fun name hname => ?_
  rw [hname] at hexpr
  cases hexpr

theorem step_entersNothing (engine : Engine ν σ) (nested : Nested ν σ) {expr : Expr ν}
    (hexpr : expr.identifier? = none) (scope : Scope ν) :
    Run.Yields Outcome.EntersNothing (engine.step nested expr scope) := by
  rw [step_eq]
  exact .bind fun _ => stepBody_entersNothing engine nested hexpr scope

end Engine
end CallByNeed
