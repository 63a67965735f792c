import CallByNeed.Proofs.Need.Order
import CallByNeed.Proofs.Runs.Rounds
import CallByNeed.Proofs.Worlds.Additions

/-! # How an application is dispatched

`Engine.Dispatches` says what the resolution of an application does, rule by rule: the operator
comes first, one level deeper, and what it is decides whether the arguments are resolved, one after
another up to the first that stops (`Nested.Heads`), and what becomes of their heads. Each rule
gives the outcome and all of the machine, so what a rule does not mention does not happen.
`Engine.resolve_application` shows that applications are resolved by these rules and in no other
way.
-/

namespace CallByNeed
set_option autoImplicit false

variable {ν σ : Type}

/-! ## Arguments -/

/-- The arguments are resolved in the scope to these heads, from left to right, each where the one
before it has left off. -/
inductive Nested.Heads (nested : Nested ν σ) (scope : Scope ν) :
    List (Expr ν) → List (Head ν) → Machine ν σ → Machine ν σ → Prop where
  | nil (machine : Machine ν σ) : Heads nested scope [] [] machine machine
  | cons {argument : Expr ν} {arguments : List (Expr ν)} {head : Head ν} {heads : List (Head ν)}
      {machine middle after : Machine ν σ}
      (hargument : nested.resolve argument scope machine = (.ok head, middle))
      (harguments : Heads nested scope arguments heads middle after) :
      Heads nested scope (argument :: arguments) (head :: heads) machine after

namespace Nested

variable {nested : Nested ν σ} {scope : Scope ν} {arguments : List (Expr ν)}
  {heads : List (Head ν)} {machine after : Machine ν σ}

theorem Heads.length_eq (h : nested.Heads scope arguments heads machine after) :
    heads.length = arguments.length := by
  induction h with
  | nil machine => rfl
  | cons hargument harguments ih => rw [List.length_cons, List.length_cons, ih]

theorem Heads.resolveAll (h : nested.Heads scope arguments heads machine after) :
    nested.resolveAll scope arguments machine = (.ok (heads.map Head.toExpr), after) := by
  induction h with
  | nil machine => rfl
  | cons hargument harguments ih =>
    rw [resolveAll_cons, Run.bind_apply, hargument]
    dsimp only
    rw [Run.bind_apply, ih]
    rfl

/-- The first argument that stops is what all of them come to, and leaves the machine as it is. -/
theorem Heads.resolveAll_stops {target : Expr ν} {between : Machine ν σ} {stop : Stop}
    (h : nested.Heads scope arguments heads machine between)
    (htarget : nested.resolve target scope between = (.error stop, after))
    (rest : List (Expr ν)) :
    nested.resolveAll scope (arguments ++ target :: rest) machine = (.error stop, after) := by
  rw [resolveAll_append, Run.bind_apply, h.resolveAll]
  dsimp only
  rw [Run.bind_apply, resolveAll_cons, Run.bind_apply, htarget]

/-- Either all arguments have a head, or one of them stops after those before it had theirs. -/
theorem heads_or_stops (nested : Nested ν σ) (scope : Scope ν) (arguments : List (Expr ν))
    (machine : Machine ν σ) :
    (∃ heads after, nested.Heads scope arguments heads machine after) ∨
      ∃ before target rest heads between stop after, arguments = before ++ target :: rest ∧
        nested.Heads scope before heads machine between ∧
        nested.resolve target scope between = (.error stop, after) := by
  induction arguments generalizing machine with
  | nil => exact .inl ⟨[], machine, .nil machine⟩
  | cons argument rest ih =>
    rcases hargument : nested.resolve argument scope machine with ⟨stop | head, middle⟩
    · exact .inr ⟨[], argument, rest, [], machine, stop, middle, rfl, .nil machine, hargument⟩
    · rcases ih middle with ⟨heads, after, hrest⟩ |
        ⟨before, target, others, heads, between, stop, after, rfl, hbefore, htarget⟩
      · exact .inl ⟨head :: heads, after, .cons hargument hrest⟩
      · exact .inr ⟨argument :: before, target, others, head :: heads, between, stop, after, rfl,
          .cons hargument hbefore, htarget⟩

end Nested

/-! ## Dispatch -/

/-- What the resolution of an application comes to, with so many levels allowed, and the machine it
leaves. -/
inductive Engine.Dispatches (engine : Engine ν σ) (operator : Expr ν) (arguments : List (Expr ν))
    (scope : Scope ν) (machine : Machine ν σ) :
    Nat → Except Stop (Head ν) → Machine ν σ → Prop where
  /-- Too deep a resolution takes no step. -/
  | tooDeep :
      Dispatches engine operator arguments scope machine 0
        (.error (.outOfDepth engine.limits.maxDepth)) machine
  /-- The step of the application itself exceeds the budget. -/
  | outOfSteps {levels : Nat} (hlimit : engine.limits.maxSteps ≤ machine.steps) :
      Dispatches engine operator arguments scope machine (levels + 1)
        (.error (.outOfSteps engine.limits.maxSteps)) ⟨machine.steps + 1, machine.world⟩
  /-- An operator that stops is all that is evaluated. -/
  | operatorStops {levels : Nat} {stop : Stop} {after : Machine ν σ}
      (hlimit : machine.steps < engine.limits.maxSteps)
      (hoperator : (engine.nested levels).resolve operator scope
        (machine.counted (.application operator arguments)) = (.error stop, after)) :
      Dispatches engine operator arguments scope machine (levels + 1) (.error stop) after
  /-- A plain value is the outcome, and the log says that it ignores the arguments. -/
  | plainValue {levels : Nat} {value : Value ν} {after : Machine ν σ}
      (hlimit : machine.steps < engine.limits.maxSteps)
      (hoperator : (engine.nested levels).resolve operator scope
        (machine.counted (.application operator arguments)) =
          (.ok (.terminal (.value value)), after)) :
      Dispatches engine operator arguments scope machine (levels + 1)
        (.ok (.terminal (.value value)))
        ⟨after.steps, after.world.emit (.argumentsIgnored value)⟩
  /-- The first argument that stops is the last thing that is evaluated. -/
  | argumentStops {levels : Nat} {head : Head ν} {before rest : List (Expr ν)} {target : Expr ν}
      {heads : List (Head ν)} {stop : Stop} {middle between after : Machine ν σ}
      (hlimit : machine.steps < engine.limits.maxSteps)
      (hoperator : (engine.nested levels).resolve operator scope
        (machine.counted (.application operator arguments)) = (.ok head, middle))
      (hhead : ∀ value, head ≠ .terminal (.value value))
      (harguments : arguments = before ++ target :: rest)
      (hbefore : (engine.nested levels).Heads scope before heads middle between)
      (htarget : (engine.nested levels).resolve target scope between = (.error stop, after)) :
      Dispatches engine operator arguments scope machine (levels + 1) (.error stop) after
  /-- A native method is invoked once, in the calling scope, and its result resolved there. -/
  | native {levels : Nat} {method : Native ν} {heads : List (Head ν)} {result : Expr ν}
      {world : World ν σ} {middle between after : Machine ν σ} {outcome : Except Stop (Head ν)}
      (hlimit : machine.steps < engine.limits.maxSteps)
      (hoperator : (engine.nested levels).resolve operator scope
        (machine.counted (.application operator arguments)) =
          (.ok (.terminal (.native method)), middle))
      (harguments : (engine.nested levels).Heads scope arguments heads middle between)
      (hinvoked : engine.invoke method (heads.map Head.toExpr) scope
        (between.world.emit (.invoking method (heads.map Head.toExpr) scope)) = (result, world))
      (hresult : (engine.nested (levels + 1)).resolve result scope
        ⟨between.steps, world.emit (.returned method result)⟩ = (outcome, after)) :
      Dispatches engine operator arguments scope machine (levels + 1) outcome after
  /-- A closure gets one call frame, and its body is resolved there. -/
  | closure {levels : Nat} {closure frame : Scope ν} {heads : List (Head ν)}
      {thunks : List (Scope ν)} {middle between after : Machine ν σ}
      {outcome : Except Stop (Head ν)} (hlimit : machine.steps < engine.limits.maxSteps)
      (hoperator : (engine.nested levels).resolve operator scope
        (machine.counted (.application operator arguments)) = (.ok (.closure closure), middle))
      (harguments : (engine.nested levels).Heads scope arguments heads middle between)
      (hthunks : thunks = Scope.thunks between.world.size scope (heads.map Head.toExpr))
      (hframe : frame =
        .call (between.world.size + arguments.length) closure (thunks.map .scope))
      (hbody : (engine.nested (levels + 1)).resolve closure.body frame
        ⟨between.steps, (between.world.addFrames (thunks ++ [frame])).emit
          (.calling closure.body (heads.map Head.toExpr))⟩ = (outcome, after)) :
      Dispatches engine operator arguments scope machine (levels + 1) outcome after

namespace Engine

variable {engine : Engine ν σ} {levels : Nat} {operator : Expr ν} {arguments : List (Expr ν)}
  {scope : Scope ν} {machine : Machine ν σ}

theorem callNative_apply (engine : Engine ν σ) (method : Native ν) (arguments : List (Expr ν))
    (scope : Scope ν) (machine : Machine ν σ) :
    engine.callNative method arguments scope machine =
      match engine.invoke method arguments scope
        (machine.world.emit (.invoking method arguments scope)) with
      | (result, world) => (.ok result, ⟨machine.steps, world.emit (.returned method result)⟩) :=
  rfl

theorem call_apply (closure : Scope ν) (arguments : List (Expr ν)) (scope : Scope ν)
    (machine : Machine ν σ) :
    Run.call closure arguments scope machine =
      match machine.world.newCall closure arguments scope with
      | (frame, world) =>
          (.ok frame, ⟨machine.steps, world.emit (.calling closure.body arguments)⟩) :=
  rfl

/-- Within the budget an application is counted, its operator resolved, and the rest of the
resolution is what the operator makes of the arguments. -/
theorem resolve_operator (h : machine.steps < engine.limits.maxSteps) (operator : Expr ν)
    (arguments : List (Expr ν)) :
    (engine.nested (levels + 1)).resolve (.application operator arguments) scope machine =
      ((engine.nested levels).resolve operator scope >>= fun head =>
        engine.applyHead (engine.nested levels) arguments scope head >>= engine.goOn levels)
        (machine.counted (.application operator arguments)) := by
  rw [resolve_allowed h, stepBody, bind_assoc, Run.bind_apply, Run.emit_apply]
  dsimp only
  rw [stepApplication_eq, bind_assoc]
  rfl

/-- The rules say what happens. -/
theorem Dispatches.resolve {outcome : Except Stop (Head ν)} {after : Machine ν σ}
    (h : engine.Dispatches operator arguments scope machine levels outcome after) :
    (engine.nested levels).resolve (.application operator arguments) scope machine =
      (outcome, after) := by
  cases h with
  | tooDeep => rfl
  | outOfSteps hlimit => exact resolve_exhausted hlimit _ _ scope
  | operatorStops hlimit hoperator =>
    rw [resolve_operator hlimit, Run.bind_apply, hoperator]
  | plainValue hlimit hoperator =>
    rw [resolve_operator hlimit, Run.bind_apply, hoperator]
    rfl
  | @argumentStops levels head before rest target heads stop middle between _ hlimit hoperator hhead
      harguments hbefore htarget =>
    subst harguments
    have hstops := hbefore.resolveAll_stops htarget rest
    rw [resolve_operator hlimit, Run.bind_apply, hoperator]
    dsimp only
    rcases head with (value | method) | closure
    · exact absurd rfl (hhead value)
    · rw [applyHead, bind_assoc, Run.bind_apply, hstops]
    · rw [applyHead, bind_assoc, Run.bind_apply, hstops]
  | @native levels method heads result world middle between _ _ hlimit hoperator harguments hinvoked
      hresult =>
    rw [resolve_operator hlimit, Run.bind_apply, hoperator]
    dsimp only
    have hcall := callNative_apply engine method (heads.map Head.toExpr) scope between
    rw [hinvoked] at hcall
    rw [applyHead, bind_assoc, Run.bind_apply, harguments.resolveAll]
    dsimp only
    rw [bind_assoc, Run.bind_apply, hcall, ← hresult]
    rfl
  | @closure levels closure frame heads thunks middle between _ _ hlimit hoperator harguments
      hthunks hframe hbody =>
    subst hthunks hframe
    have hmade := World.newCall_eq between.world closure scope (heads.map Head.toExpr)
    rw [List.length_map, harguments.length_eq] at hmade
    rw [resolve_operator hlimit, Run.bind_apply, hoperator]
    dsimp only
    rw [applyHead, bind_assoc, Run.bind_apply, harguments.resolveAll]
    dsimp only
    rw [bind_assoc, Run.bind_apply, call_apply, hmade, ← hbody]
    rfl

/-- The rules cover whatever happens. -/
theorem dispatches_resolve (engine : Engine ν σ) (levels : Nat) (operator : Expr ν)
    (arguments : List (Expr ν)) (scope : Scope ν) (machine : Machine ν σ) :
    ∃ outcome after, engine.Dispatches operator arguments scope machine levels outcome after := by
  cases levels with
  | zero => exact ⟨_, _, .tooDeep⟩
  | succ levels =>
    rcases Nat.lt_or_ge machine.steps engine.limits.maxSteps with hlimit | hlimit
    · rcases hoperator : (engine.nested levels).resolve operator scope
        (machine.counted (.application operator arguments)) with ⟨stop | head, middle⟩
      · exact ⟨_, _, .operatorStops hlimit hoperator⟩
      · by_cases hhead : ∃ value, head = .terminal (.value value)
        · obtain ⟨value, rfl⟩ := hhead
          exact ⟨_, _, .plainValue hlimit hoperator⟩
        · rcases (engine.nested levels).heads_or_stops scope arguments middle with
            ⟨heads, between, hheads⟩ |
            ⟨before, target, rest, heads, between, stop, after, harguments, hbefore, htarget⟩
          · rcases head with (value | method) | closure
            · exact absurd ⟨value, rfl⟩ hhead
            · exact ⟨_, _, .native hlimit hoperator hheads rfl rfl⟩
            · exact ⟨_, _, .closure hlimit hoperator hheads rfl rfl rfl⟩
          · exact ⟨_, _, .argumentStops hlimit hoperator (fun value h => hhead ⟨value, h⟩)
              harguments hbefore htarget⟩
    · exact ⟨_, _, .outOfSteps hlimit⟩

/-- An application is resolved by the rules of dispatch, and in no other way. -/
theorem resolve_application (engine : Engine ν σ) (levels : Nat) (operator : Expr ν)
    (arguments : List (Expr ν)) (scope : Scope ν) (machine after : Machine ν σ)
    (outcome : Except Stop (Head ν)) :
    (engine.nested levels).resolve (.application operator arguments) scope machine =
        (outcome, after) ↔
      engine.Dispatches operator arguments scope machine levels outcome after := by
  refine ⟨fun h => ?_, Dispatches.resolve⟩
  obtain ⟨found, last, hdispatch⟩ :=
    engine.dispatches_resolve levels operator arguments scope machine
  cases h.symm.trans hdispatch.resolve
  exact hdispatch

end Engine
end CallByNeed
