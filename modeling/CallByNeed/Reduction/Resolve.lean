import CallByNeed.Reduction.Step

/-! # Loops of steps

`resolveLoop` repeats steps up to a weak head form, `nameLoop` up to the name of a binding, and
`forceLoop` runs the bodies of closures until a value or a native method remains. Each round takes
a step, so as many rounds as there are steps in the budget are enough, and after that many rounds
the next step exceeds the budget.

`nested` ties the knot: the resolutions at one level use those of the next, up to the last level
that the limits allow.
-/

namespace CallByNeed.Engine
set_option autoImplicit false

variable {ν σ : Type}

/-- Reduces an expression to weak head form. `pending` are the identifiers met on the way; all of
them stand in tail position and come to the final result, which is recorded for them unless it is a
closure. -/
def resolveLoop (engine : Engine ν σ) (nested : Nested ν σ) :
    Nat → Expr ν → Scope ν → List (Scope ν × String) → Run ν σ (Head ν)
  | 0, _, _, _ => Run.exhaust engine.limits
  | rounds + 1, expr, scope, pending => do
      match ← step engine nested expr scope with
      | .finished (.terminal result) =>
          Run.memoizeAll result pending
          pure (.terminal result)
      | .finished (.closure closure) => pure (.closure closure)
      | .further next inner => resolveLoop engine nested rounds next inner pending
      | .binding name bound owner =>
          resolveLoop engine nested rounds bound owner ((owner, name) :: pending)

/-- The name that an identifier in name position stands for: itself, unless it is positional. -/
def ownName (name : String) : Run ν σ String :=
  match positional? name with
  | some _ => Run.fail (.invalidBindingName name)
  | none => pure name

/-- Reduces a name position to a name. An identifier met on the way is the name itself and is not
looked up; a value has to spell a name. -/
def nameLoop (engine : Engine ν σ) (nested : Nested ν σ) :
    Nat → Expr ν → Scope ν → Run ν σ String
  | 0, expr, _ =>
      match expr.identifier? with
      | some name => ownName name
      | none => Run.exhaust engine.limits
  | rounds + 1, expr, scope =>
      match expr.identifier? with
      | some name => ownName name
      | none => do
          match ← step engine nested expr scope with
          | .finished head =>
              match head.name? with
              | some name => pure name
              | none => Run.fail (.invalidBindingName head.toExpr.display)
          | .further next inner => nameLoop engine nested rounds next inner
          | .binding _ bound owner => nameLoop engine nested rounds bound owner

/-- The resolutions when so many more levels are allowed. -/
def nested (engine : Engine ν σ) : Nat → Nested ν σ
  | 0 =>
      { resolve := fun _ _ => throw (.outOfDepth engine.limits.maxDepth)
        bindingName := fun _ _ => throw (.outOfDepth engine.limits.maxDepth) }
  | levels + 1 =>
      { resolve := fun expr scope =>
          resolveLoop engine (nested engine levels) engine.limits.maxSteps expr scope []
        bindingName := fun expr scope =>
          nameLoop engine (nested engine levels) engine.limits.maxSteps expr scope }

def resolveTop (engine : Engine ν σ) (expr : Expr ν) (scope : Scope ν) : Run ν σ (Head ν) :=
  (engine.nested (engine.limits.maxDepth + 1)).resolve expr scope

/-- Runs closures as blocks without arguments until a value or a native method remains. -/
def forceLoop (engine : Engine ν σ) : Nat → Expr ν → Scope ν → Run ν σ (Terminal ν)
  | 0, _, _ => Run.exhaust engine.limits
  | rounds + 1, expr, scope => do
      match ← resolveTop engine expr scope with
      | .terminal result => pure result
      | .closure closure =>
          Run.emit (.forcing closure)
          forceLoop engine rounds closure.body closure

end CallByNeed.Engine
