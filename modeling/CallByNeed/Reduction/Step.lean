import CallByNeed.Expr.Lambda
import CallByNeed.Reduction.Engine

/-! # One step of reduction

A step either finishes in a weak head form or names the expression to reduce next and the scope to
reduce it in. Operators, arguments and binding names are resolved within the step, one level deeper;
`Nested` stands for these resolutions, so that a step is no recursion.
-/

namespace CallByNeed
set_option autoImplicit false

variable {ν σ : Type}

inductive Head (ν : Type) where
  | terminal (result : Terminal ν)
  | closure (scope : Scope ν)

def Head.toExpr : Head ν → Expr ν
  | .terminal result => result.toExpr
  | .closure scope => .scope scope

def Head.name? : Head ν → Option String
  | .terminal (.value value) => value.name?
  | _ => none

inductive Outcome (ν : Type) where
  | finished (head : Head ν)
  /-- The rest of the evaluation reduces this expression. -/
  | further (expr : Expr ν) (scope : Scope ν)
  /-- The rest of the evaluation reduces what the name is bound to in its owner. -/
  | binding (name : String) (bound : Expr ν) (owner : Scope ν)

/-- The resolutions one level deeper. -/
structure Nested (ν σ : Type) where
  resolve : Expr ν → Scope ν → Run ν σ (Head ν)
  bindingName : Expr ν → Scope ν → Run ν σ String

/-! ## Lambdas -/

namespace Nested

/-- Works out the names of bindings in order and enters what is bound there into a table. -/
def bindAll (nested : Nested ν σ) (scope : Scope ν) :
    List (Lambda.Binding ν) → Table (Expr ν) → Run ν σ (Table (Expr ν))
  | [], table => pure table
  | (position, bound) :: rest, table => do
      let name ← nested.bindingName position scope
      if let some dropped := table.find? name then
        Run.emit (.rebound name dropped)
      bindAll nested scope rest (table.insert name bound)

/-- Closes the items of a lambda over a scope. Names are worked out in that scope, as the new frame
does not exist before all of them are known. -/
def close (nested : Nested ν σ) (items : List (Item ν)) (scope : Scope ν) :
    Run ν σ (Scope ν) :=
  match Lambda.parts items with
  | .error shape => Run.fail (.malformedLambda shape)
  | .ok (bindings, body) => do
      let table ← nested.bindAll scope bindings .empty
      Run.emit (.closing table.size body)
      Run.withWorld (World.newClosure table body scope)

/-- Resolves arguments from left to right, up to the first failure. -/
def resolveAll (nested : Nested ν σ) (scope : Scope ν) :
    List (Expr ν) → Run ν σ (List (Expr ν))
  | [] => pure []
  | argument :: rest => do
      let head ← nested.resolve argument scope
      let heads ← resolveAll nested scope rest
      pure (head.toExpr :: heads)

end Nested

/-! ## Calls -/

def Run.call (closure : Scope ν) (arguments : List (Expr ν)) (scope : Scope ν) :
    Run ν σ (Scope ν) := do
  let frame ← Run.withWorld (World.newCall closure arguments scope)
  Run.emit (.calling closure.body arguments)
  pure frame

def Engine.callNative (engine : Engine ν σ) (method : Native ν) (arguments : List (Expr ν))
    (scope : Scope ν) : Run ν σ (Expr ν) := do
  Run.emit (.invoking method arguments scope)
  let result ← Run.withWorld (engine.invoke method arguments scope)
  Run.emit (.returned method result)
  pure result

/-! ## Steps -/

/-- One step of an identifier: a recorded result, or what the name is bound to. -/
def Run.stepIdentifier (name : String) (scope : Scope ν) : Run ν σ (Outcome ν) :=
  match scope.find name with
  | .error failure => Run.fail failure
  | .ok (bound, owner) => do
      match ← Run.memoized owner name with
      | some result => pure (.further result.toExpr owner)
      | none => pure (.binding name bound owner)

/-- One step of a scope: a closure is a weak head form, a thunk's body belongs to the scope around
it, and any other body to the frame itself. -/
def Scope.enter (scope : Scope ν) : Outcome ν :=
  match scope.kind with
  | .closure => .finished (.closure scope)
  | .thunk => .further scope.body (scope.parent?.getD scope)
  | .call | .root => .further scope.body scope

namespace Engine

/-- One step of an application: the operator first, the arguments only if it has a use for
them. -/
def stepApplication (engine : Engine ν σ) (nested : Nested ν σ) (operator : Expr ν)
    (arguments : List (Expr ν)) (scope : Scope ν) : Run ν σ (Outcome ν) := do
  match ← nested.resolve operator scope with
  | .terminal (.value value) =>
      Run.emit (.argumentsIgnored value)
      pure (.finished (.terminal (.value value)))
  | .terminal (.native method) =>
      let heads ← nested.resolveAll scope arguments
      let result ← engine.callNative method heads scope
      pure (.further result scope)
  | .closure closure =>
      let heads ← nested.resolveAll scope arguments
      let frame ← Run.call closure heads scope
      pure (.further frame.body frame)

def step (engine : Engine ν σ) (nested : Nested ν σ) (expr : Expr ν) (scope : Scope ν) :
    Run ν σ (Outcome ν) := do
  Run.tick engine.limits
  Run.emit (.resolving expr)
  match expr with
  | .value value => pure (.finished (.terminal (.value value)))
  | .native method => pure (.finished (.terminal (.native method)))
  | .failure failure => Run.fail failure
  | .identifier name => Run.stepIdentifier name scope
  | .lambda items => do
      let closure ← nested.close items scope
      pure (.finished (.closure closure))
  | .scope inner => pure inner.enter
  | .application operator arguments => engine.stepApplication nested operator arguments scope

end Engine
end CallByNeed
