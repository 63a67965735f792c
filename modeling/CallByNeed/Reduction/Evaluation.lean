import CallByNeed.Reduction.Resolve

/-! # Evaluations

The operations of an engine. Each of them starts with a fresh count of steps and reports how many it
took; a failure is a result like any other.
-/

namespace CallByNeed
set_option autoImplicit false

variable {ν σ : Type}

inductive Evaluation (ν : Type) where
  /-- Reduce to weak head form: a value, a native method or a closure. -/
  | resolve (expr : Expr ν) (scope : Scope ν)
  /-- Reduce to a value or a native method, running closures as blocks. -/
  | force (expr : Expr ν) (scope : Scope ν)
  /-- Apply an operator to arguments as they are. A closure is not run: the result is the frame of
  the call. -/
  | apply (operator : Expr ν) (arguments : List (Expr ν)) (scope : Scope ν)
  | close (items : List (Item ν)) (scope : Scope ν)
  /-- Evaluate a program to a value; a native method left over is wrapped as a value. -/
  | interpret (program : Expr ν) (root : Scope ν)

/-- How a run ended, the steps it took and the world it left. -/
structure Evaluated (ν σ α : Type) where
  outcome : Except Stop α
  steps : Nat
  world : World ν σ

namespace Evaluated

/-- The outcome as it is reported, where a limit that was hit is a failure like any other. -/
def reported {α : Type} (evaluated : Evaluated ν σ α) : Except Failure α :=
  match evaluated.outcome with
  | .ok result => .ok result
  | .error stop => .error stop.failure

def result (evaluated : Evaluated ν σ (Expr ν)) : Expr ν :=
  match evaluated.reported with
  | .ok result => result
  | .error failure => .failure failure

def isCut {α : Type} (evaluated : Evaluated ν σ α) : Bool :=
  match evaluated.outcome with
  | .ok _ => false
  | .error stop => stop.isLimit

end Evaluated

def Run.execute {α : Type} (run : Run ν σ α) (world : World ν σ) : Evaluated ν σ α :=
  match run ⟨0, world⟩ with
  | (outcome, ⟨steps, world⟩) => ⟨outcome, steps, world⟩

namespace Engine

/-- The operator resolved, then the arguments handed over as they are. -/
def applyRun (engine : Engine ν σ) (operator : Expr ν) (arguments : List (Expr ν))
    (scope : Scope ν) : Run ν σ (Expr ν) := do
  let head ← engine.resolveTop operator scope
  match arguments.findSome? Expr.failure? with
  | some failure => Run.fail failure
  | none =>
      match head with
      | .terminal (.value value) => pure (.value value)
      | .terminal (.native method) => engine.callNative method arguments scope
      | .closure closure => do
          let frame ← Run.call closure arguments scope
          pure (.scope frame)

/-- A program forced. The end is an event also when the program failed. -/
def interpretRun (engine : Engine ν σ) (program : Expr ν) (root : Scope ν) :
    Run ν σ (Value ν) := fun machine =>
  match engine.forceLoop engine.limits.maxSteps program root machine with
  | (outcome, ⟨steps, world⟩) =>
      let world := world.emit (.finished steps)
      match outcome with
      | .error stop => (.error stop, ⟨steps, world⟩)
      | .ok (.value value) => (.ok value, ⟨steps, world⟩)
      | .ok (.native method) =>
          let (value, world) := world.buildValue (.native method)
          (.ok value, ⟨steps, world⟩)

def run (engine : Engine ν σ) : Evaluation ν → Run ν σ (Expr ν)
  | .resolve expr scope => Head.toExpr <$> engine.resolveTop expr scope
  | .force expr scope => Terminal.toExpr <$> engine.forceLoop engine.limits.maxSteps expr scope
  | .apply operator arguments scope => engine.applyRun operator arguments scope
  | .close items scope => Expr.scope <$> (engine.nested engine.limits.maxDepth).close items scope
  | .interpret program root => Expr.value <$> engine.interpretRun program root

def evaluate (engine : Engine ν σ) (request : Evaluation ν) (world : World ν σ) :
    Evaluated ν σ (Expr ν) :=
  Run.execute (engine.run request) world

def interpret (engine : Engine ν σ) (program : Expr ν) (root : Scope ν) (world : World ν σ) :
    Evaluated ν σ (Value ν) :=
  Run.execute (engine.interpretRun program root) world

end Engine
end CallByNeed
