import CallByNeed.Reduction.World

/-! # Engines and runs

An engine is a pair of limits and the host's way to invoke a native method. A run is a computation
that counts its steps, changes the world, and may end in a failure; what it did before the failure
stays done.
-/

namespace CallByNeed
set_option autoImplicit false

variable {ν σ α β : Type}

/-- How long and how deeply nested an evaluation may get. -/
structure Limits where
  maxSteps : Nat := 1000000
  /-- How many resolutions of operators, arguments and binding names may enclose each other. -/
  maxDepth : Nat := 256
  deriving DecidableEq

/-- How the host runs a native method on arguments in a calling scope. -/
abbrev Invoke (ν σ : Type) :=
  Native ν → List (Expr ν) → Scope ν → World ν σ → Expr ν × World ν σ

structure Engine (ν σ : Type) where
  limits : Limits
  invoke : Invoke ν σ

/-- A world during an evaluation, with the steps that the evaluation has taken. -/
structure Machine (ν σ : Type) where
  steps : Nat
  world : World ν σ

/-- Why a run ends without a result: what it reduces fails, or it hits a limit. -/
inductive Stop where
  | failed (failure : Failure)
  /-- The step after the last permitted one was to be taken. -/
  | outOfSteps (maxSteps : Nat)
  /-- A resolution was to be nested one level too deep. -/
  | outOfDepth (maxDepth : Nat)

/-- The failure that a stop is reported as. -/
def Stop.failure : Stop → Failure
  | .failed failure => failure
  | .outOfSteps maxSteps => .stepBudgetExhausted maxSteps
  | .outOfDepth maxDepth => .recursionLimit maxDepth

/-- Whether a limit was hit. -/
def Stop.isLimit : Stop → Bool
  | .failed _ => false
  | .outOfSteps _ | .outOfDepth _ => true

abbrev Run (ν σ : Type) := ExceptT Stop (StateM (Machine ν σ))

namespace Run

/-- One run after another: the second one starts where the first one ended, unless that failed. -/
theorem bind_apply (first : Run ν σ α) (next : α → Run ν σ β) (machine : Machine ν σ) :
    (first >>= next) machine =
      match first machine with
      | (.ok result, after) => next result after
      | (.error stop, after) => (.error stop, after) := by
  change ExceptT.bindCont next (first machine).1 (first machine).2 = _
  rcases first machine with ⟨_ | _, _⟩ <;> rfl

def fail (failure : Failure) : Run ν σ α :=
  throw (.failed failure)

def withWorld (change : World ν σ → α × World ν σ) : Run ν σ α := fun ⟨steps, world⟩ =>
  let (result, world) := change world
  (.ok result, ⟨steps, world⟩)

def emit (event : Event ν) : Run ν σ Unit := fun ⟨steps, world⟩ =>
  (.ok (), ⟨steps, world.emit event⟩)

/-- Counts a step, and fails if it is one too many. -/
def tick (limits : Limits) : Run ν σ Unit := fun ⟨steps, world⟩ =>
  let steps := steps + 1
  if limits.maxSteps < steps then
    (.error (.outOfSteps limits.maxSteps), ⟨steps, world⟩)
  else (.ok (), ⟨steps, world⟩)

/-- The step that exceeds the budget. -/
def exhaust (limits : Limits) : Run ν σ α := do
  tick limits
  throw (.outOfSteps limits.maxSteps)

def memoized (scope : Scope ν) (name : String) : Run ν σ (Option (Terminal ν)) :=
  fun ⟨steps, world⟩ =>
    let record := world.memoized scope name
    (.ok record, ⟨steps, world⟩)

def memoizeAll (result : Terminal ν) (owners : List (Scope ν × String)) : Run ν σ Unit :=
  fun ⟨steps, world⟩ => (.ok (), ⟨steps, world.memoizeAll result owners⟩)

end Run
end CallByNeed
