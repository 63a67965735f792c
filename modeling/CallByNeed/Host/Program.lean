import CallByNeed.Reduction.Evaluation

/-! # Host programs

What the code of a native method may do before it gives its result. It can build frames, make
values, look at records, keep state of its own and start evaluations with limits of its own, and
nothing else: in particular it cannot change a frame or a record. `Program.run` carries a program
out.

A native method that starts an evaluation can be entered again from within it. `invokeAt` allows
this to a fixed nesting and refuses at the last level.
-/

namespace CallByNeed
set_option autoImplicit false

variable {ν σ : Type}

/-- The code of a native method that has been handed its arguments. -/
inductive Program (ν σ : Type) where
  | done (result : Expr ν)
  | newValue (payload : Payload ν) (next : Value ν → Program ν σ)
  | newRoot (bindings : Table (Expr ν)) (next : Scope ν → Program ν σ)
  | newThunk (deferred : Expr ν) (calling : Scope ν) (next : Scope ν → Program ν σ)
  | newCall (closure : Scope ν) (arguments : List (Expr ν)) (calling : Scope ν)
      (next : Scope ν → Program ν σ)
  /-- Reads the record of a frame's identifier. -/
  | memoized (scope : Scope ν) (name : String) (next : Option (Terminal ν) → Program ν σ)
  /-- Changes the host's state and continues with the state before the change. -/
  | host (change : σ → σ) (next : σ → Program ν σ)
  /-- Evaluates with another engine and continues with the result and the steps it took. -/
  | evaluate (limits : Limits) (request : Evaluation ν) (next : Expr ν → Nat → Program ν σ)

/-- The codes of a host, as programs of their arguments and the calling scope. -/
abbrev Host (ν σ : Type) := Native ν → List (Expr ν) → Scope ν → Program ν σ

namespace Program

def value (payload : Payload ν) : Program ν σ :=
  .newValue payload fun value => .done (.value value)

def refuse (message : String) : Program ν σ :=
  .done (.failure (.native message))

/-- Carries out a program; `invoke` serves the evaluations it starts. -/
def run (invoke : Invoke ν σ) : Program ν σ → World ν σ → Expr ν × World ν σ
  | .done result, world => (result, world)
  | .newValue payload next, world =>
      let (value, world) := world.buildValue payload
      run invoke (next value) world
  | .newRoot bindings next, world =>
      let (scope, world) := world.newRoot bindings
      run invoke (next scope) world
  | .newThunk deferred calling next, world =>
      let (scope, world) := world.newThunk deferred calling
      run invoke (next scope) world
  | .newCall closure arguments calling next, world =>
      let (scope, world) := world.newCall closure arguments calling
      run invoke (next scope) world
  | .memoized scope name next, world => run invoke (next (world.memoized scope name)) world
  | .host change next, world =>
      let (before, world) := world.updateHost fun state => (state, change state)
      run invoke (next before) world
  | .evaluate limits request next, world =>
      let evaluated := Engine.evaluate ⟨limits, invoke⟩ request world
      run invoke (next evaluated.result evaluated.steps) evaluated.world

end Program

namespace Host

/-- Runs native methods whose evaluations may enter native methods again, so many levels deep. -/
def invokeAt (host : Host ν σ) : Nat → Invoke ν σ
  | 0 => fun _ _ _ world => (.failure (.native "native methods nested too deeply"), world)
  | levels + 1 => fun method arguments scope world =>
      (host method arguments scope).run (host.invokeAt levels) world

def engine (host : Host ν σ) (levels : Nat) (limits : Limits) : Engine ν σ :=
  ⟨limits, host.invokeAt levels⟩

end Host
end CallByNeed
