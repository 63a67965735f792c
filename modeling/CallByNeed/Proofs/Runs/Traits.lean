import CallByNeed.Proofs.Runs.Equations
import CallByNeed.Proofs.Worlds.Reach

/-! # Traits of runs

A trait is a property of runs that may ask for the scopes that a run uses, and that a run has if its
parts have it. What follows a part may use the scopes of what the part came to, and all that is
within reach of them. If the parts of an evaluation have a trait (`Engine.Has`), then so has every
function of the reducer. The proof goes through the reducer once, so a property of runs that is a
trait needs to be proved of the parts only.

Identifiers are a part of their own: what their records are good for is what traits differ in.
-/

namespace CallByNeed
set_option autoImplicit false

open Scope (Grasps)

variable {ν σ α β : Type}

/-- A property of a run, of the scopes that it may use, and of the scopes in what it comes to. -/
structure Trait (ν σ : Type) where
  holds : {α : Type} → (α → List (Scope ν)) → List (Scope ν) → Run ν σ α → Prop
  of_pure : ∀ {α : Type} {scopes : α → List (Scope ν)} {needs : List (Scope ν)} {result : α},
    Grasps needs (scopes result) → holds scopes needs (pure result)
  of_throw : ∀ {α : Type} {scopes : α → List (Scope ν)} {needs : List (Scope ν)} (stop : Stop),
    holds scopes needs (throw stop)
  /-- What the first run yields in any case may be assumed by what comes next. -/
  of_bind : ∀ {α β : Type} {between : α → List (Scope ν)} {scopes : β → List (Scope ν)}
    {needs : List (Scope ν)} {first : Run ν σ α} {next : α → Run ν σ β} {property : α → Prop},
    holds between needs first → first.Yields property →
      (∀ result, property result → holds scopes (between result ++ needs) (next result)) →
        holds scopes needs (first >>= next)
  /-- Scopes within reach need not be asked for. -/
  of_grasps : ∀ {α : Type} {scopes : α → List (Scope ν)} {needs more : List (Scope ν)}
    {run : Run ν σ α}, holds scopes more run → Grasps needs more → holds scopes needs run

def Run.Has (trait : Trait ν σ) (scopes : α → List (Scope ν)) (needs : List (Scope ν))
    (run : Run ν σ α) : Prop :=
  trait.holds scopes needs run

/-! ## Composition -/

namespace Run

variable {trait : Trait ν σ} {scopes : β → List (Scope ν)} {needs more : List (Scope ν)}

theorem Has.of_grasps {run : Run ν σ β} (h : Has trait scopes more run)
    (hneeds : Grasps needs more) : Has trait scopes needs run :=
  trait.of_grasps h hneeds

theorem Has.weaken {run : Run ν σ β} (h : Has trait scopes more run)
    (hneeds : ∀ inner ∈ more, inner ∈ needs) : Has trait scopes needs run :=
  h.of_grasps (.of_subset hneeds)

/-- What else there is does not matter. -/
theorem Has.append {run : Run ν σ β} (h : Has trait scopes needs run) (more : List (Scope ν)) :
    Has trait scopes (needs ++ more) run :=
  h.weaken fun _ hm => List.mem_append_left _ hm

theorem Has.bind_of_yields {between : α → List (Scope ν)} {first : Run ν σ α}
    {next : α → Run ν σ β} {property : α → Prop} (h : Has trait between needs first)
    (hyields : first.Yields property)
    (hn : ∀ result, property result → Has trait scopes (between result ++ needs) (next result)) :
    Has trait scopes needs (first >>= next) :=
  trait.of_bind h hyields hn

theorem Has.bind {between : α → List (Scope ν)} {first : Run ν σ α} {next : α → Run ν σ β}
    (h : Has trait between needs first)
    (hn : ∀ result, Has trait scopes (between result ++ needs) (next result)) :
    Has trait scopes needs (first >>= next) :=
  h.bind_of_yields (yields_true first) fun result _ => hn result

/-- A run whose result has no scopes, followed by another one. -/
theorem Has.then {first : Run ν σ α} {next : α → Run ν σ β}
    (h : Has trait (fun _ => []) needs first) (hn : ∀ result, Has trait scopes needs (next result)) :
    Has trait scopes needs (first >>= next) :=
  h.bind fun result => hn result

theorem has_pure_of_grasps {result : β} (h : Grasps needs (scopes result)) :
    Has trait scopes needs (pure result : Run ν σ β) :=
  trait.of_pure h

theorem has_pure {result : β} (h : ∀ inner ∈ scopes result, inner ∈ needs) :
    Has trait scopes needs (pure result : Run ν σ β) :=
  has_pure_of_grasps (.of_subset h)

/-- A result that is at hand. -/
theorem has_pure_append (result : β) (more : List (Scope ν)) :
    Has trait scopes (scopes result ++ more) (pure result : Run ν σ β) :=
  (has_pure fun _ hm => hm).append more

/-- A result without scopes. -/
theorem has_pure_nil {result : β} (h : scopes result = []) :
    Has trait scopes needs (pure result : Run ν σ β) :=
  has_pure fun _ hm => absurd (h ▸ hm) List.not_mem_nil

theorem has_throw (stop : Stop) : Has trait scopes needs (throw stop : Run ν σ β) :=
  trait.of_throw stop

theorem has_fail (failure : Failure) : Has trait scopes needs (fail failure : Run ν σ β) :=
  has_throw _

end Run

/-! ## Parts -/

/-- The loops one level deeper have the trait. -/
structure Nested.Has (trait : Trait ν σ) (nested : Nested ν σ) : Prop where
  resolve : ∀ expr scope, Run.Has trait Head.scopes (scope :: expr.scopes)
    (nested.resolve expr scope)
  bindingName : ∀ position scope, Run.Has trait (fun _ => []) (scope :: position.scopes)
    (nested.bindingName position scope)

/-- The parts of an evaluation have the trait. -/
structure Engine.Has (trait : Trait ν σ) (engine : Engine ν σ) : Prop where
  tick : ∀ {needs}, Run.Has trait (fun _ => []) needs (Run.tick engine.limits)
  emit : ∀ {needs} event, Run.Has trait (fun _ => []) needs (Run.emit event)
  newClosure : ∀ table body scope, Run.Has trait (fun frame => [frame])
    (scope :: (table.scopes ++ body.scopes)) (Run.withWorld (World.newClosure table body scope))
  newCall : ∀ closure arguments scope, Run.Has trait (fun frame => [frame])
    (closure :: scope :: scopesAll arguments)
    (Run.withWorld (World.newCall closure arguments scope))
  native : ∀ method arguments scope, Run.Has trait Expr.scopes (scope :: scopesAll arguments)
    (Run.withWorld (engine.invoke method arguments scope))
  identifier : ∀ (nested : Nested ν σ) (rounds : Nat),
    (∀ expr inner, Run.Has trait Head.scopes (inner :: expr.scopes)
      (engine.resolveLoop nested rounds expr inner [])) →
    ∀ name scope, Run.Has trait Head.scopes [scope]
      (identifierRun (fun expr inner => engine.resolveLoop nested rounds expr inner []) name scope)

section Records

variable {trait : Trait ν σ}
  (hmemoized : ∀ {needs} owner name, Run.Has trait (fun _ => []) needs (Run.memoized owner name))
include hmemoized

/-- If a look at the records has the trait, so has a step of an identifier. -/
theorem Run.has_stepIdentifier (name : String) (scope : Scope ν) :
    Run.Has trait Outcome.scopes [scope] (Run.stepIdentifier name scope) := by
  rw [stepIdentifier]
  cases hfind : scope.find name with
  | error failure => exact has_fail failure
  | ok found =>
    obtain ⟨bound, owner⟩ := found
    have hreach : Grasps [scope] (owner :: bound.scopes) := .find hfind
    refine (hmemoized owner name).then fun record => ?_
    cases record with
    | none => exact has_pure_of_grasps hreach
    | some result =>
      have howner : Grasps [scope] [owner] := .single (hreach owner List.mem_cons_self)
      cases result <;> exact has_pure_of_grasps howner

/-- If a look at the records and a new record have the trait, so has the run of an identifier over
loops that have it. -/
theorem Run.has_identifierRun
    (hrecord : ∀ {needs} head owner name,
      Run.Has trait (fun _ => []) needs (Run.record head [(owner, name)]))
    {loop : Expr ν → Scope ν → Run ν σ (Head ν)}
    (hloop : ∀ expr inner, Run.Has trait Head.scopes (inner :: expr.scopes) (loop expr inner))
    (name : String) (scope : Scope ν) :
    Run.Has trait Head.scopes [scope] (Engine.identifierRun loop name scope) := by
  rw [Engine.identifierRun_eq]
  refine (has_stepIdentifier hmemoized name scope).bind fun outcome => ?_
  cases outcome with
  | finished head => exact has_pure_append head _
  | further next inner => exact (hloop next inner).append _
  | binding name bound owner =>
    refine ((hloop bound owner).append _).bind fun head => ?_
    exact (hrecord head owner name).then fun _ => has_pure_append head _

end Records

/-- The scopes in what a loop comes to. -/
def Engine.Aim.scopes : (aim : Aim) → aim.Result ν → List (Scope ν)
  | .head => Head.scopes
  | .name => fun _ => []

/-! ## Arguments and lambdas -/

section Nested

variable {trait : Trait ν σ} {engine : Engine ν σ} {nested : Nested ν σ}

theorem Nested.Has.resolveAll (h : nested.Has trait) (scope : Scope ν)
    (arguments : List (Expr ν)) :
    Run.Has trait scopesAll (scope :: scopesAll arguments) (nested.resolveAll scope arguments) := by
  induction arguments with
  | nil => exact Run.has_pure_nil rfl
  | cons argument rest ih =>
    rw [Nested.resolveAll_cons]
    refine ((h.resolve argument scope).weaken (by grind [scopesAll])).bind fun head => ?_
    refine (ih.weaken (by grind [scopesAll])).bind fun heads => Run.has_pure fun inner hm => ?_
    rw [scopesAll, Head.scopes_toExpr] at hm
    grind

namespace Engine.Has

variable (hparts : engine.Has trait)
include hparts

theorem exhaust {scopes : β → List (Scope ν)} {needs : List (Scope ν)} :
    Run.Has trait scopes needs (Run.exhaust engine.limits : Run ν σ β) :=
  hparts.tick.then fun _ => Run.has_throw _

theorem reportRebound {needs : List (Scope ν)} (name : String) (table : Table (Expr ν)) :
    Run.Has trait (fun _ => []) needs (Run.reportRebound name table) := by
  rw [Run.reportRebound]
  cases table.find? name with
  | none => exact Run.has_pure_nil rfl
  | some dropped => exact hparts.emit _

theorem bindAll (h : nested.Has trait) (scope : Scope ν) (bindings : List (Lambda.Binding ν))
    (table : Table (Expr ν)) :
    Run.Has trait Table.scopes (scope :: (Lambda.bindingScopes bindings ++ table.scopes))
      (nested.bindAll scope bindings table) := by
  induction bindings generalizing table with
  | nil => exact Run.has_pure (by grind)
  | cons binding rest ih =>
    obtain ⟨position, bound⟩ := binding
    rw [Nested.bindAll_cons]
    refine ((h.bindingName position scope).weaken (by grind [Lambda.bindingScopes])).then
      fun name => (hparts.reportRebound name table).then fun _ => ?_
    refine (ih (table.insert name bound)).weaken fun inner hm => ?_
    have hinsert : inner ∈ (table.insert name bound).scopes →
        inner ∈ bound.scopes ∨ inner ∈ table.scopes := Table.scopes_insert
    grind [Lambda.bindingScopes]

theorem close (h : nested.Has trait) (items : List (Item ν)) (scope : Scope ν) :
    Run.Has trait (fun frame => [frame]) (scope :: scopesItems items)
      (nested.close items scope) := by
  rw [Nested.close]
  cases hparts' : Lambda.parts items with
  | error shape => exact Run.has_fail _
  | ok parts =>
    obtain ⟨bindings, body⟩ := parts
    have hscopes := Lambda.parts_scopes hparts'
    have hbind := (hparts.bindAll h scope bindings .empty).weaken
      (show ∀ inner ∈ scope :: (Lambda.bindingScopes bindings ++ Table.empty.scopes),
          inner ∈ scope :: scopesItems items by
        simp only [show (Table.empty : Table (Expr ν)).scopes = [] from rfl]
        grind)
    refine hbind.bind fun table => (hparts.emit _).then fun _ => ?_
    exact (hparts.newClosure table body scope).weaken (by grind)

/-! ## Steps -/

theorem call (closure : Scope ν) (arguments : List (Expr ν)) (scope : Scope ν) :
    Run.Has trait (fun frame => [frame]) (closure :: scope :: scopesAll arguments)
      (Run.call closure arguments scope) := by
  refine (hparts.newCall closure arguments scope).bind fun frame => (hparts.emit _).then fun _ => ?_
  exact Run.has_pure_append frame _

theorem callNative (method : Native ν) (arguments : List (Expr ν)) (scope : Scope ν) :
    Run.Has trait Expr.scopes (scope :: scopesAll arguments)
      (engine.callNative method arguments scope) := by
  refine (hparts.emit _).then fun _ => (hparts.native method arguments scope).bind fun result => ?_
  exact (hparts.emit _).then fun _ => Run.has_pure_append result _

theorem applyHead (h : nested.Has trait) (arguments : List (Expr ν)) (scope : Scope ν)
    (head : Head ν) :
    Run.Has trait Outcome.scopes (scope :: (head.scopes ++ scopesAll arguments))
      (engine.applyHead nested arguments scope head) := by
  have harguments := (h.resolveAll scope arguments).weaken
    (show ∀ inner ∈ scope :: scopesAll arguments,
      inner ∈ scope :: (head.scopes ++ scopesAll arguments) by grind)
  rcases head with (value | method) | closure
  · exact (hparts.emit _).then fun _ => Run.has_pure_nil rfl
  · refine harguments.bind fun heads => ?_
    refine ((hparts.callNative method heads scope).weaken (by grind)).bind
      fun result => Run.has_pure ?_
    grind [Outcome.scopes]
  · refine harguments.bind fun heads => ?_
    exact ((hparts.call closure heads scope).weaken (by grind [Head.scopes])).bind
      fun frame => Run.has_pure_of_grasps (Grasps.body.append _)

theorem stepApplication (h : nested.Has trait) (operator : Expr ν) (arguments : List (Expr ν))
    (scope : Scope ν) :
    Run.Has trait Outcome.scopes (scope :: (operator.scopes ++ scopesAll arguments))
      (engine.stepApplication nested operator arguments scope) := by
  rw [Engine.stepApplication_eq]
  refine ((h.resolve operator scope).weaken (by grind)).bind fun head => ?_
  exact (hparts.applyHead h arguments scope head).weaken (by grind)

/-- A step of an expression, if that of an identifier has the trait. -/
theorem step (h : nested.Has trait) (expr : Expr ν) (scope : Scope ν)
    (hidentifier : ∀ name, expr = .identifier name →
      Run.Has trait Outcome.scopes [scope] (Run.stepIdentifier name scope)) :
    Run.Has trait Outcome.scopes (scope :: expr.scopes) (engine.step nested expr scope) := by
  rw [Engine.step_eq]
  refine hparts.tick.then fun _ => (hparts.emit _).then fun _ => ?_
  cases expr with
  | value value => exact Run.has_pure_nil rfl
  | native method => exact Run.has_pure_nil rfl
  | failure failure => exact Run.has_fail failure
  | identifier name => exact hidentifier name rfl
  | lambda items =>
    exact (hparts.close h items scope).bind fun frame =>
      Run.has_pure fun _ hm => List.mem_append_left _ hm
  | scope inner =>
    refine Run.has_pure_of_grasps (Grasps.enter.trans (.of_subset ?_))
    exact fun other hm => List.mem_cons_of_mem _ hm
  | application operator arguments => exact hparts.stepApplication h operator arguments scope

/-! ## Loops -/

omit hparts in
theorem ownName {needs : List (Scope ν)} (name : String) :
    Run.Has trait (fun _ => []) needs (Engine.ownName name) := by
  rw [Engine.ownName]
  cases positional? name with
  | some index => exact Run.has_fail _
  | none => exact Run.has_pure_nil rfl

omit hparts in
theorem finish (aim : Engine.Aim) (head : Head ν) (more : List (Scope ν)) :
    Run.Has trait aim.scopes (head.scopes ++ more) (Engine.finish aim head) := by
  cases aim with
  | head => exact Run.has_pure_append head more
  | name =>
    rw [Engine.finish]
    cases head.name? with
    | some name => exact Run.has_pure_nil rfl
    | none => exact Run.has_fail _

/-- Only at an identifier do the two loops part: one reads its record or resolves what it is bound
to, and to the other one it is a name. -/
theorem loop (h : nested.Has trait) (rounds : Nat) (aim : Engine.Aim) (expr : Expr ν)
    (scope : Scope ν) :
    Run.Has trait aim.scopes (scope :: expr.scopes)
      (engine.loop nested rounds aim expr scope) := by
  induction rounds generalizing expr scope with
  | zero =>
    cases hname : expr.identifier? with
    | none =>
      rw [Engine.loop_zero engine nested aim hname]
      exact hparts.exhaust
    | some name =>
      cases aim with
      | head => exact hparts.exhaust
      | name =>
        obtain rfl := Engine.eq_identifier hname
        exact ownName name
  | succ rounds ih =>
    cases hname : expr.identifier? with
    | none =>
      have hstep := hparts.step h expr scope fun name heq => by
        rw [heq] at hname
        cases hname
      rw [Engine.loop_succ engine nested rounds aim hname]
      refine hstep.bind_of_yields (Engine.step_entersNothing engine nested hname scope)
        fun outcome houtcome => ?_
      cases outcome with
      | finished head =>
        rw [Engine.loopAfterStep_finished]
        exact finish aim head _
      | further next inner =>
        rw [Engine.loopAfterStep_further]
        exact (ih next inner).append _
      | binding name bound owner => exact houtcome.elim
    | some name =>
      obtain rfl := Engine.eq_identifier hname
      cases aim with
      | head =>
        rw [Engine.loop, Engine.resolveLoop_identifier]
        exact hparts.tick.then fun _ => (hparts.emit _).then fun _ =>
          hparts.identifier nested rounds ih name scope
      | name => exact ownName name

end Engine.Has

end Nested

/-! ## Evaluations -/

namespace Engine.Has

variable {trait : Trait ν σ} {engine : Engine ν σ} (hparts : engine.Has trait)
include hparts

theorem nested (levels : Nat) : (engine.nested levels).Has trait := by
  induction levels with
  | zero => exact ⟨fun _ _ => Run.has_throw _, fun _ _ => Run.has_throw _⟩
  | succ levels ih => exact ⟨hparts.loop ih _ .head, hparts.loop ih _ .name⟩

theorem resolveTop (expr : Expr ν) (scope : Scope ν) :
    Run.Has trait Head.scopes (scope :: expr.scopes) (engine.resolveTop expr scope) :=
  (hparts.nested _).resolve expr scope

theorem forceLoop (rounds : Nat) (expr : Expr ν) (scope : Scope ν) :
    Run.Has trait (fun _ => []) (scope :: expr.scopes) (engine.forceLoop rounds expr scope) := by
  induction rounds generalizing expr scope with
  | zero => exact hparts.exhaust
  | succ rounds ih =>
    rw [Engine.forceLoop_succ]
    refine (hparts.resolveTop expr scope).bind fun head => ?_
    cases head with
    | terminal result => exact Run.has_pure_nil rfl
    | closure closure =>
      exact (hparts.emit _).then fun _ =>
        (ih closure.body closure).of_grasps (Grasps.body.append _)

theorem applyRun (operator : Expr ν) (arguments : List (Expr ν)) (scope : Scope ν) :
    Run.Has trait Expr.scopes (scope :: (operator.scopes ++ scopesAll arguments))
      (engine.applyRun operator arguments scope) := by
  refine ((hparts.resolveTop operator scope).weaken (by grind)).bind fun head => ?_
  cases arguments.findSome? Expr.failure? with
  | some failure => exact Run.has_fail failure
  | none =>
    rcases head with (value | method) | closure
    · exact Run.has_pure_nil rfl
    · exact (hparts.callNative method arguments scope).weaken (by grind)
    · exact ((hparts.call closure arguments scope).weaken (by grind [Head.scopes])).bind
        fun frame => Run.has_pure fun _ hm => List.mem_append_left _ hm

end Engine.Has
end CallByNeed
