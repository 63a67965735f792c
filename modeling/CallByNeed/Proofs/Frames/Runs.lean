import CallByNeed.Proofs.Frames.Orderly
import CallByNeed.Proofs.Runs.Traits

/-! # Runs through orderly worlds

A run is orderly if it leads from every orderly world that stores what the run uses to an orderly
world, however it ends, and if that world stores what the run comes to. This is a trait of runs
(`Trait.orderly`). Natives may do what they like as long as they are orderly themselves
(`Invoke.Honest`); then all evaluations are (`Engine.evaluate_passes`).
-/

namespace CallByNeed
set_option autoImplicit false

variable {ν σ α β : Type}

/-- An orderly world has grown into another one, which stores what was come to. -/
structure World.Passes (held : σ → List (Scope ν)) (scopes : α → List (Scope ν))
    (before : World ν σ) (outcome : Except Stop α) (after : World ν σ) : Prop where
  grows : before.Grows after
  orderly : after.Orderly held
  stored : ∀ {result}, outcome = .ok result → after.StoresAll (scopes result)

/-- From every orderly world that stores these scopes, the run passes to an orderly one. -/
def Run.Orderly (held : σ → List (Scope ν)) (scopes : α → List (Scope ν))
    (needs : List (Scope ν)) (run : Run ν σ α) : Prop :=
  ∀ machine : Machine ν σ, machine.world.Orderly held → machine.world.StoresAll needs →
    World.Passes held scopes machine.world (run machine).1 (run machine).2.world

namespace Run

variable {held : σ → List (Scope ν)} {scopes : β → List (Scope ν)} {needs : List (Scope ν)}

/-! ## Composition -/

theorem Orderly.bind {between : α → List (Scope ν)} {run : Run ν σ α} {next : α → Run ν σ β}
    {property : α → Prop} (h : Orderly held between needs run) (hyields : run.Yields property)
    (hn : ∀ result, property result →
      Orderly held scopes (between result ++ needs) (next result)) :
    Orderly held scopes needs (run >>= next) := by
  intro machine horderly hstored
  have hpasses := h machine horderly hstored
  rw [bind_apply]
  rcases hrun : run machine with ⟨stop | result, middle⟩
  · rw [hrun] at hpasses
    exact ⟨hpasses.grows, hpasses.orderly, nofun⟩
  · rw [hrun] at hpasses
    have hneeds := (hpasses.stored rfl).append (hstored.grows hpasses.grows)
    have hlater := hn result (hyields machine result middle hrun) middle hpasses.orderly hneeds
    exact ⟨hpasses.grows.trans hlater.grows, hlater.orderly, hlater.stored⟩

theorem orderly_pure {result : β} (h : Scope.Grasps needs (scopes result)) :
    Orderly held scopes needs (pure result : Run ν σ β) := by
  intro machine horderly hstored
  refine ⟨.refl _, horderly, fun hresult => ?_⟩
  cases hresult
  exact h.stored horderly.consistent hstored

theorem orderly_throw (stop : Stop) :
    Orderly held scopes needs (throw stop : Run ν σ β) :=
  fun _ horderly _ => ⟨.refl _, horderly, nofun⟩

end Run

/-- Runs that keep worlds orderly. -/
def Trait.orderly (held : σ → List (Scope ν)) : Trait ν σ where
  holds := Run.Orderly held
  of_pure := Run.orderly_pure
  of_throw := Run.orderly_throw
  of_bind := Run.Orderly.bind
  of_grasps h hneeds machine horderly hstored :=
    h machine horderly (hneeds.stored horderly.consistent hstored)

/-! ## Parts -/

namespace Run

variable {held : σ → List (Scope ν)} {needs : List (Scope ν)}

theorem orderly_tick (limits : Limits) :
    Has (.orderly held) (fun _ => []) needs (tick limits : Run ν σ Unit) := by
  intro machine horderly _
  rw [tick_apply]
  by_cases h : limits.maxSteps < machine.steps + 1
  · rw [if_pos h]
    exact ⟨.refl _, horderly, nofun⟩
  · rw [if_neg h]
    exact ⟨.refl _, horderly, fun _ => .nil⟩

theorem orderly_emit (event : Event ν) :
    Has (.orderly held) (fun _ => []) needs (emit event : Run ν σ Unit) :=
  fun _ horderly _ => ⟨.of_cells rfl, horderly.of_cells rfl rfl, fun _ => .nil⟩

theorem orderly_memoized (owner : Scope ν) (name : String) :
    Has (.orderly held) (fun _ => []) needs (memoized owner name : Run ν σ (Option (Terminal ν))) :=
  fun _ horderly _ => ⟨.refl _, horderly, fun _ => .nil⟩

theorem orderly_record (head : Head ν) (owners : List (Scope ν × String)) :
    Has (.orderly held) (fun _ => []) needs (record head owners : Run ν σ Unit) := by
  cases head with
  | closure closure => exact has_pure_nil rfl
  | terminal result =>
    intro machine horderly _
    exact ⟨World.grows_memoizeAll result owners _, horderly.memoizeAll result owners,
      fun _ => .nil⟩

theorem orderly_newClosure (table : Table (Expr ν)) (body : Expr ν) (scope : Scope ν) :
    Has (.orderly held) (fun frame => [frame]) (scope :: (table.scopes ++ body.scopes))
      (withWorld (World.newClosure table body scope) : Run ν σ (Scope ν)) := by
  intro machine horderly hstored
  have hgrows : machine.world.Grows (machine.world.newClosure table body scope).2 :=
    World.grows_newScope machine.world _
  refine ⟨hgrows,
    horderly.newClosure hstored.tail.left hstored.tail.right hstored.head, fun hframe => ?_⟩
  cases hframe
  exact .cons (World.stores_newScope machine.world
    (fun number => .closure number table body scope) rfl) .nil

theorem orderly_newCall (closure : Scope ν) (arguments : List (Expr ν)) (scope : Scope ν) :
    Has (.orderly held) (fun frame => [frame]) (closure :: scope :: scopesAll arguments)
      (withWorld (World.newCall closure arguments scope) : Run ν σ (Scope ν)) := by
  intro machine horderly hstored
  refine ⟨World.grows_newCall _ _ _ _,
    horderly.newCall hstored.head hstored.tail.tail hstored.tail.head, fun hframe => ?_⟩
  cases hframe
  have hcall := horderly.consistent.newCall hstored.head hstored.tail.tail hstored.tail.head
  exact .cons hcall.2 .nil

end Run

/-- The natives forge no frames: in an orderly world, whatever they do with stored scopes keeps the
world orderly, and the scopes of what they give are stored. -/
def Invoke.Honest (held : σ → List (Scope ν)) (invoke : Invoke ν σ) : Prop :=
  ∀ method arguments scope (world : World ν σ), world.Orderly held →
    world.StoresAll (scope :: scopesAll arguments) →
    World.Passes held Expr.scopes world (.ok (invoke method arguments scope world).1)
      (invoke method arguments scope world).2

namespace Engine

variable {held : σ → List (Scope ν)} {engine : Engine ν σ} {nested : Nested ν σ}
  (hnatives : engine.invoke.Honest held)
include hnatives

theorem has_orderly : engine.Has (.orderly held) where
  tick := Run.orderly_tick engine.limits
  emit := Run.orderly_emit
  newClosure := Run.orderly_newClosure
  newCall := Run.orderly_newCall
  native method arguments scope machine := hnatives method arguments scope machine.world
  identifier _ _ :=
    Run.has_identifierRun Run.orderly_memoized fun head owner name =>
      Run.orderly_record head [(owner, name)]

/-! ## Steps and loops -/

theorem step_orderly (h : nested.Has (.orderly held)) (expr : Expr ν) (scope : Scope ν) :
    Run.Has (.orderly held) Outcome.scopes (scope :: expr.scopes)
      (engine.step nested expr scope) :=
  (has_orderly hnatives).step h expr scope fun name _ =>
    Run.has_stepIdentifier Run.orderly_memoized name scope

theorem resolveLoop_orderly (h : nested.Has (.orderly held)) (rounds : Nat) (expr : Expr ν)
    (scope : Scope ν) (pending : List (Scope ν × String)) :
    Run.Has (.orderly held) Head.scopes (scope :: expr.scopes)
      (engine.resolveLoop nested rounds expr scope pending) := by
  rw [resolveLoop_pending]
  refine ((has_orderly hnatives).loop h rounds .head expr scope).bind fun head => ?_
  exact (Run.orderly_record head pending).then fun _ => Run.has_pure_append head _

/-! ## Evaluations -/

omit hnatives in
/-- The end of a program is an event, and a native method left over a new value. -/
theorem interpretRun_leaves (engine : Engine ν σ) (program : Expr ν) (root : Scope ν)
    (machine : Machine ν σ) :
    (engine.interpretRun program root machine).2.world.cells =
        (engine.forceLoop engine.limits.maxSteps program root machine).2.world.cells ∧
      (engine.interpretRun program root machine).2.world.host =
        (engine.forceLoop engine.limits.maxSteps program root machine).2.world.host := by
  rw [interpretRun]
  rcases engine.forceLoop engine.limits.maxSteps program root machine with
    ⟨stop | (value | method), after⟩ <;> exact ⟨rfl, rfl⟩

theorem interpretRun_orderly (program : Expr ν) (root : Scope ν) :
    Run.Has (.orderly held) (fun _ => []) (root :: program.scopes)
      (engine.interpretRun program root) := by
  intro machine horderly hstored
  have hforce := (has_orderly hnatives).forceLoop engine.limits.maxSteps program root machine
    horderly hstored
  obtain ⟨hcells, hhost⟩ := engine.interpretRun_leaves program root machine
  exact ⟨hforce.grows.trans (.of_cells hcells), hforce.orderly.of_cells hcells hhost,
    fun _ => .nil⟩

theorem run_orderly (request : Evaluation ν) :
    Run.Has (.orderly held) Expr.scopes request.scopes (engine.run request) := by
  have hparts := has_orderly hnatives
  cases request with
  | resolve expr scope =>
    rw [run, map_eq_pure_bind]
    exact (hparts.resolveTop expr scope).bind fun head =>
      Run.has_pure fun _ hm => List.mem_append_left _ (Head.scopes_toExpr head ▸ hm)
  | force expr scope =>
    rw [run, map_eq_pure_bind]
    refine (hparts.forceLoop _ expr scope).then fun result => Run.has_pure_nil ?_
    cases result <;> rfl
  | apply operator arguments scope => exact hparts.applyRun operator arguments scope
  | close items scope =>
    rw [run, map_eq_pure_bind]
    exact (hparts.close (hparts.nested _) items scope).bind fun frame =>
      Run.has_pure fun _ hm => List.mem_append_left _ hm
  | interpret program root =>
    rw [run, map_eq_pure_bind]
    exact (interpretRun_orderly hnatives program root).then fun value => Run.has_pure_nil rfl

/-- Every evaluation passes from an orderly world to an orderly one, however it ends, and what it
comes to is stored there. -/
theorem evaluate_passes (request : Evaluation ν) {world : World ν σ}
    (horderly : world.Orderly held) (hrequest : world.StoresAll request.scopes) :
    World.Passes held Expr.scopes world (engine.evaluate request world).outcome
      (engine.evaluate request world).world :=
  run_orderly hnatives request ⟨0, world⟩ horderly hrequest

end Engine
end CallByNeed
