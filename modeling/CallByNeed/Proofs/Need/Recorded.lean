import CallByNeed.Proofs.Frames.Store
import CallByNeed.Proofs.Worlds.History

/-! # Identifiers that are answered by a record

Once the resolution of an identifier ended in a value or a native method, the owner of the
identifier has a record for it (`Engine.resolveLoop_leaves_record`). This holds of every round of a
resolution, whatever was met before it in the chain of identifiers. A recorded identifier is
answered from the record: what it is bound to is not entered through it again, and its resolution
takes two steps that change nothing (`World.answers_of_memoized`).
-/

namespace CallByNeed
set_option autoImplicit false

variable {ν σ α β : Type}

/-! ## Steps that enter a binding -/

namespace Engine

section Steps

variable {engine : Engine ν σ} {nested : Nested ν σ} {scope : Scope ν}
  {machine after : Machine ν σ} {name : String}

/-- A step of an identifier leads to its record or, without one, to what it is bound to. -/
theorem step_identifier {outcome : Outcome ν}
    (h : engine.step nested (.identifier name) scope machine = (.ok outcome, after)) :
    after = ⟨machine.steps + 1, machine.world.emit (.resolving (.identifier name))⟩ ∧
      ∃ bound owner, scope.find name = .ok (bound, owner) ∧
        (machine.world.memoized owner name = none ∧ outcome = .binding name bound owner ∨
          ∃ result, machine.world.memoized owner name = some result ∧
            outcome = .further result.toExpr owner) := by
  rw [step_eq] at h
  replace h : Run.stepIdentifier name scope ⟨machine.steps + 1, machine.world.emit _⟩ = _ :=
    Run.ok_of_tick_bind h
  rw [Run.stepIdentifier] at h
  cases hfind : scope.find name with
  | error failure =>
    rw [hfind] at h
    cases h
  | ok found =>
    obtain ⟨bound, owner⟩ := found
    rw [hfind] at h
    replace h : (Run.memoized owner name >>= _) _ = _ := h
    rw [Run.bind_apply, Run.memoized_apply] at h
    cases hrecord : machine.world.memoized owner name with
    | some result =>
      rw [show (World.emit _ machine.world).memoized owner name = some result from hrecord] at h
      cases h
      exact ⟨rfl, bound, owner, rfl, .inr ⟨result, hrecord, rfl⟩⟩
    | none =>
      rw [show (World.emit _ machine.world).memoized owner name = none from hrecord] at h
      cases h
      exact ⟨rfl, bound, owner, rfl, .inl ⟨hrecord, rfl⟩⟩

/-- Identifiers enter what they are bound to only without a record. -/
theorem step_binding {expr bound : Expr ν} {owner : Scope ν}
    (h : engine.step nested expr scope machine = (.ok (.binding name bound owner), after)) :
    machine.world.memoized owner name = none := by
  cases hexpr : expr.identifier? with
  | none => exact (step_entersNothing engine nested hexpr scope _ _ _ h).elim
  | some found =>
    obtain rfl := eq_identifier hexpr
    obtain ⟨-, inside, holder, -, ⟨hnone, hsame⟩ | ⟨result, -, hsame⟩⟩ := step_identifier h
    · cases hsame
      exact hnone
    · cases hsame

end Steps

end Engine

/-! ## Answers -/

/-- The identifier of the frame is answered by its record: no step enters what it is bound to, and
its resolution comes to the record in two steps, from any scope in which the frame owns it and
whatever engine is used. These steps make no frame and no record, call no native method and leave
the host alone. -/
structure World.Answers (world : World ν σ) (owner : Scope ν) (name : String)
    (result : Terminal ν) : Prop where
  recorded : world.memoized owner name = some result
  unentered : ∀ (engine : Engine ν σ) (nested : Nested ν σ) (expr : Expr ν) (scope : Scope ν)
    (steps : Nat) (bound : Expr ν) (holder : Scope ν) (after : Machine ν σ),
    holder.number = owner.number →
    engine.step nested expr scope ⟨steps, world⟩ ≠ (.ok (.binding name bound holder), after)
  resolved : ∀ (engine : Engine ν σ) (scope : Scope ν) (bound : Expr ν) (holder : Scope ν),
    holder.number = owner.number → scope.find name = .ok (bound, holder) →
    2 ≤ engine.limits.maxSteps →
    let evaluated := engine.evaluate (.resolve (.identifier name) scope) world
    evaluated.outcome = .ok result.toExpr ∧ evaluated.steps = 2 ∧
      evaluated.world.cells = world.cells ∧ evaluated.world.calls = world.calls ∧
      evaluated.world.values = world.values ∧ evaluated.world.host = world.host

namespace Engine

/-- A recorded identifier comes to its record in two steps. -/
theorem resolveTop_recorded (engine : Engine ν σ) (hsteps : 2 ≤ engine.limits.maxSteps)
    {world : World ν σ} {scope owner : Scope ν} {name : String} {bound : Expr ν}
    {result : Terminal ν} (hfind : scope.find name = .ok (bound, owner))
    (hrecord : world.memoized owner name = some result) :
    engine.resolveTop (.identifier name) scope ⟨0, world⟩ =
      (.ok (.terminal result), ⟨2, (world.emit (.resolving (.identifier name))).emit
        (.resolving result.toExpr)⟩) := by
  show engine.resolveLoop (engine.nested engine.limits.maxDepth) engine.limits.maxSteps
    (.identifier name) scope [] ⟨0, world⟩ = _
  obtain ⟨rounds, hrounds⟩ : ∃ rounds, engine.limits.maxSteps = rounds + 1 + 1 :=
    ⟨engine.limits.maxSteps - 2, by omega⟩
  have htick : Run.tick engine.limits (⟨0, world⟩ : Machine ν σ) = (.ok (), ⟨1, world⟩) := by
    rw [Run.tick_apply, if_neg (show ¬engine.limits.maxSteps < 0 + 1 by omega)]
  rw [hrounds, resolveLoop_identifier, Run.bind_apply, htick]
  show (Run.emit (.resolving (.identifier name)) >>= _) (⟨1, world⟩ : Machine ν σ) = _
  rw [Run.bind_apply, Run.emit_apply]
  show identifierRun _ name scope ⟨1, world.emit (.resolving (.identifier name))⟩ = _
  rw [identifierRun_recorded hfind hrecord]
  exact resolveLoop_terminal rounds result owner (by show 1 + 1 ≤ engine.limits.maxSteps; omega)

end Engine

theorem World.answers_of_memoized {world : World ν σ} {owner : Scope ν} {name : String}
    {result : Terminal ν} (h : world.memoized owner name = some result) :
    world.Answers owner name result where
  recorded := h
  unentered engine nested expr scope steps bound holder after hnumber hstep := by
    have hnone : world.memoized holder name = none := Engine.step_binding hstep
    rw [memoized_eq, hnumber, ← memoized_eq, h] at hnone
    cases hnone
  resolved engine scope bound holder hnumber hfind hsteps := by
    have hrecord : world.memoized holder name = some result := by
      rw [memoized_eq, hnumber, ← memoized_eq, h]
    have hrun : engine.run (.resolve (.identifier name) scope) ⟨0, world⟩ =
        (.ok result.toExpr, ⟨2, (world.emit (.resolving (.identifier name))).emit
          (.resolving result.toExpr)⟩) := by
      rw [Engine.run, map_eq_pure_bind, Run.bind_apply,
        engine.resolveTop_recorded hsteps hfind hrecord]
      rfl
    have hcalls : ∀ (other : World ν σ) (expr : Expr ν),
        (other.emit (.resolving expr)).calls = other.calls := fun other expr => by
      rw [calls_emit]
      exact List.append_nil _
    rw [Engine.evaluate, Run.execute, hrun]
    exact ⟨rfl, rfl, rfl, (hcalls _ _).trans (hcalls _ _), rfl, rfl⟩

/-! ## Resolutions leave a record -/

/-- A written record is there, be it this one or an earlier one. -/
theorem World.recorded_of_memoize {world : World ν σ} {owner : Scope ν}
    (howner : owner.number < world.size) (name : String) (result : Terminal ν) :
    ∃ recorded, (world.memoize owner name result).memoized owner name = some recorded := by
  rw [memoized_eq, recordAt_memoize, if_pos ⟨rfl, rfl, howner⟩]
  exact ⟨_, rfl⟩

namespace Engine

section Resolutions

variable {held : σ → List (Scope ν)} {engine : Engine ν σ} {nested : Nested ν σ}
  (hnatives : engine.invoke.Honest held) (hnested : nested.Has (.orderly held))
include hnatives hnested

/-- The resolution of an identifier on its own. -/
theorem identifierRun_leaves_record (rounds : Nat) {name : String} {scope : Scope ν}
    {machine after : Machine ν σ} {result : Terminal ν}
    (h : identifierRun (fun expr inner => engine.resolveLoop nested rounds expr inner []) name
      scope machine = (.ok (.terminal result), after))
    (horderly : machine.world.Orderly held) (hscope : machine.world.Stores scope) :
    ∃ bound owner recorded, scope.find name = .ok (bound, owner) ∧
      after.world.memoized owner name = some recorded := by
  cases hfind : scope.find name with
  | error failure =>
    rw [identifierRun_missing hfind] at h
    cases h
  | ok found =>
    obtain ⟨bound, owner⟩ := found
    obtain ⟨howner, hbound, -⟩ := hscope.find horderly.consistent hfind
    have hloop : ∀ expr, machine.world.StoresAll expr.scopes → machine.world.Grows
        (engine.resolveLoop nested rounds expr owner [] machine).2.world := fun expr hexpr =>
      (resolveLoop_orderly hnatives hnested rounds expr owner [] machine horderly
        (.cons howner hexpr)).grows
    cases hrecord : machine.world.memoized owner name with
    | some recorded =>
      -- The record was there before, and records stay.
      have hgrows := hloop recorded.toExpr (by cases recorded <;> exact .nil)
      rw [identifierRun_recorded hfind hrecord] at h
      rw [h] at hgrows
      exact ⟨bound, owner, recorded, rfl, hgrows.record hrecord⟩
    | none =>
      have hgrows := hloop bound (howner.contents horderly.consistent hbound)
      rw [identifierRun_unrecorded hfind hrecord] at h
      obtain ⟨head, middle, hrun, hwrites⟩ := Run.ok_of_bind h
      rw [hrun] at hgrows
      cases head with
      | closure closure => cases hwrites
      | terminal last =>
        cases hwrites
        obtain ⟨recorded, hrecorded⟩ := World.recorded_of_memoize
          (Nat.lt_of_lt_of_le howner.lt_size hgrows.size) name result
        exact ⟨bound, owner, recorded, rfl, hrecorded⟩

/-- A resolution of an identifier that ends in a value or a native method leaves a record in the
frame that owns it, whatever identifiers were met before it. -/
theorem resolveLoop_leaves_record {rounds : Nat} {name : String} {scope : Scope ν}
    {pending : List (Scope ν × String)} {machine after : Machine ν σ} {result : Terminal ν}
    (h : engine.resolveLoop nested rounds (.identifier name) scope pending machine
      = (.ok (.terminal result), after))
    (horderly : machine.world.Orderly held) (hscope : machine.world.Stores scope) :
    ∃ bound owner recorded, scope.find name = .ok (bound, owner) ∧
      after.world.memoized owner name = some recorded := by
  rw [resolveLoop_pending] at h
  obtain ⟨head, middle, hrun, hwrites⟩ := Run.ok_of_bind h
  cases head with
  | closure closure => cases hwrites
  | terminal last =>
    cases hwrites
    cases rounds with
    | zero =>
      rw [resolveLoop, Run.exhaust_apply] at hrun
      cases hrun
    | succ rounds =>
      rw [resolveLoop_identifier] at hrun
      replace hrun : identifierRun
          (fun expr inner => engine.resolveLoop nested rounds expr inner []) name scope
          ⟨machine.steps + 1, machine.world.emit (.resolving (.identifier name))⟩ =
        (.ok (.terminal result), middle) := Run.ok_of_tick_bind hrun
      obtain ⟨bound, owner, recorded, hfind, hrecorded⟩ :=
        identifierRun_leaves_record hnatives hnested rounds hrun (horderly.of_cells rfl rfl)
          (hscope.grows (.of_cells rfl))
      exact ⟨bound, owner, recorded, hfind,
        (World.grows_memoizeAll result pending middle.world).record hrecorded⟩

end Resolutions

end Engine
end CallByNeed
