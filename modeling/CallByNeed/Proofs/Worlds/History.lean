import CallByNeed.Proofs.Worlds.Growth
import CallByNeed.Host.Program

/-! # What a host leaves behind

A later world extends an earlier one if it grew out of it and its native calls continue those of the
earlier one. Native methods are programs, so their own doings, with all evaluations that they start,
are extensions as well (`Program.run_extends`), and so is every evaluation of a host's engine
(`Host.evaluate_extends`).
-/

namespace CallByNeed
set_option autoImplicit false

variable {ν σ : Type}

/-! ## Native calls -/

/-- A native method with the arguments and the scope it is entered with. -/
abbrev NativeCall (ν : Type) := Native ν × List (Expr ν) × Scope ν

/-- The native call that an event reports. -/
def Event.call? : Event ν → Option (NativeCall ν)
  | .invoking method arguments scope => some (method, arguments, scope)
  | _ => none

namespace World

/-- The native calls so far, in their order. -/
def calls (world : World ν σ) : List (NativeCall ν) :=
  world.events.toList.filterMap Event.call?

theorem calls_of_events {before after : World ν σ} (h : after.events = before.events) :
    after.calls = before.calls := by
  rw [calls, calls, h]

theorem calls_emit (world : World ν σ) (event : Event ν) :
    (world.emit event).calls = world.calls ++ event.call?.toList := by
  change (world.events.push event).toList.filterMap Event.call? = _
  rw [Array.toList_push, List.filterMap_append, calls]
  cases hcall : event.call? <;> simp [hcall]

theorem events_newThunks (calling : Scope ν) (exprs : List (Expr ν)) (world : World ν σ) :
    (world.newThunks calling exprs).2.events = world.events := by
  induction exprs generalizing world with
  | nil => rfl
  | cons expr rest ih => exact ih (world.newThunk expr calling).2

theorem events_newCall (closure : Scope ν) (arguments : List (Expr ν)) (calling : Scope ν)
    (world : World ν σ) : (world.newCall closure arguments calling).2.events = world.events :=
  events_newThunks calling arguments world

/-! ## Extensions -/

/-- A later world has grown, and has the native calls of the earlier one and then more. -/
structure Extends (before after : World ν σ) : Prop where
  grows : before.Grows after
  calls : before.calls <+: after.calls

namespace Extends

theorem refl (world : World ν σ) : world.Extends world :=
  ⟨.refl world, List.prefix_refl _⟩

theorem trans {first second third : World ν σ} (h : first.Extends second)
    (h' : second.Extends third) : first.Extends third :=
  ⟨h.grows.trans h'.grows, h.calls.trans h'.calls⟩

/-- Growth without an event is an extension. -/
theorem of_events {before after : World ν σ} (hgrows : before.Grows after)
    (h : after.events = before.events) : before.Extends after := by
  have hcalls : after.calls = before.calls := calls_of_events h
  exact ⟨hgrows, hcalls ▸ List.prefix_refl _⟩

end Extends

theorem extends_emit (world : World ν σ) (event : Event ν) :
    world.Extends (world.emit event) := by
  refine ⟨.of_cells rfl, ?_⟩
  rw [calls_emit]
  exact List.prefix_append _ _

/-- An event that is no native call can be taken back. -/
theorem extends_of_emit {before after : World ν σ} (h : before.Extends after)
    {event : Event ν} (hevent : event.call? = none) : (before.emit event).Extends after := by
  have hcalls : (before.emit event).calls = before.calls := by
    simp [calls_emit, hevent]
  have hback : (before.emit event).Grows before := .of_cells rfl
  refine ⟨hback.trans h.grows, ?_⟩
  rw [hcalls]
  exact h.calls

theorem Change.extends {invoke : Invoke ν σ}
    (hnative : ∀ method arguments scope world,
      World.Extends world (invoke method arguments scope world).2)
    {before after : World ν σ} (h : Change invoke before after) : before.Extends after := by
  have hgrows : before.Grows after := h.grows fun method arguments scope world =>
    (hnative method arguments scope world).grows
  cases h with
  | event event => exact extends_emit before event
  | value payload => exact .of_events hgrows rfl
  | closure bindings body parent => exact .of_events hgrows rfl
  | call closure arguments calling => exact .of_events hgrows (events_newCall _ _ _ _)
  | record scope name result => exact .of_events hgrows rfl
  | native method arguments scope => exact hnative method arguments scope before

end World

/-- The law that worlds are only ever extended. -/
def Law.extension (ν σ : Type) : Law ν σ :=
  .ofWorlds World.Extends World.Extends.refl World.Extends.trans

/-! ## Hosts -/

/-- An engine's evaluations extend the world if its native methods do. -/
theorem Engine.extension_lawful {engine : Engine ν σ}
    (hnative : ∀ method arguments scope world,
      World.Extends world (engine.invoke method arguments scope world).2) :
    engine.Lawful (Law.extension ν σ) :=
  Law.ofWorlds_lawful fun h => h.extends hnative

theorem Program.run_extends {invoke : Invoke ν σ}
    (hnative : ∀ method arguments scope world,
      World.Extends world (invoke method arguments scope world).2)
    (program : Program ν σ) (world : World ν σ) :
    world.Extends (program.run invoke world).2 := by
  induction program generalizing world with
  | done result => exact .refl world
  | newValue payload next ih =>
    have hvalue : world.Extends (world.buildValue payload).2 := .of_events (.of_cells rfl) rfl
    exact hvalue.trans (ih _ _)
  | newRoot bindings next ih =>
    have hroot : world.Extends (world.newRoot bindings).2 :=
      .of_events (World.grows_newScope world _) rfl
    exact hroot.trans (ih _ _)
  | newThunk deferred calling next ih =>
    have hthunk : world.Extends (world.newThunk deferred calling).2 :=
      .of_events (World.grows_newScope world _) rfl
    exact hthunk.trans (ih _ _)
  | newCall closure arguments calling next ih =>
    have hcall : world.Extends (world.newCall closure arguments calling).2 :=
      .of_events (World.grows_newCall _ _ _ _) (World.events_newCall _ _ _ _)
    exact hcall.trans (ih _ _)
  | memoized scope name next ih => exact ih _ world
  | host change next ih =>
    have hhost : world.Extends (world.updateHost fun state => (state, change state)).2 :=
      .of_events (.of_cells rfl) rfl
    exact hhost.trans (ih _ _)
  | evaluate limits request next ih =>
    -- The evaluation is one of an engine whose native methods extend worlds by assumption.
    have hlawful : Engine.Lawful ⟨limits, invoke⟩ (Law.extension ν σ) :=
      Engine.extension_lawful hnative
    have hevaluated := (Engine.evaluate_obeys hlawful request world).2
    exact World.Extends.trans hevaluated (ih _ _ _)

namespace Host

theorem invokeAt_extends (host : Host ν σ) (levels : Nat) (method : Native ν)
    (arguments : List (Expr ν)) (scope : Scope ν) (world : World ν σ) :
    world.Extends (host.invokeAt levels method arguments scope world).2 := by
  induction levels generalizing method arguments scope world with
  | zero => exact .refl world
  | succ levels ih => exact Program.run_extends ih (host method arguments scope) world

theorem engine_extension (host : Host ν σ) (levels : Nat) (limits : Limits) :
    (host.engine levels limits).Lawful (Law.extension ν σ) :=
  Engine.extension_lawful (host.invokeAt_extends levels)

/-- Every evaluation of a host's engine extends the world. -/
theorem evaluate_extends (host : Host ν σ) (levels : Nat) (limits : Limits)
    (request : Evaluation ν) (world : World ν σ) :
    world.Extends ((host.engine levels limits).evaluate request world).world :=
  (Engine.evaluate_obeys (host.engine_extension levels limits) request world).2

end Host
end CallByNeed
