import CallByNeed.Proofs.Moves.Basic
import CallByNeed.Proofs.Worlds.History

/-! # Worlds up to their logs

Two worlds match if they differ in what their logs say beside the native calls. Nothing that the
reducer does depends on the log, nor on how many steps were counted before, so a run that is blind
(`Run.Blind`) comes to the same from matching worlds, and leaves matching worlds.
-/

namespace CallByNeed
set_option autoImplicit false

variable {ν σ α β : Type}

namespace World

/-- The same frames, records, values, host and native calls. -/
structure Matches (world world' : World ν σ) : Prop where
  cells : world'.cells = world.cells
  values : world'.values = world.values
  host : world'.host = world.host
  calls : world'.calls = world.calls

namespace Matches

theorem refl (world : World ν σ) : world.Matches world :=
  ⟨rfl, rfl, rfl, rfl⟩

theorem symm {world world' : World ν σ} (h : world.Matches world') : world'.Matches world :=
  ⟨h.cells.symm, h.values.symm, h.host.symm, h.calls.symm⟩

theorem trans {first second third : World ν σ} (h : first.Matches second)
    (h' : second.Matches third) : first.Matches third :=
  ⟨h'.cells.trans h.cells, h'.values.trans h.values, h'.host.trans h.host,
    h'.calls.trans h.calls⟩

variable {world world' : World ν σ} (h : world.Matches world')
include h

theorem memoized (scope : Scope ν) (name : String) :
    world'.memoized scope name = world.memoized scope name := by
  unfold World.memoized
  rw [h.cells]

theorem emit (event : Event ν) : (world.emit event).Matches (world'.emit event) := by
  refine ⟨h.cells, h.values, h.host, ?_⟩
  rw [calls_emit, calls_emit, h.calls]

end Matches

/-- What is reported beside native calls does not matter. -/
theorem matches_emit (world : World ν σ) {event : Event ν} (hevent : event.call? = none) :
    world.Matches (world.emit event) := by
  refine ⟨rfl, rfl, rfl, ?_⟩
  rw [calls_emit, hevent]
  exact List.append_nil _

/-- The change gives the same in matching worlds, and leaves matching worlds. -/
def Blind (change : World ν σ → α × World ν σ) : Prop :=
  ∀ world world', world.Matches world' →
    (change world').1 = (change world).1 ∧ (change world).2.Matches (change world').2

theorem Blind.bind {change : World ν σ → α × World ν σ} {next : α → World ν σ → β × World ν σ}
    (h : Blind change) (hn : ∀ result, Blind (next result)) :
    Blind fun world => next (change world).1 (change world).2 := by
  intro world world' hworld
  obtain ⟨hresult, hafter⟩ := h world world' hworld
  have hnext := hn (change world).1 _ _ hafter
  simp only [hresult]
  exact hnext

theorem blind_newScope (make : Nat → Scope ν) : Blind (newScope make : World ν σ → _) := by
  rintro ⟨cells, values, host, events⟩ ⟨_, _, _, events'⟩ ⟨rfl, rfl, rfl, hcalls⟩
  exact ⟨rfl, rfl, rfl, rfl, hcalls⟩

theorem blind_buildValue (payload : Payload ν) : Blind (buildValue payload : World ν σ → _) := by
  rintro ⟨cells, values, host, events⟩ ⟨_, _, _, events'⟩ ⟨rfl, rfl, rfl, hcalls⟩
  exact ⟨rfl, rfl, rfl, rfl, hcalls⟩

theorem blind_updateHost (change : σ → α × σ) : Blind (updateHost change : World ν σ → _) := by
  rintro ⟨cells, values, host, events⟩ ⟨_, _, _, events'⟩ ⟨rfl, rfl, rfl, hcalls⟩
  exact ⟨rfl, rfl, rfl, rfl, hcalls⟩

theorem blind_newThunks (calling : Scope ν) (exprs : List (Expr ν)) :
    Blind (newThunks calling exprs : World ν σ → _) := by
  induction exprs with
  | nil => exact fun world world' h => ⟨rfl, h⟩
  | cons expr rest ih =>
    intro world world' h
    obtain ⟨hthunk, hafter⟩ :=
      blind_newScope (fun number => .thunk number expr calling) world world' h
    obtain ⟨hrest, hend⟩ := ih _ _ hafter
    exact ⟨congrArg₂ (fun thunk thunks => Expr.scope thunk :: thunks) hthunk hrest, hend⟩

theorem blind_newCall (closure : Scope ν) (arguments : List (Expr ν)) (calling : Scope ν) :
    Blind (newCall closure arguments calling : World ν σ → _) :=
  (blind_newThunks calling arguments).bind fun thunks =>
    blind_newScope fun number => .call number closure thunks

theorem Matches.memoizeAll {world world' : World ν σ} (h : world.Matches world')
    (result : Terminal ν) (owners : List (Scope ν × String)) :
    (world.memoizeAll result owners).Matches (world'.memoizeAll result owners) := by
  induction owners generalizing world world' with
  | nil => exact h
  | cons owner owners ih =>
    refine ih ?_
    obtain ⟨cells, values, host, events⟩ := world
    obtain ⟨_, _, _, events'⟩ := world'
    obtain ⟨rfl, rfl, rfl, hcalls⟩ := h
    exact ⟨rfl, rfl, rfl, hcalls⟩

end World

/-- Native methods that do not depend on the log. -/
def Invoke.Blind (invoke : Invoke ν σ) : Prop :=
  ∀ method arguments scope, World.Blind (invoke method arguments scope)

/-! ## Runs -/

/-- The second machine has counted so many steps more, in a matching world. -/
structure Machine.Ahead (lead : Nat) (machine machine' : Machine ν σ) : Prop where
  steps : machine'.steps = machine.steps + lead
  world : machine.world.Matches machine'.world

/-- From a machine that is ahead the run comes to the same, and stays ahead. -/
def Run.Blind (run : Run ν σ α) : Prop :=
  ∀ lead machine machine', Machine.Ahead lead machine machine' →
    (run machine').1 = (run machine).1 ∧ Machine.Ahead lead (run machine).2 (run machine').2

namespace Run

theorem blind_pure (result : α) : Blind (pure result : Run ν σ α) :=
  fun _ _ _ h => ⟨rfl, h⟩

theorem blind_throw (stop : Stop) : Blind (throw stop : Run ν σ α) :=
  fun _ _ _ h => ⟨rfl, h⟩

theorem blind_emit (event : Event ν) : Blind (emit event : Run ν σ Unit) :=
  fun _ _ _ h => ⟨rfl, h.steps, h.world.emit event⟩

theorem blind_memoized (scope : Scope ν) (name : String) :
    Blind (memoized scope name : Run ν σ (Option (Terminal ν))) :=
  fun _ _ _ h => ⟨congrArg Except.ok (h.world.memoized scope name), h⟩

theorem blind_withWorld {change : World ν σ → α × World ν σ} (h : World.Blind change) :
    Blind (withWorld change) := by
  intro lead machine machine' hahead
  obtain ⟨hresult, hafter⟩ := h _ _ hahead.world
  exact ⟨congrArg Except.ok hresult, hahead.steps, hafter⟩

theorem Blind.bind {first : Run ν σ α} {next : α → Run ν σ β} (h : Blind first)
    (hn : ∀ result, Blind (next result)) : Blind (first >>= next) := by
  intro lead machine machine' hahead
  obtain ⟨houtcome, hafter⟩ := h lead machine machine' hahead
  rw [bind_apply, bind_apply]
  rcases hrun : first machine with ⟨stop | result, after⟩
  · rcases hrun' : first machine' with ⟨outcome, after'⟩
    rw [hrun, hrun'] at houtcome hafter
    cases houtcome
    exact ⟨rfl, hafter⟩
  · rcases hrun' : first machine' with ⟨outcome, after'⟩
    rw [hrun, hrun'] at houtcome hafter
    cases houtcome
    exact hn result lead after after' hafter

theorem blind_reportRebound (name : String) (table : Table (Expr ν)) :
    Blind (reportRebound name table : Run ν σ Unit) := by
  rw [reportRebound]
  cases table.find? name with
  | none => exact blind_pure ()
  | some dropped => exact blind_emit _

theorem blind_record (head : Head ν) (owners : List (Scope ν × String)) :
    Blind (record head owners : Run ν σ Unit) := by
  cases head with
  | terminal result => exact fun _ _ _ h => ⟨rfl, h.steps, h.world.memoizeAll result owners⟩
  | closure closure => exact blind_pure ()

theorem blind_stepIdentifier (name : String) (scope : Scope ν) :
    Blind (stepIdentifier name scope : Run ν σ (Outcome ν)) := by
  rw [stepIdentifier]
  cases scope.find name with
  | error failure => exact blind_throw _
  | ok found =>
    refine (blind_memoized found.2 name).bind fun record => ?_
    cases record with
    | none => exact blind_pure _
    | some result => exact blind_pure _

theorem blind_ownName (name : String) : Blind (Engine.ownName name : Run ν σ String) := by
  rw [Engine.ownName]
  cases positional? name with
  | none => exact blind_pure name
  | some index => exact blind_throw _

theorem blind_closing (table : Table (Expr ν)) (body : Expr ν) (scope : Scope ν) :
    Blind (emit (.closing table.size body) >>= fun _ =>
      withWorld (World.newClosure table body scope) : Run ν σ (Scope ν)) :=
  (blind_emit _).bind fun _ => blind_withWorld (World.blind_newScope _)

theorem blind_call (closure : Scope ν) (arguments : List (Expr ν)) (scope : Scope ν) :
    Blind (call closure arguments scope : Run ν σ (Scope ν)) :=
  (blind_withWorld (World.blind_newCall closure arguments scope)).bind fun frame =>
    (blind_emit _).bind fun _ => blind_pure frame

theorem blind_callNative {engine : Engine ν σ} (h : engine.invoke.Blind) (method : Native ν)
    (arguments : List (Expr ν)) (scope : Scope ν) :
    Blind (engine.callNative method arguments scope) :=
  (blind_emit _).bind fun _ => (blind_withWorld (h method arguments scope)).bind fun result =>
    (blind_emit _).bind fun _ => blind_pure result

end Run
end CallByNeed
