import CallByNeed.Proofs.Appliers.Silent
import CallByNeed.Proofs.Runs.Traits

/-! # Two runs up to their logs

Runs correspond if they do the same from machines whose logs differ, except for what they write to
the log and for results that need only be related (`Run.Corresponds`). A run that does not read the
log corresponds to itself. This is a trait of runs (`Trait.unlogged`), and evaluations have it if
the natives do not read the log (`Engine.has_unlogged`).
-/

namespace CallByNeed
set_option autoImplicit false

variable {ν σ α β α' β' : Type}

/-- The same reason for a stop, or related results. -/
inductive EndsAlike (related : α → β → Prop) : Except Stop α → Except Stop β → Prop where
  | stopped (stop : Stop) : EndsAlike related (.error stop) (.error stop)
  | came {result : α} {result' : β} (h : related result result') :
      EndsAlike related (.ok result) (.ok result')

/-- From machines that match up to the log, the runs end alike in machines that match so too. -/
def Run.Corresponds (related : α → β → Prop) (run : Run ν σ α) (run' : Run ν σ β) : Prop :=
  ∀ machine machine', Machine.Ahead 0 machine machine' →
    EndsAlike related (run machine).1 (run' machine').1 ∧
      Machine.Ahead 0 (run machine).2 (run' machine').2

/-- A run that does not read the log. -/
abbrev Run.Unlogged (run : Run ν σ α) : Prop :=
  Run.Corresponds Eq run run

namespace Run

theorem Corresponds.bind {between : α → β → Prop} {related : α' → β' → Prop} {first : Run ν σ α}
    {first' : Run ν σ β} {next : α → Run ν σ α'} {next' : β → Run ν σ β'}
    (h : Corresponds between first first') (hn : ∀ result result', between result result' →
      Corresponds related (next result) (next' result')) :
    Corresponds related (first >>= next) (first' >>= next') := by
  intro machine machine' hmachines
  obtain ⟨hends, hafter⟩ := h machine machine' hmachines
  rw [bind_apply, bind_apply]
  rcases hrun : first machine with ⟨outcome, after⟩
  rcases hrun' : first' machine' with ⟨outcome', after'⟩
  rw [hrun, hrun'] at hends hafter
  cases hends with
  | stopped stop => exact ⟨.stopped stop, hafter⟩
  | came hresult => exact hn _ _ hresult after after' hafter

theorem corresponds_pure {related : α → β → Prop} {result : α} {result' : β}
    (h : related result result') : Corresponds related (pure result : Run ν σ α) (pure result') :=
  fun _ _ hmachines => ⟨.came h, hmachines⟩

/-- What does not depend on the count of steps either does not read the log. -/
theorem Blind.unlogged {run : Run ν σ α} (h : Blind run) : Unlogged run := by
  intro machine machine' hmachines
  obtain ⟨houtcome, hafter⟩ := h 0 machine machine' hmachines
  refine ⟨?_, hafter⟩
  rw [houtcome]
  cases (run machine).1 with
  | error stop => exact .stopped stop
  | ok result => exact .came rfl

/-- What the first run yields in any case may be assumed of related results. -/
theorem Corresponds.of_yields {related : α → β → Prop} {run : Run ν σ α} {run' : Run ν σ β}
    {property : α → Prop} (h : Corresponds related run run') (hyields : run.Yields property) :
    Corresponds (fun result result' => related result result' ∧ property result) run run' := by
  intro machine machine' hmachines
  obtain ⟨hends, hafter⟩ := h machine machine' hmachines
  refine ⟨?_, hafter⟩
  rcases hrun : run machine with ⟨outcome, after⟩
  rcases hrun' : run' machine' with ⟨outcome', after'⟩
  rw [hrun, hrun'] at hends
  cases hends with
  | stopped stop => exact .stopped stop
  | came hresult => exact .came ⟨hresult, hyields machine _ after hrun⟩

theorem Unlogged.bind {first : Run ν σ α} {next : α → Run ν σ β} {property : α → Prop}
    (h : Unlogged first) (hyields : first.Yields property)
    (hn : ∀ result, property result → Unlogged (next result)) : Unlogged (first >>= next) :=
  (Corresponds.of_yields h hyields).bind fun result _ ⟨hsame, hresult⟩ =>
    hsame ▸ hn result hresult

theorem unlogged_tick (limits : Limits) : Unlogged (tick limits : Run ν σ Unit) := by
  intro machine machine' hmachines
  have hsteps : machine'.steps = machine.steps := hmachines.steps
  rw [tick_apply, tick_apply, hsteps]
  by_cases hlimit : limits.maxSteps < machine.steps + 1
  · rw [if_pos hlimit, if_pos hlimit]
    exact ⟨.stopped _, rfl, hmachines.world⟩
  · rw [if_neg hlimit, if_neg hlimit]
    exact ⟨.came rfl, rfl, hmachines.world⟩

end Run

/-- Runs that do not read the log. They may use any scopes. -/
def Trait.unlogged : Trait ν σ where
  holds _ _ run := run.Unlogged
  of_pure _ := (Run.blind_pure _).unlogged
  of_throw stop := (Run.blind_throw stop).unlogged
  of_bind := Run.Unlogged.bind
  of_grasps h _ := h

theorem Run.Blind.has_unlogged {run : Run ν σ α} (h : run.Blind) {scopes : α → List (Scope ν)}
    {needs : List (Scope ν)} : run.Has .unlogged scopes needs :=
  h.unlogged

theorem Engine.has_unlogged {engine : Engine ν σ} (hblind : engine.invoke.Blind) :
    engine.Has .unlogged where
  tick := Run.unlogged_tick engine.limits
  emit event := (Run.blind_emit event).has_unlogged
  newClosure _ _ _ := (Run.blind_withWorld (World.blind_newScope _)).has_unlogged
  newCall closure arguments scope :=
    (Run.blind_withWorld (World.blind_newCall closure arguments scope)).has_unlogged
  native method arguments scope :=
    (Run.blind_withWorld (hblind method arguments scope)).has_unlogged
  identifier _ _ :=
    Run.has_identifierRun (fun owner name => (Run.blind_memoized owner name).has_unlogged)
      fun head owner name => (Run.blind_record head [(owner, name)]).has_unlogged

end CallByNeed
