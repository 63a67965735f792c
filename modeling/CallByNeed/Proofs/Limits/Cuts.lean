import CallByNeed.Proofs.Worlds.History

/-! # Runs that are cut short

Two engines with the same natives and with smaller and larger limits. From one machine their runs
either are the same run, or the first one hits a limit that the second one does not have, and then
the second one goes on from where the first one was stopped. `Run.Cuts` says so; it composes along
binds because what the second engine does later only ever extends the world, and it holds of every
evaluation (`Engine.run_cuts`).
-/

namespace CallByNeed
set_option autoImplicit false

variable {ν σ α β : Type}

/-- The stops at which smaller limits end a run that larger ones let go on. -/
inductive Limits.Cut (small large : Limits) : Stop → Prop where
  | steps : Cut small large (.outOfSteps small.maxSteps)
  | depth (h : small.maxDepth < large.maxDepth) :
      Cut small large (.outOfDepth small.maxDepth)

theorem Limits.Cut.isLimit {small large : Limits} {stop : Stop} (h : small.Cut large stop) :
    stop.isLimit = true := by
  cases h <;> rfl

/-- From every machine that has taken at least so many steps, the first run is the second one or is
cut at one of the stops, and the second one extends worlds. -/
structure Run.Cuts (stops : Stop → Prop) (least : Nat) (cut full : Run ν σ α) : Prop where
  extended : Run.ObeysFrom (Law.extension ν σ) least full
  outcome : ∀ machine, least ≤ machine.steps → cut machine = full machine ∨
    ∃ stop, (cut machine).1 = .error stop ∧ stops stop ∧
      (cut machine).2.steps ≤ (full machine).2.steps ∧
      (cut machine).2.world.Extends (full machine).2.world

namespace Run

variable {stops : Stop → Prop} {least : Nat}

/-! ## Composition -/

theorem Cuts.refl {run : Run ν σ α} (h : ObeysFrom (Law.extension ν σ) least run) :
    Cuts stops least run run :=
  ⟨h, fun _ _ => .inl rfl⟩

theorem Cuts.mono {cut full : Run ν σ α} {more : Nat} (h : Cuts stops least cut full)
    (hle : least ≤ more) : Cuts stops more cut full :=
  ⟨h.extended.mono hle, fun machine hm => h.outcome machine (Nat.le_trans hle hm)⟩

theorem cuts_pure (result : α) : Cuts stops least (pure result : Run ν σ α) (pure result) :=
  .refl (obeys_pure result)

theorem extended_throw (stop : Stop) :
    ObeysFrom (Law.extension ν σ) least (throw stop : Run ν σ α) :=
  fun machine _ => ⟨Nat.le_refl _, .refl machine.world⟩

theorem cuts_fail (failure : Failure) :
    Cuts stops least (fail failure : Run ν σ α) (fail failure) :=
  .refl (extended_throw _)

theorem Cuts.bind {cut full : Run ν σ α} {cutNext fullNext : α → Run ν σ β}
    (h : Cuts stops least cut full)
    (hn : ∀ result, Cuts stops least (cutNext result) (fullNext result)) :
    Cuts stops least (cut >>= cutNext) (full >>= fullNext) := by
  refine ⟨h.extended.bind fun result => (hn result).extended, ?_⟩
  intro machine hm
  have hextended := h.extended machine hm
  rw [bind_apply, bind_apply]
  rcases h.outcome machine hm with heq | ⟨stop, hstop, hstops, hsteps, hworld⟩
  · rw [heq]
    rcases hfull : full machine with ⟨stop | result, after⟩
    · exact .inl rfl
    · rw [hfull] at hextended
      exact (hn result).outcome after (Nat.le_trans hm hextended.1)
  · -- The first run is over; whatever the second one goes on to do is an extension.
    refine .inr ⟨stop, ?_⟩
    rcases hcut : cut machine with ⟨other | result, after⟩
    · rw [hcut] at hstop hsteps hworld
      cases hstop
      rcases hfull : full machine with ⟨other | result, end'⟩
      · rw [hfull] at hsteps hworld
        exact ⟨rfl, hstops, hsteps, hworld⟩
      · rw [hfull] at hextended hsteps hworld
        have hlater := (hn result).extended end' (Nat.le_trans hm hextended.1)
        exact ⟨rfl, hstops, Nat.le_trans hsteps hlater.1, hworld.trans hlater.2⟩
    · rw [hcut] at hstop
      cases hstop

/-! ## The count of steps -/

variable {small large : Limits}

theorem extended_tick (limits : Limits) :
    Obeys (Law.extension ν σ) (tick limits : Run ν σ Unit) := by
  intro machine _
  rw [tick_apply]
  by_cases h : limits.maxSteps < machine.steps + 1
  · rw [if_pos h]
    exact ⟨Nat.le_succ _, .refl _⟩
  · rw [if_neg h]
    exact ⟨Nat.le_succ _, .refl _⟩

/-- What a counted step leads to has taken one step more. -/
theorem tick_bind_steps (limits : Limits) {next : Unit → Run ν σ α}
    (hn : ObeysFrom (Law.extension ν σ) (least + 1) (next ())) (machine : Machine ν σ)
    (hm : least ≤ machine.steps) :
    machine.steps + 1 ≤ ((tick limits >>= next) machine).2.steps ∧
      machine.world.Extends ((tick limits >>= next) machine).2.world := by
  rw [bind_apply, tick_apply]
  by_cases h : limits.maxSteps < machine.steps + 1
  · rw [if_pos h]
    exact ⟨Nat.le_refl _, .refl _⟩
  · rw [if_neg h]
    exact hn ⟨machine.steps + 1, machine.world⟩ (Nat.succ_le_succ hm)

theorem cuts_exhaust {next : Unit → Run ν σ α}
    (hn : ObeysFrom (Law.extension ν σ) (least + 1) (next ())) :
    Cuts (small.Cut large) least (exhaust small) (tick large >>= next) := by
  refine ⟨ObeysFrom.tick_bind (extended_tick large) hn, ?_⟩
  intro machine hm
  have hlater := tick_bind_steps large hn machine hm
  rw [exhaust_apply]
  exact .inr ⟨_, rfl, .steps, hlater⟩

theorem Cuts.tick_bind (hsteps : small.maxSteps ≤ large.maxSteps)
    {cutNext fullNext : Unit → Run ν σ α}
    (hn : Cuts (small.Cut large) (least + 1) (cutNext ()) (fullNext ())) :
    Cuts (small.Cut large) least (tick small >>= cutNext) (tick large >>= fullNext) := by
  refine ⟨ObeysFrom.tick_bind (extended_tick large) hn.extended, ?_⟩
  intro machine hm
  have hlater := tick_bind_steps large hn.extended machine hm
  rw [bind_apply, tick_apply]
  by_cases h : small.maxSteps < machine.steps + 1
  · rw [if_pos h]
    exact .inr ⟨_, rfl, .steps, hlater⟩
  · have hlarge : ¬large.maxSteps < machine.steps + 1 := by omega
    rw [if_neg h, bind_apply, tick_apply, if_neg hlarge]
    exact hn.outcome ⟨machine.steps + 1, machine.world⟩ (Nat.succ_le_succ hm)

end Run

/-- The resolutions under smaller limits are cut ones of those under larger limits. -/
structure Nested.Cuts (stops : Stop → Prop) (cut full : Nested ν σ) : Prop where
  resolve : ∀ expr scope, Run.Cuts stops 0 (cut.resolve expr scope) (full.resolve expr scope)
  bindingName : ∀ expr scope,
    Run.Cuts stops 0 (cut.bindingName expr scope) (full.bindingName expr scope)

namespace Nested

variable {stops : Stop → Prop} {cut full : Nested ν σ}

theorem Cuts.obeys (h : Nested.Cuts stops cut full) : full.Obeys (Law.extension ν σ) :=
  ⟨fun expr scope => (h.resolve expr scope).extended,
    fun expr scope => (h.bindingName expr scope).extended⟩

theorem resolveAll_cuts (h : Nested.Cuts stops cut full) (scope : Scope ν)
    (arguments : List (Expr ν)) :
    Run.Cuts stops 0 (cut.resolveAll scope arguments) (full.resolveAll scope arguments) := by
  induction arguments with
  | nil => exact Run.cuts_pure []
  | cons argument rest ih =>
    rw [resolveAll_cons, resolveAll_cons]
    refine (h.resolve argument scope).bind fun head => ?_
    exact ih.bind fun heads => Run.cuts_pure _

end Nested

/-! ## Steps -/

namespace Engine

variable {small large : Limits} {invoke : Invoke ν σ} {cut full : Nested ν σ}

section Steps

variable {stops : Stop → Prop} (lawful : Lawful ⟨large, invoke⟩ (Law.extension ν σ))
  (h : Nested.Cuts stops cut full)
include lawful h

theorem bindAll_cuts (scope : Scope ν) (bindings : List (Lambda.Binding ν))
    (table : Table (Expr ν)) :
    Run.Cuts stops 0 (cut.bindAll scope bindings table) (full.bindAll scope bindings table) := by
  induction bindings generalizing table with
  | nil => exact Run.cuts_pure table
  | cons binding rest ih =>
    obtain ⟨position, bound⟩ := binding
    rw [Nested.bindAll_cons, Nested.bindAll_cons]
    refine (h.bindingName position scope).bind fun name => ?_
    refine Run.Cuts.bind (.refl ?_) fun _ => ih _
    rw [Run.reportRebound]
    cases table.find? name with
    | none => exact Run.obeys_pure ()
    | some dropped => exact lawful.emit _

theorem close_cuts (items : List (Item ν)) (scope : Scope ν) :
    Run.Cuts stops 0 (cut.close items scope) (full.close items scope) := by
  rw [Nested.close, Nested.close]
  cases Lambda.parts items with
  | error shape => exact Run.cuts_fail _
  | ok parts =>
    obtain ⟨bindings, body⟩ := parts
    refine (bindAll_cuts lawful h scope bindings .empty).bind fun table => ?_
    refine Run.Cuts.bind (.refl (lawful.emit _)) fun _ => ?_
    exact .refl (lawful.withWorld fun world => .closure table body scope world)

theorem stepApplication_cuts (operator : Expr ν) (arguments : List (Expr ν)) (scope : Scope ν) :
    Run.Cuts stops 0 (stepApplication ⟨small, invoke⟩ cut operator arguments scope)
      (stepApplication ⟨large, invoke⟩ full operator arguments scope) := by
  rw [stepApplication, stepApplication]
  refine (h.resolve operator scope).bind fun head => ?_
  rcases head with (value | method) | closure
  · exact .refl ((lawful.emit _).bind fun _ => Run.obeys_pure _)
  · refine (Nested.resolveAll_cuts h scope arguments).bind fun heads => .refl ?_
    exact (lawful.callNative method heads scope).bind fun _ => Run.obeys_pure _
  · refine (Nested.resolveAll_cuts h scope arguments).bind fun heads => .refl ?_
    exact (lawful.call closure heads scope).bind fun _ => Run.obeys_pure _

theorem stepBody_cuts (expr : Expr ν) (scope : Scope ν) :
    Run.Cuts stops 0 (stepBody ⟨small, invoke⟩ cut expr scope)
      (stepBody ⟨large, invoke⟩ full expr scope) := by
  unfold stepBody
  refine Run.Cuts.bind (.refl (lawful.emit _)) fun _ => ?_
  cases expr with
  | value value => exact Run.cuts_pure _
  | native method => exact Run.cuts_pure _
  | failure failure => exact Run.cuts_fail failure
  | identifier name => exact .refl (lawful.stepIdentifier name scope)
  | lambda items => exact (close_cuts lawful h items scope).bind fun _ => Run.cuts_pure _
  | scope inner => exact Run.cuts_pure _
  | application operator arguments =>
    exact stepApplication_cuts lawful h operator arguments scope

end Steps

/-! ## Loops -/

section Loops

variable (lawful : Lawful ⟨large, invoke⟩ (Law.extension ν σ))
  (h : Nested.Cuts (small.Cut large) cut full) (hsteps : small.maxSteps ≤ large.maxSteps)
include lawful h hsteps

theorem step_bind_cuts (expr : Expr ν) (scope : Scope ν) {least : Nat}
    {cutNext fullNext : Outcome ν → Run ν σ β}
    (hn : ∀ outcome, Run.Cuts (small.Cut large) (least + 1) (cutNext outcome)
      (fullNext outcome)) :
    Run.Cuts (small.Cut large) least (step ⟨small, invoke⟩ cut expr scope >>= cutNext)
      (step ⟨large, invoke⟩ full expr scope >>= fullNext) := by
  rw [step_eq, step_eq, bind_assoc, bind_assoc]
  have hbody : Run.Cuts (small.Cut large) (least + 1)
      (stepBody ⟨small, invoke⟩ cut expr scope) (stepBody ⟨large, invoke⟩ full expr scope) :=
    (stepBody_cuts lawful h expr scope).mono (Nat.zero_le _)
  exact Run.Cuts.tick_bind hsteps (hbody.bind hn)

omit hsteps in
theorem exhaust_cuts_step (expr : Expr ν) (scope : Scope ν) {least : Nat}
    {next : Outcome ν → Run ν σ β}
    (hn : ∀ outcome, Run.ObeysFrom (Law.extension ν σ) (least + 1) (next outcome)) :
    Run.Cuts (small.Cut large) least (Run.exhaust small)
      (step ⟨large, invoke⟩ full expr scope >>= next) := by
  rw [step_eq, bind_assoc]
  have hbody := (lawful.stepBody h.obeys expr scope).mono (Nat.zero_le (least + 1))
  exact Run.cuts_exhaust (hbody.bind hn)

/-- Loops with at least as many rounds under the larger limits, each of them followed by something
that has taken a step. -/
theorem resolveLoop_bind_cuts (rounds more least : Nat) (hmore : rounds ≤ more)
    (hrounds : large.maxSteps ≤ more + least) (expr : Expr ν) (scope : Scope ν)
    {cutNext fullNext : Head ν → Run ν σ β}
    (hn : ∀ head, Run.Cuts (small.Cut large) (least + 1) (cutNext head) (fullNext head)) :
    Run.Cuts (small.Cut large) least
      (resolveLoop ⟨small, invoke⟩ cut rounds expr scope [] >>= cutNext)
      (resolveLoop ⟨large, invoke⟩ full more expr scope [] >>= fullNext) := by
  induction more generalizing rounds least expr scope cutNext fullNext with
  | zero =>
    have hzero : rounds = 0 := by omega
    subst hzero
    rw [resolveLoop, resolveLoop, Run.exhaust_bind, Run.exhaust_bind]
    exact Run.cuts_exhaust (Run.extended_throw _)
  | succ more ih =>
    have hlater : ∀ head,
        Run.Cuts (small.Cut large) (least + 1 + 1) (cutNext head) (fullNext head) :=
      fun head => (hn head).mono (Nat.le_succ _)
    have hloop := fun expr scope => lawful.resolveLoop_bind h.obeys more (least + 1)
      (show large.maxSteps ≤ _ by omega) expr scope fun head => (hlater head).extended
    have hrecord := fun head owners =>
      (lawful.record head owners).mono (Nat.zero_le (least + 1 + 1))
    rw [resolveLoop_succ, bind_assoc]
    cases rounds with
    | zero =>
      rw [resolveLoop, Run.exhaust_bind]
      refine exhaust_cuts_step lawful h expr scope fun outcome => ?_
      cases outcome with
      | finished head => exact (hn head).extended
      | further further inner => exact hloop further inner
      | binding name bound owner =>
        simp only [bind_assoc]
        refine lawful.resolveLoop_bind h.obeys more (least + 1)
          (show large.maxSteps ≤ _ by omega) bound owner fun head => ?_
        exact (hrecord head _).bind fun _ => (hlater head).extended
    | succ rounds =>
      rw [resolveLoop_succ, bind_assoc]
      refine step_bind_cuts lawful h hsteps expr scope fun outcome => ?_
      cases outcome with
      | finished head => exact hn head
      | further further inner =>
        exact ih rounds (least + 1) (by omega) (by omega) further inner hlater
      | binding name bound owner =>
        simp only [bind_assoc]
        refine ih rounds (least + 1) (by omega) (by omega) bound owner fun head => ?_
        exact Run.Cuts.bind (.refl (hrecord head _)) fun _ => hlater head

theorem resolveLoop_cuts (rounds more least : Nat) (hmore : rounds ≤ more)
    (hrounds : large.maxSteps ≤ more + least) (expr : Expr ν) (scope : Scope ν) :
    Run.Cuts (small.Cut large) least (resolveLoop ⟨small, invoke⟩ cut rounds expr scope [])
      (resolveLoop ⟨large, invoke⟩ full more expr scope []) := by
  have hloop := resolveLoop_bind_cuts lawful h hsteps rounds more least hmore hrounds expr scope
    fun head => Run.cuts_pure head
  rwa [bind_pure, bind_pure] at hloop

theorem nameLoop_cuts (rounds more least : Nat) (hmore : rounds ≤ more)
    (hrounds : large.maxSteps ≤ more + least) (expr : Expr ν) (scope : Scope ν) :
    Run.Cuts (small.Cut large) least (nameLoop ⟨small, invoke⟩ cut rounds expr scope)
      (nameLoop ⟨large, invoke⟩ full more expr scope) := by
  induction more generalizing rounds least expr scope with
  | zero =>
    have hzero : rounds = 0 := by omega
    subst hzero
    cases hname : expr.identifier? with
    | some name =>
      rw [nameLoop, nameLoop, hname]
      exact .refl ((lawful.ownName name).mono (Nat.zero_le _))
    | none =>
      rw [nameLoop_zero _ _ _ _ hname, nameLoop_zero _ _ _ _ hname]
      exact Run.cuts_exhaust (Run.extended_throw _)
  | succ more ih =>
    cases hname : expr.identifier? with
    | some name =>
      have hown := (lawful.ownName name).mono (Nat.zero_le least)
      rw [nameLoop, hname]
      cases rounds with
      | zero =>
        rw [nameLoop, hname]
        exact .refl hown
      | succ rounds =>
        rw [nameLoop, hname]
        exact .refl hown
    | none =>
      have hnames : ∀ outcome, Run.ObeysFrom (Law.extension ν σ) (least + 1)
          (nameAfterStep ⟨large, invoke⟩ full more outcome) := by
        intro outcome
        have hloop := lawful.nameLoop h.obeys more (least + 1)
          (show large.maxSteps ≤ _ by omega)
        cases outcome with
        | finished head =>
          rw [nameAfterStep]
          cases head.name? with
          | none => exact Run.extended_throw _
          | some name => exact Run.obeys_pure name
        | further next inner => exact hloop next inner
        | binding name bound owner => exact hloop bound owner
      rw [nameLoop_succ _ _ _ _ _ hname]
      cases rounds with
      | zero =>
        rw [nameLoop_zero _ _ _ _ hname]
        exact exhaust_cuts_step lawful h expr scope hnames
      | succ rounds =>
        rw [nameLoop_succ _ _ _ _ _ hname]
        refine step_bind_cuts lawful h hsteps expr scope fun outcome => ?_
        cases outcome with
        | finished head => exact .refl (hnames (.finished head))
        | further next inner =>
          exact ih rounds (least + 1) (by omega) (by omega) next inner
        | binding name bound owner =>
          exact ih rounds (least + 1) (by omega) (by omega) bound owner

end Loops

/-! ## Evaluations -/

section Evaluations

variable (lawful : Lawful ⟨large, invoke⟩ (Law.extension ν σ))
  (hsteps : small.maxSteps ≤ large.maxSteps) (hdepth : small.maxDepth ≤ large.maxDepth)
include lawful hsteps hdepth

/-- With so many levels left under the smaller limits, there are as many more under the larger ones
as the depth they allow is larger. -/
theorem nested_cuts (levels more : Nat) (hmore : levels + large.maxDepth = more + small.maxDepth) :
    Nested.Cuts (small.Cut large) (nested ⟨small, invoke⟩ levels)
      (nested ⟨large, invoke⟩ more) := by
  induction levels generalizing more with
  | zero =>
    have hobeys := nested_obeys lawful more
    by_cases h : more = 0
    · subst h
      have heq : small.maxDepth = large.maxDepth := by omega
      constructor
      · intro expr scope
        rw [nested, nested, heq]
        exact .refl (Run.extended_throw _)
      · intro expr scope
        rw [nested, nested, heq]
        exact .refl (Run.extended_throw _)
    · have hlt : small.maxDepth < large.maxDepth := by omega
      have hcut : ∀ {α : Type} {full : Run ν σ α}, Run.Obeys (Law.extension ν σ) full →
          Run.Cuts (small.Cut large) 0 (throw (.outOfDepth small.maxDepth)) full := by
        intro α full hfull
        refine ⟨hfull, fun machine hm => .inr ⟨_, rfl, .depth hlt, hfull machine hm⟩⟩
      exact ⟨fun expr scope => hcut (hobeys.resolve expr scope),
        fun expr scope => hcut (hobeys.bindingName expr scope)⟩
  | succ levels ih =>
    obtain ⟨more, rfl⟩ : ∃ next, more = next + 1 := ⟨more - 1, by omega⟩
    have hnested := ih more (by omega)
    exact ⟨resolveLoop_cuts lawful hnested hsteps _ _ 0 hsteps (Nat.le_refl _),
      nameLoop_cuts lawful hnested hsteps _ _ 0 hsteps (Nat.le_refl _)⟩

theorem nestedTop_cuts : Nested.Cuts (small.Cut large)
    (nested ⟨small, invoke⟩ small.maxDepth) (nested ⟨large, invoke⟩ large.maxDepth) :=
  nested_cuts lawful hsteps hdepth _ _ (Nat.add_comm _ _)

theorem resolveTop_cuts (expr : Expr ν) (scope : Scope ν) :
    Run.Cuts (small.Cut large) 0 (resolveTop ⟨small, invoke⟩ expr scope)
      (resolveTop ⟨large, invoke⟩ expr scope) :=
  (nested_cuts lawful hsteps hdepth (small.maxDepth + 1) (large.maxDepth + 1)
    (by omega)).resolve expr scope

theorem forceLoop_cuts (rounds more least : Nat) (hmore : rounds ≤ more)
    (hrounds : large.maxSteps ≤ more + least) (expr : Expr ν) (scope : Scope ν) :
    Run.Cuts (small.Cut large) least (forceLoop ⟨small, invoke⟩ rounds expr scope)
      (forceLoop ⟨large, invoke⟩ more expr scope) := by
  have hnested := nestedTop_cuts lawful hsteps hdepth
  induction more generalizing rounds least expr scope with
  | zero =>
    have hzero : rounds = 0 := by omega
    subst hzero
    exact Run.cuts_exhaust (Run.extended_throw _)
  | succ more ih =>
    have hobeys := forceLoop_obeys lawful more (least + 1) (show large.maxSteps ≤ _ by omega)
    rw [forceLoop_succ]
    cases rounds with
    | zero =>
      -- Without a round the first loop is a resolution without a round, whatever comes next.
      rw [forceLoop, ← Run.exhaust_bind small fun _ : Head ν => _]
      refine resolveLoop_bind_cuts lawful hnested hsteps 0 large.maxSteps least (Nat.zero_le _)
        (Nat.le_add_right _ _) expr scope fun head => .refl ?_
      cases head with
      | terminal result => exact Run.obeys_pure result
      | closure closure =>
        refine ((lawful.emit _).mono (Nat.zero_le _)).bind fun _ => ?_
        exact hobeys closure.body closure
    | succ rounds =>
      rw [forceLoop_succ]
      refine resolveLoop_bind_cuts lawful hnested hsteps small.maxSteps large.maxSteps least
        hsteps (Nat.le_add_right _ _) expr scope fun head => ?_
      cases head with
      | terminal result => exact Run.cuts_pure result
      | closure closure =>
        refine Run.Cuts.bind (.refl ((lawful.emit _).mono (Nat.zero_le _))) fun _ => ?_
        exact ih rounds (least + 1) (by omega) (by omega) closure.body closure

theorem applyRun_cuts (operator : Expr ν) (arguments : List (Expr ν)) (scope : Scope ν) :
    Run.Cuts (small.Cut large) 0 (applyRun ⟨small, invoke⟩ operator arguments scope)
      (applyRun ⟨large, invoke⟩ operator arguments scope) := by
  refine (resolveTop_cuts lawful hsteps hdepth operator scope).bind fun head => ?_
  cases arguments.findSome? Expr.failure? with
  | some failure => exact Run.cuts_fail failure
  | none =>
    rcases head with (value | method) | closure
    · exact Run.cuts_pure _
    · exact .refl (lawful.callNative method arguments scope)
    · exact .refl ((lawful.call closure arguments scope).bind fun frame => Run.obeys_pure _)

theorem interpretRun_cuts (program : Expr ν) (root : Scope ν) :
    Run.Cuts (small.Cut large) 0 (interpretRun ⟨small, invoke⟩ program root)
      (interpretRun ⟨large, invoke⟩ program root) := by
  have hforce := forceLoop_cuts lawful hsteps hdepth small.maxSteps large.maxSteps 0 hsteps
    (Nat.le_refl _) program root
  refine ⟨interpretRun_obeys lawful program root, ?_⟩
  intro machine hm
  rcases hforce.outcome machine hm with heq | ⟨stop, hstop, hstops, hless, hworld⟩
  · left
    rw [interpretRun, interpretRun, heq]
  · right
    have hwhole := interpretRun_obeys lawful program root machine hm
    rw [interpretRun, interpretRun]
    rcases hcut : forceLoop ⟨small, invoke⟩ small.maxSteps program root machine with
      ⟨other | result, cutAfter⟩
    · rcases hfull : forceLoop ⟨large, invoke⟩ large.maxSteps program root machine with
        ⟨outcome, fullAfter⟩
      rw [hcut] at hstop hless hworld
      rw [hfull] at hless hworld
      cases hstop
      -- The end of the cut run is an event, but no native call.
      have hend : (cutAfter.world.emit (.finished cutAfter.steps)).Extends
          (fullAfter.world.emit (.finished fullAfter.steps)) :=
        (World.extends_of_emit hworld rfl).trans (World.extends_emit _ _)
      refine ⟨stop, rfl, hstops, ?_⟩
      rcases outcome with other | (value | method)
      · exact ⟨hless, hend⟩
      · exact ⟨hless, hend⟩
      · exact ⟨hless, hend.trans (.of_events (.of_cells rfl) rfl)⟩
    · rw [hcut] at hstop
      cases hstop

/-- Every evaluation under smaller limits is the one under larger limits, or is cut. -/
theorem run_cuts (request : Evaluation ν) :
    Run.Cuts (small.Cut large) 0 (run ⟨small, invoke⟩ request)
      (run ⟨large, invoke⟩ request) := by
  cases request with
  | resolve expr scope =>
    rw [run, run, map_eq_pure_bind, map_eq_pure_bind]
    exact (resolveTop_cuts lawful hsteps hdepth expr scope).bind fun head => Run.cuts_pure _
  | force expr scope =>
    rw [run, run, map_eq_pure_bind, map_eq_pure_bind]
    have hforce := forceLoop_cuts lawful hsteps hdepth small.maxSteps large.maxSteps 0 hsteps
      (Nat.le_refl _) expr scope
    exact hforce.bind fun result => Run.cuts_pure _
  | apply operator arguments scope =>
    exact applyRun_cuts lawful hsteps hdepth operator arguments scope
  | close items scope =>
    rw [run, run, map_eq_pure_bind, map_eq_pure_bind]
    have hclose := close_cuts lawful (nestedTop_cuts lawful hsteps hdepth) items scope
    exact hclose.bind fun frame => Run.cuts_pure _
  | interpret program root =>
    rw [run, run, map_eq_pure_bind, map_eq_pure_bind]
    have hinterpret := interpretRun_cuts lawful hsteps hdepth program root
    exact hinterpret.bind fun value => Run.cuts_pure _

end Evaluations

end Engine
end CallByNeed
