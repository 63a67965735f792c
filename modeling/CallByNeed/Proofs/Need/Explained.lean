import CallByNeed.Proofs.Need.Origins

/-! # Records are explained

A loop explains its records if its steps do: at its end it records its result for the identifiers
that were pending at its start and for those that it has met, and as a resolution of the latter it
is what settles them. So all that takes place in the evaluations of an honest host explains the
records that are new after it (`Host.explains`), level by level.
-/

namespace CallByNeed
set_option autoImplicit false

variable {ν σ : Type}

/-! ## Loops -/

/-- What is recorded for pending identifiers is their result. -/
theorem World.written_of_memoizeAll {number : Nat} {name : String} {result found : Terminal ν}
    {owners : List (Scope ν × String)} {world : World ν σ}
    (hnone : world.recordAt number name = none)
    (hsome : (world.memoizeAll result owners).recordAt number name = some found) :
    found = result ∧ ∃ owner, (owner, name) ∈ owners ∧ owner.number = number := by
  induction owners generalizing world with
  | nil => cases hnone.symm.trans hsome
  | cons first owners ih =>
    obtain ⟨owner, own⟩ := first
    by_cases hown : number = owner.number ∧ name = own ∧ number < world.size
    · have hfirst : (world.memoize owner own result).recordAt number name = some result := by
        rw [recordAt_memoize, if_pos hown, hnone]
        rfl
      have hlater := (grows_memoizeAll result owners _).record hfirst
      cases hlater.symm.trans hsome
      obtain ⟨rfl, rfl, -⟩ := hown
      exact ⟨rfl, owner, List.mem_cons_self, rfl⟩
    · have hfirst : (world.memoize owner own result).recordAt number name = none := by
        rw [recordAt_memoize, if_neg hown, hnone]
      obtain ⟨hfound, writer, hwriter, hnumber⟩ := ih hfirst hsome
      exact ⟨hfound, writer, List.mem_cons_of_mem _ hwriter, hnumber⟩

namespace Loop

variable {engine : Engine ν σ} {depth : Nat} {loop more : Loop ν} {expr : Expr ν}
  {scope : Scope ν} {machine after : Machine ν σ} {outcome : Outcome ν}

def rounds : Loop ν → Nat
  | .resolve rounds _ _ _ | .name rounds _ _ => rounds

theorem rounds_of_next (h : loop.next? outcome = some more) : loop.rounds = more.rounds + 1 := by
  cases loop with
  | resolve rounds target inner pending => cases rounds <;> cases outcome <;> cases h <;> rfl
  | name rounds position inner => cases rounds <;> cases outcome <;> cases h <;> rfl

/-- A loop that takes no step changes nothing. -/
theorem leaves_of_idle (h : loop.step? = none) :
    loop.leaves engine depth machine = machine.world := by
  cases loop with
  | resolve rounds target inner pending =>
    cases rounds with
    | succ rounds => cases h
    | zero => rw [leaves, Engine.resolveLoop, Run.exhaust_apply]
  | name rounds position inner =>
    cases hname : position.identifier? with
    | some own =>
      rw [leaves, Engine.eq_identifier hname, Engine.nameLoop_identifier, Engine.ownName]
      cases positional? own <;> rfl
    | none =>
      cases rounds with
      | succ rounds =>
        simp only [step?, hname] at h
        cases h
      | zero => rw [leaves, Engine.nameLoop_zero _ _ _ _ hname, Run.exhaust_apply]

theorem leaves_of_stop {stop : Stop} (hstep : loop.step? = some (expr, scope))
    (h : engine.step (engine.nested depth) expr scope machine = (.error stop, after)) :
    loop.leaves engine depth machine = after.world := by
  rcases cases_of_step hstep with ⟨rounds, pending, rfl⟩ | ⟨rounds, rfl, hname⟩
  · rw [leaves_resolve, Run.bind_apply, h]
  · rw [leaves_name rounds hname, Run.bind_apply, h]

end Loop

namespace Host

variable {host : Host ν σ} {number : Nat} {name : String} {levels depth : Nat} {limits : Limits}
  {loop more : Loop ν} {expr : Expr ν} {scope : Scope ν} {machine after : Machine ν σ}
  {outcome : Outcome ν}

/-- A loop that does not go on records its result for what is pending, and nothing else. -/
theorem gains_finished (hstep : loop.step? = some (expr, scope))
    (houtcome : (host.engine levels limits).step ((host.engine levels limits).nested depth) expr
      scope machine = (.ok outcome, after)) (hnext : loop.next? outcome = none) :
    after.world.Gains number name
      (host.Causes number name (.loop levels limits depth loop machine))
      (loop.leaves (host.engine levels limits) depth machine) := by
  refine ⟨Loop.grows_of_finished hstep houtcome hnext, fun {result} hnone hsome => .inr ?_⟩
  rcases Loop.cases_of_step hstep with ⟨rounds, pending, rfl⟩ | ⟨rounds, rfl, hname⟩
  · rw [Loop.leaves_resolve, Run.bind_apply, houtcome] at hsome
    cases outcome with
    | further next inner => cases hnext
    | binding found bound owner => cases hnext
    | finished head =>
      cases head with
      | closure closure => cases hnone.symm.trans hsome
      | terminal last =>
        obtain ⟨rfl, owner, hpending, howner⟩ := World.written_of_memoizeAll hnone hsome
        have hresolved : (host.engine levels limits).resolveLoop
            ((host.engine levels limits).nested depth) (rounds + 1) expr scope pending machine =
              (.ok (.terminal result), ⟨after.steps, after.world.memoizeAll result pending⟩) := by
          rw [Engine.resolveLoop_step, Run.bind_apply, houtcome]
          rfl
        exact .pending hpending howner hresolved
  · rw [Loop.leaves_name rounds hname, Run.bind_apply, houtcome] at hsome
    cases outcome with
    | further next inner => cases hnext
    | binding found bound owner => cases hnext
    | finished head =>
      have hsame : (Engine.nameAfterStep (host.engine levels limits)
          ((host.engine levels limits).nested depth) rounds (.finished head) after).2.world =
            after.world := by
        rw [Engine.nameAfterStep]
        cases head.name? <;> rfl
      dsimp only at hsome
      rw [hsame] at hsome
      cases hnone.symm.trans hsome

/-- What the rest of a loop writes for what is pending, the loop itself writes, unless it is a
resolution of the identifier. -/
theorem causes_of_next (hstep : loop.step? = some (expr, scope))
    (houtcome : (host.engine levels limits).step ((host.engine levels limits).nested depth) expr
      scope machine = (.ok outcome, after)) (hnext : loop.next? outcome = some more)
    {result : Terminal ν} (hnone : machine.world.recordAt number name = none)
    (hsome : (loop.leaves (host.engine levels limits) depth machine).recordAt number name =
      some result)
    (h : (Activity.loop levels limits depth more after).Writes host number name result) :
    host.Causes number name (.loop levels limits depth loop machine) result := by
  rcases Loop.cases_of_step hstep with ⟨rounds, pending, rfl⟩ | ⟨rounds, rfl, hname⟩
  · have hloop : (host.engine levels limits).resolveLoop ((host.engine levels limits).nested depth)
        (rounds + 1) expr scope pending machine = (host.engine levels limits).afterStep
          ((host.engine levels limits).nested depth) rounds pending outcome after := by
      rw [Engine.resolveLoop_step, Run.bind_apply, houtcome]
    cases outcome with
    | finished head => cases hnext
    | further next inner =>
      cases hnext
      obtain ⟨hpending, howner, hresolved⟩ := h
      exact .inr (.pending hpending howner (hloop.trans hresolved))
    | binding own bound owner =>
      cases hnext
      obtain ⟨hpending, howner, hresolved⟩ := h
      replace hresolved := hloop.trans hresolved
      rcases List.mem_cons.1 hpending with hown | hpending
      · -- The identifier is the one that this very loop has just met.
        cases hown
        cases hexpr : expr.identifier? with
        | none => exact (Engine.step_entersNothing _ _ hexpr _ _ _ _ houtcome).elim
        | some met =>
          obtain rfl := Engine.eq_identifier hexpr
          obtain ⟨-, inside, holder, hfind, ⟨-, hsame⟩ | ⟨found, -, hsame⟩⟩ :=
            Engine.step_identifier houtcome
          · cases hsame
            rw [Loop.leaves, hresolved] at hsome
            exact .inl ⟨_, .refl, .resolved hfind howner hnone hresolved hsome⟩
          · cases hsame
      · exact .inr (.pending hpending howner hresolved)
  · cases outcome with
    | finished head => cases hnext
    | further next inner =>
      cases hnext
      cases h
    | binding own bound owner =>
      cases hnext
      cases h

section Explained

variable {held : σ → List (Scope ν)} (hhost : host.Honest held)
include hhost

theorem explains_loop
    (hsteps : ∀ expr scope machine,
      (Activity.step levels limits depth expr scope machine).Sound held →
      host.Explains number name (.step levels limits depth expr scope machine))
    (loop : Loop ν) (machine : Machine ν σ)
    (hsound : (Activity.loop levels limits depth loop machine).Sound held) :
    host.Explains number name (.loop levels limits depth loop machine) := by
  show machine.world.Gains number name _ (loop.leaves (host.engine levels limits) depth machine)
  induction hrounds : loop.rounds generalizing loop machine with
  | zero =>
    cases hstep : loop.step? with
    | none =>
      rw [Loop.leaves_of_idle hstep]
      exact .refl _
    | some taken =>
      obtain ⟨expr, scope⟩ := taken
      rcases Loop.cases_of_step hstep with ⟨rounds, pending, rfl⟩ | ⟨rounds, rfl, -⟩ <;>
        cases hrounds
  | succ rounds ih =>
    cases hstep : loop.step? with
    | none =>
      rw [Loop.leaves_of_idle hstep]
      exact .refl _
    | some taken =>
      obtain ⟨expr, scope⟩ := taken
      have hstarts : host.Starts (.loop levels limits depth loop machine) 0 _ := .step machine hstep
      have htaken := (hsteps _ _ _ (hstarts.begins hhost hsound).2).within hstarts rfl
      rcases houtcome : (host.engine levels limits).step
        ((host.engine levels limits).nested depth) expr scope machine with ⟨stop | outcome, after⟩
      · rw [Loop.leaves_of_stop hstep houtcome]
        rw [Activity.leaves, houtcome] at htaken
        exact htaken
      · rw [Activity.leaves, houtcome] at htaken
        refine htaken.trans ?_
        cases hnext : loop.next? outcome with
        | none => exact gains_finished hstep houtcome hnext
        | some more =>
          have hgoes : host.Starts (.loop levels limits depth loop machine) 1 _ :=
            .next hstep houtcome hnext
          have hmore := ih more after (hgoes.begins hhost hsound).2
            (Nat.succ.inj ((Loop.rounds_of_next hnext).symm.trans hrounds))
          have hleaves := Loop.leaves_of_next hstep houtcome hnext
          rw [hleaves]
          refine ⟨hmore.grows, fun {result} hnone hsome => ?_⟩
          rcases hmore.caused hnone hsome with ⟨settling, hinvolves, hsettles⟩ | hwrites
          · exact .inl ⟨settling, .head ⟨1, hgoes⟩ hinvolves, hsettles⟩
          · refine causes_of_next hstep houtcome hnext ?_ (hleaves ▸ hsome) hwrites
            -- A record before the step would be there after it.
            cases hbefore : machine.world.recordAt number name with
            | none => rfl
            | some found => cases (htaken.grows.record hbefore).symm.trans hnone

/-- Steps, closings and loops at all depths, given the programs of native methods. -/
theorem explains_nested (hnatives : host.ExplainsNatives held number name levels)
    (limits : Limits) (depth : Nat) :
    (∀ items scope machine, (Activity.close levels limits depth items scope machine).Sound held →
      host.Explains number name (.close levels limits depth items scope machine)) ∧
    ∀ loop machine, (Activity.loop levels limits depth loop machine).Sound held →
      host.Explains number name (.loop levels limits depth loop machine) := by
  induction depth with
  | zero =>
    have hloops : host.ExplainsNested held number name levels limits 0 := nofun
    exact ⟨fun _ _ _ => explains_close hhost hloops,
      explains_loop hhost fun _ _ _ => explains_step hhost hloops hnatives⟩
  | succ depth ih =>
    have hloops : host.ExplainsNested held number name levels limits (depth + 1) := by
      intro lower hlower
      cases hlower
      exact ih.2
    exact ⟨fun _ _ _ => explains_close hhost hloops,
      explains_loop hhost fun _ _ _ => explains_step hhost hloops hnatives⟩

/-- A resolution without pending identifiers explains its records as a part of something else. -/
theorem gains_resolve (hnatives : host.ExplainsNatives held number name levels)
    {outer : Activity ν σ} {place : Nat} (hsound : outer.Sound held)
    (hstarts : host.Starts outer place
      (.loop levels limits depth (.resolve limits.maxSteps expr scope []) machine)) :
    machine.world.Gains number name (host.Causes number name outer)
      (((host.engine levels limits).nested (depth + 1)).resolve expr scope machine).2.world := by
  have hloop := (explains_nested hhost hnatives limits depth).2 _ _ (hstarts.begins hhost hsound).2
  exact hloop.within hstarts rfl

theorem explains_force (hnatives : host.ExplainsNatives held number name levels) (rounds : Nat)
    (expr : Expr ν) (scope : Scope ν) (machine : Machine ν σ)
    (hsound : (Activity.force levels limits rounds expr scope machine).Sound held) :
    host.Explains number name (.force levels limits rounds expr scope machine) := by
  show machine.world.Gains number name _
    ((host.engine levels limits).forceLoop rounds expr scope machine).2.world
  induction rounds generalizing expr scope machine with
  | zero =>
    rw [Engine.forceLoop, Run.exhaust_apply]
    exact .refl _
  | succ rounds ih =>
    have hstarts : host.Starts (.force levels limits (rounds + 1) expr scope machine) 0 _ :=
      .forced levels limits rounds expr scope machine
    rw [Engine.forceLoop_succ]
    refine Run.gains_bind (gains_resolve hhost hnatives hsound hstarts) fun head after hhead => ?_
    cases head with
    | terminal result => exact .refl _
    | closure closure =>
      have hagain : host.Starts (.force levels limits (rounds + 1) expr scope machine) 1 _ :=
        .forcedAgain hhead
      have hforce : host.Explains number name (.force levels limits rounds closure.body closure
          ⟨after.steps, after.world.emit (.forcing closure)⟩) :=
        ih _ _ _ (hagain.begins hhost hsound).2
      exact (World.Gains.emit after.world (.forcing closure)).trans (hforce.within hagain rfl)

theorem explains_evaluation (hnatives : host.ExplainsNatives held number name levels)
    (request : Evaluation ν) (world : World ν σ)
    (hsound : (Activity.evaluation levels limits request world).Sound held) :
    host.Explains number name (.evaluation levels limits request world) := by
  have hstarts : host.Starts (.evaluation levels limits request world) 0 _ :=
    .request levels limits request world
  show world.Gains number name _ ((host.engine levels limits).run request ⟨0, world⟩).2.world
  cases request with
  | resolve expr scope =>
    rw [Engine.run, map_eq_pure_bind]
    exact Run.gains_bind (gains_resolve hhost hnatives hsound hstarts) fun head after _ => .refl _
  | force expr scope =>
    rw [Engine.run, map_eq_pure_bind]
    have hforce := explains_force hhost hnatives _ _ _ _ (hstarts.begins hhost hsound).2
    exact Run.gains_bind (hforce.within hstarts rfl) fun result after _ => .refl _
  | apply operator arguments scope =>
    refine Run.gains_bind (gains_resolve hhost hnatives hsound hstarts) fun head after hhead => ?_
    cases harguments : arguments.findSome? Expr.failure? with
    | some failure => exact .refl _
    | none =>
      rcases head with (value | method) | closure
      · exact .refl _
      · refine gains_native hhost hnatives hsound fun lower hlower => ?_
        subst hlower
        exact ⟨_, .applied hhead harguments⟩
      · exact ((Run.recordsNothing_call closure arguments scope).bind fun frame =>
          Run.recordsNothing_pure _).gains after
  | close items scope =>
    rw [Engine.run, map_eq_pure_bind]
    have hclose := (explains_nested hhost hnatives limits limits.maxDepth).1 _ _ _
      (hstarts.begins hhost hsound).2
    exact Run.gains_bind (hclose.within hstarts rfl) fun frame after _ => .refl _
  | interpret program root =>
    rw [Engine.run, map_eq_pure_bind]
    have hforce := explains_force hhost hnatives _ _ _ _ (hstarts.begins hhost hsound).2
    have hcells := ((host.engine levels limits).interpretRun_leaves program root ⟨0, world⟩).1
    exact Run.gains_bind ((hforce.within hstarts rfl).trans (.of_cells hcells))
      fun value after _ => .refl _

theorem explains_program (hnatives : host.ExplainsNatives held number name levels)
    (code : Program ν σ) (world : World ν σ)
    (hsound : (Activity.program levels code world).Sound held) :
    host.Explains number name (.program levels code world) := by
  -- Whatever the program does next, it goes on where that has led to.
  have hadvances {code : Program ν σ} {world : World ν σ} {more : Program ν σ} {after : World ν σ}
      (hsound : (Activity.program levels code world).Sound held)
      (hadvance : code.advance (host.invokeAt levels) world = some (more, after))
      (hmore : (Activity.program levels more after).Sound held →
        host.Explains number name (.program levels more after))
      (hgains : world.Gains number name (host.Causes number name (.program levels code world))
        after) :
      host.Explains number name (.program levels code world) := by
    have hstarts : host.Starts (.program levels code world) 1 _ := .advance hadvance
    show world.Gains number name _ (code.run (host.invokeAt levels) world).2
    rw [Program.run_advance hadvance]
    exact hgains.trans ((hmore (hstarts.begins hhost hsound).2).within hstarts rfl)
  induction code generalizing world with
  | done result => exact .refl _
  | newValue payload next ih =>
    exact hadvances hsound rfl (ih _ _) (.of_cells rfl)
  | newRoot bindings next ih =>
    exact hadvances hsound rfl (ih _ _)
      (.newScope world fun number => .root number bindings)
  | newThunk deferred calling next ih =>
    exact hadvances hsound rfl (ih _ _)
      (.newScope world fun number => .thunk number deferred calling)
  | newCall closure arguments calling next ih =>
    exact hadvances hsound rfl (ih _ _) (.of_records
      (World.grows_newCall closure arguments calling world)
      (World.newCall_records closure arguments calling world number name))
  | memoized scope own next ih => exact hadvances hsound rfl (ih _ _) (.refl world)
  | host change next ih => exact hadvances hsound rfl (ih _ _) (.of_cells rfl)
  | evaluate limits request next ih =>
    have hstarts : host.Starts (.program levels (.evaluate limits request next) world) 0 _ :=
      .evaluate levels limits request next world
    have hevaluation := explains_evaluation hhost hnatives request world
      (hstarts.begins hhost hsound).2
    exact hadvances hsound rfl (ih _ _ _) (hevaluation.within hstarts rfl)

theorem explains_natives (number : Nat) (name : String) (levels : Nat) :
    host.ExplainsNatives held number name levels := by
  induction levels with
  | zero => exact nofun
  | succ levels ih =>
    intro lower hlower
    cases hlower
    exact explains_program hhost ih

/-- All that takes place in the evaluations of an honest host explains the records that are new
after it. -/
theorem explains (number : Nat) (name : String) {activity : Activity ν σ}
    (hsound : activity.Sound held) : host.Explains number name activity := by
  have hnatives := explains_natives hhost number name
  cases activity with
  | evaluation levels limits request world =>
    exact explains_evaluation hhost (hnatives levels) request world hsound
  | loop levels limits depth loop machine =>
    exact (explains_nested hhost (hnatives levels) limits depth).2 loop machine hsound
  | force levels limits rounds expr scope machine =>
    exact explains_force hhost (hnatives levels) rounds expr scope machine hsound
  | step levels limits depth expr scope machine =>
    refine explains_step hhost (fun lower hlower => ?_) (hnatives levels) hsound
    exact (explains_nested hhost (hnatives levels) limits lower).2
  | close levels limits depth items scope machine =>
    exact (explains_nested hhost (hnatives levels) limits depth).1 items scope machine hsound
  | program levels code world => exact explains_program hhost (hnatives levels) code world hsound

end Explained

end Host
end CallByNeed
