import CallByNeed.Proofs.Need.Activities

/-! # The order in which activities take place

The world at the end of an activity grows into that at the end of what started it
(`Host.Starts.ends`), and into the world in which any later activity of the same evaluation starts
(`Host.Precedes.begins`). Of two activities in one evaluation, either one encloses the other or one
precedes the other (`Host.Involves.ordered`).
-/

namespace CallByNeed
set_option autoImplicit false

variable {ν σ α β : Type}

/-! ## Runs -/

namespace Run

/-- What follows a run, if anything does, adds to the world that the run leaves. -/
theorem grows_bind {first : Run ν σ α} {next : α → Run ν σ β} (machine : Machine ν σ)
    (hnext : ∀ result, Obeys (Law.extension ν σ) (next result)) :
    (first machine).2.world.Grows ((first >>= next) machine).2.world := by
  rw [bind_apply]
  rcases first machine with ⟨stop | result, after⟩
  · exact .refl _
  · exact (hnext result after (Nat.zero_le _)).2.grows

end Run

namespace Nested

variable {nested : Nested ν σ} {machine after : Machine ν σ}

/-- If all arguments came to something, the first one and the others did. -/
theorem ok_of_resolveAll_cons {scope : Scope ν} {first : Expr ν} {rest heads : List (Expr ν)}
    (h : nested.resolveAll scope (first :: rest) machine = (.ok heads, after)) :
    ∃ head middle others, nested.resolve first scope machine = (.ok head, middle) ∧
      nested.resolveAll scope rest middle = (.ok others, after) ∧
      heads = head.toExpr :: others := by
  rw [resolveAll_cons] at h
  obtain ⟨head, middle, hfirst, hrest⟩ := Run.ok_of_bind h
  obtain ⟨others, last, hothers, hpure⟩ := Run.ok_of_bind hrest
  cases hpure
  exact ⟨head, middle, others, hfirst, hothers, rfl⟩

/-- Each argument is resolved where the arguments before it have led to. -/
theorem resolveAll_grows (hnested : nested.Obeys (Law.extension ν σ)) {scope : Scope ν}
    {before heads : List (Expr ν)} (target : Expr ν) (rest : List (Expr ν))
    (h : nested.resolveAll scope before machine = (.ok heads, after)) :
    (nested.resolve target scope after).2.world.Grows
      (nested.resolveAll scope (before ++ target :: rest) machine).2.world := by
  have hrest : Run.Obeys (Law.extension ν σ) (nested.resolveAll scope rest) :=
    Engine.Lawful.resolveAll hnested scope rest
  rw [resolveAll_append, Run.bind_apply, h]
  dsimp only
  rw [resolveAll_cons, bind_assoc]
  exact Run.grows_bind _ fun _ =>
    (hrest.bind fun _ => Run.obeys_pure _).bind fun _ => Run.obeys_pure _

/-- Each name is computed where the names before it have led to. -/
theorem bindAll_grows {engine : Engine ν σ} (lawful : engine.Lawful (Law.extension ν σ))
    (hnested : nested.Obeys (Law.extension ν σ)) {scope : Scope ν}
    {before : List (Lambda.Binding ν)} {start table : Table (Expr ν)} (position bound : Expr ν)
    (rest : List (Lambda.Binding ν))
    (h : nested.bindAll scope before start machine = (.ok table, after)) :
    (nested.bindingName position scope after).2.world.Grows
      (nested.bindAll scope (before ++ (position, bound) :: rest) start machine).2.world := by
  rw [bindAll_append, Run.bind_apply, h]
  dsimp only
  rw [bindAll_cons]
  exact Run.grows_bind _ fun name => (lawful.reportRebound name _).bind fun _ =>
    lawful.bindAll hnested scope rest _

end Nested

/-! ## Steps -/

namespace Engine

variable {engine : Engine ν σ} {nested : Nested ν σ} {machine : Machine ν σ}
  {scope : Scope ν}

theorem step_application {operator : Expr ν} {arguments : List (Expr ν)}
    (h : machine.steps < engine.limits.maxSteps) :
    engine.step nested (.application operator arguments) scope machine =
      (nested.resolve operator scope >>= engine.applyHead nested arguments scope)
        (machine.counted (.application operator arguments)) := by
  rw [step_eq, Run.bind_apply, Run.tick_apply, if_neg (by omega), ← stepApplication_eq]
  rfl

theorem step_lambda {items : List (Item ν)} (h : machine.steps < engine.limits.maxSteps) :
    engine.step nested (.lambda items) scope machine =
      (nested.close items scope >>= fun closure => pure (.finished (.closure closure)))
        (machine.counted (.lambda items)) := by
  rw [step_eq, Run.bind_apply, Run.tick_apply, if_neg (by omega)]
  rfl

variable (lawful : engine.Lawful (Law.extension ν σ))
  (hnested : nested.Obeys (Law.extension ν σ))
include lawful hnested

/-- An operator that is no value has its arguments resolved. -/
theorem applyHead_grows {before heads : List (Expr ν)} {target : Expr ν} (rest : List (Expr ν))
    {head : Head ν} {after : Machine ν σ} (hhead : ∀ value, head.toExpr ≠ .value value)
    (h : nested.resolveAll scope before machine = (.ok heads, after)) :
    (nested.resolve target scope after).2.world.Grows
      (engine.applyHead nested (before ++ target :: rest) scope head machine).2.world := by
  have hgrows := Nested.resolveAll_grows hnested target rest h
  rcases head with (value | method) | closure
  · exact (hhead value rfl).elim
  · exact hgrows.trans (Run.grows_bind machine fun heads =>
      (lawful.callNative method heads scope).bind fun _ => Run.obeys_pure _)
  · exact hgrows.trans (Run.grows_bind machine fun heads =>
      (lawful.call closure heads scope).bind fun _ => Run.obeys_pure _)

/-- A step of an application adds to what each of its parts leaves. -/
theorem step_grows_part {operator target : Expr ν} {arguments before rest heads : List (Expr ν)}
    {after : Machine ν σ} (hlimit : machine.steps < engine.limits.maxSteps)
    (hparts : operator :: arguments = before ++ target :: rest)
    (hbefore : nested.resolveAll scope before
      (machine.counted (.application operator arguments)) = (.ok heads, after))
    (hoperator : ∀ value, heads.head? ≠ some (.value value)) :
    (nested.resolve target scope after).2.world.Grows
      (engine.step nested (.application operator arguments) scope machine).2.world := by
  rw [step_application hlimit]
  cases before with
  | nil =>
    cases hparts
    cases hbefore
    exact Run.grows_bind _ (lawful.applyHead hnested arguments scope)
  | cons first before =>
    cases hparts
    obtain ⟨head, middle, others, hhead, hothers, rfl⟩ := Nested.ok_of_resolveAll_cons hbefore
    rw [Run.bind_apply, hhead]
    exact applyHead_grows lawful hnested rest
      (fun value hvalue => hoperator value (congrArg some hvalue)) hothers

omit lawful hnested in
/-- A step that calls a native method adds the event of its return. -/
theorem step_grows_native (engine : Engine ν σ) {operator : Expr ν}
    {arguments heads : List (Expr ν)} {after : Machine ν σ} {method : Native ν}
    (hlimit : machine.steps < engine.limits.maxSteps)
    (hparts : nested.resolveAll scope (operator :: arguments)
      (machine.counted (.application operator arguments)) =
        (.ok (.native method :: heads), after)) :
    (engine.invoke method heads scope
        (after.world.emit (.invoking method heads scope))).2.Grows
      (engine.step nested (.application operator arguments) scope machine).2.world := by
  obtain ⟨head, middle, others, hhead, hothers, hheads⟩ := Nested.ok_of_resolveAll_cons hparts
  have hnative : head = .terminal (.native method) := by
    rcases head with (value | found) | closure <;> cases hheads
    rfl
  subst hnative
  cases hheads
  rw [step_application hlimit, Run.bind_apply, hhead]
  show World.Grows _ ((nested.resolveAll scope arguments >>= _) middle).2.world
  rw [Run.bind_apply, hothers]
  exact .of_cells rfl

/-- Closing a lambda adds to what the computation of each name leaves. -/
theorem close_grows {items : List (Item ν)} {before rest : List (Lambda.Binding ν)}
    {position bound body : Expr ν} {table : Table (Expr ν)} {after : Machine ν σ}
    (hparts : Lambda.parts items = .ok (before ++ (position, bound) :: rest, body))
    (hbefore : nested.bindAll scope before .empty machine = (.ok table, after)) :
    (nested.bindingName position scope after).2.world.Grows
      (nested.close items scope machine).2.world := by
  rw [Nested.close, hparts]
  refine (Nested.bindAll_grows lawful hnested position bound rest hbefore).trans ?_
  exact Run.grows_bind machine fun table => (lawful.emit _).bind fun _ =>
    lawful.withWorld fun world => .closure table body scope world

end Engine

/-! ## Loops -/

namespace Loop

variable {engine : Engine ν σ} {depth : Nat} {loop : Loop ν} {expr : Expr ν} {scope : Scope ν}
  {machine after : Machine ν σ}

theorem leaves_resolve (rounds : Nat) (pending : List (Scope ν × String)) :
    (Loop.resolve (rounds + 1) expr scope pending).leaves engine depth machine =
      ((engine.step (engine.nested depth) expr scope >>=
        engine.afterStep (engine.nested depth) rounds pending) machine).2.world := by
  rw [leaves, Engine.resolveLoop_step]

theorem leaves_name (rounds : Nat) (hname : expr.identifier? = none) :
    (Loop.name (rounds + 1) expr scope).leaves engine depth machine =
      ((engine.step (engine.nested depth) expr scope >>=
        engine.nameAfterStep (engine.nested depth) rounds) machine).2.world := by
  rw [leaves, Engine.nameLoop_succ _ _ _ _ _ hname]

/-- A loop that goes on leaves the world as the rest of it does. -/
theorem leaves_of_next {outcome : Outcome ν} {more : Loop ν}
    (hstep : loop.step? = some (expr, scope))
    (h : engine.step (engine.nested depth) expr scope machine = (.ok outcome, after))
    (hnext : loop.next? outcome = some more) :
    loop.leaves engine depth machine = more.leaves engine depth after := by
  rcases cases_of_step hstep with ⟨rounds, pending, rfl⟩ | ⟨rounds, rfl, hname⟩
  · rw [leaves_resolve, Run.bind_apply, h]
    cases outcome <;> cases hnext <;> rfl
  · rw [leaves_name rounds hname, Run.bind_apply, h]
    cases outcome <;> cases hnext <;> rfl

/-- A loop that does not go on adds records at most. -/
theorem grows_of_finished {outcome : Outcome ν} (hstep : loop.step? = some (expr, scope))
    (h : engine.step (engine.nested depth) expr scope machine = (.ok outcome, after))
    (hnext : loop.next? outcome = none) :
    after.world.Grows (loop.leaves engine depth machine) := by
  rcases cases_of_step hstep with ⟨rounds, pending, rfl⟩ | ⟨rounds, rfl, hname⟩
  · rw [leaves_resolve, Run.bind_apply, h]
    cases outcome with
    | further next inner => cases hnext
    | binding found bound owner => cases hnext
    | finished head =>
      cases head with
      | terminal result => exact World.grows_memoizeAll result pending after.world
      | closure closure => exact .refl _
  · rw [leaves_name rounds hname, Run.bind_apply, h]
    cases outcome with
    | further next inner => cases hnext
    | binding found bound owner => cases hnext
    | finished head =>
      show after.world.Grows (engine.nameAfterStep _ rounds (.finished head) after).2.world
      rw [Engine.nameAfterStep]
      cases head.name? <;> exact .refl _

variable {held : σ → List (Scope ν)} (hnatives : engine.invoke.Honest held)
include hnatives

theorem grows (loop : Loop ν) (hready : machine.world.Ready held loop.scopes) :
    machine.world.Grows (loop.leaves engine depth machine) := by
  have hengine := Engine.has_orderly hnatives
  have hnested := hengine.nested depth
  cases loop with
  | resolve rounds expr scope pending =>
    exact (Engine.resolveLoop_orderly hnatives hnested rounds expr scope pending machine
      hready.orderly hready.stored).grows
  | name rounds position scope =>
    exact (hengine.loop hnested rounds .name position scope machine
      hready.orderly hready.stored).grows

/-- A loop adds to what its step leaves, however the step ends. -/
theorem grows_step (hstep : loop.step? = some (expr, scope))
    (hready : machine.world.Ready held loop.scopes) :
    (engine.step (engine.nested depth) expr scope machine).2.world.Grows
      (loop.leaves engine depth machine) := by
  have hnested := (Engine.has_orderly hnatives).nested depth
  rcases houtcome : engine.step (engine.nested depth) expr scope machine with
    ⟨stop | outcome, after⟩
  · rcases cases_of_step hstep with ⟨rounds, pending, rfl⟩ | ⟨rounds, rfl, hname⟩
    · rw [leaves_resolve, Run.bind_apply, houtcome]
      exact .refl _
    · rw [leaves_name rounds hname, Run.bind_apply, houtcome]
      exact .refl _
  · cases hnext : loop.next? outcome with
    | none => exact grows_of_finished hstep houtcome hnext
    | some more =>
      rw [leaves_of_next hstep houtcome hnext]
      rw [scopes_of_step hstep] at hready
      have hready := ((Engine.step_orderly hnatives hnested expr scope).ends houtcome hready).2
      exact more.grows hnatives (hready.subset fun inner hm =>
        List.mem_append_left _ (scopes_of_next hnext ▸ hm))

end Loop

/-! ## Ends -/

namespace Host

variable {host : Host ν σ} {held : σ → List (Scope ν)}

/-- The result of forcing a closure is that of forcing its body. -/
theorem forceLoop_again {levels : Nat} {limits : Limits} {rounds : Nat} {expr : Expr ν}
    {scope closure : Scope ν} {machine after : Machine ν σ}
    (hclosure : (host.engine levels limits).resolveTop expr scope machine =
      (.ok (.closure closure), after)) :
    (host.engine levels limits).forceLoop (rounds + 1) expr scope machine =
      (host.engine levels limits).forceLoop rounds closure.body closure
        ⟨after.steps, after.world.emit (.forcing closure)⟩ := by
  rw [Engine.forceLoop_succ, Run.bind_apply, hclosure]
  rfl

/-- An evaluation adds to what it is made of what it makes of the result. -/
theorem grows_ofRequest (levels : Nat) (limits : Limits) (request : Evaluation ν)
    (world : World ν σ) :
    ((Activity.ofRequest levels limits ⟨0, world⟩ request).leaves host).Grows
      ((host.engine levels limits).evaluate request world).world := by
  have lawful := host.engine_extension levels limits
  show World.Grows _ ((host.engine levels limits).run request ⟨0, world⟩).2.world
  cases request with
  | resolve expr scope =>
    rw [Engine.run, map_eq_pure_bind]
    exact Run.grows_bind _ fun head => Run.obeys_pure _
  | force expr scope =>
    rw [Engine.run, map_eq_pure_bind]
    exact Run.grows_bind _ fun result => Run.obeys_pure _
  | apply operator arguments scope =>
    rw [Engine.run, Engine.applyRun_eq]
    exact Run.grows_bind _ fun head => Engine.applyOperator_obeys lawful arguments scope head
  | close items scope =>
    rw [Engine.run, map_eq_pure_bind]
    exact Run.grows_bind _ fun frame => Run.obeys_pure _
  | interpret program root =>
    rw [Engine.run, map_eq_pure_bind]
    have hcells := ((host.engine levels limits).interpretRun_leaves program root ⟨0, world⟩).1
    exact World.Grows.trans (.of_cells hcells) (Run.grows_bind _ fun value => Run.obeys_pure _)

/-- The world at the end of an activity grows into that at the end of what started it. -/
theorem Starts.ends (hhost : host.Honest held) {outer inner : Activity ν σ} {place : Nat}
    (h : host.Starts outer place inner) (hsound : outer.Sound held) :
    (inner.leaves host).Grows (outer.leaves host) := by
  have hnatives (levels : Nat) (limits : Limits) :
      (host.engine levels limits).invoke.Honest held := hhost.invokeAt levels
  have lawful := host.engine_extension
  have hnested (levels : Nat) (limits : Limits) := Engine.nested_obeys (lawful levels limits)
  cases h with
  | request levels limits request world => exact grows_ofRequest levels limits request world
  | @applied levels limits operator arguments scope world method after hoperator harguments =>
    show World.Grows _
      ((host.engine (levels + 1) limits).applyRun operator arguments scope ⟨0, world⟩).2.world
    rw [Engine.applyRun, Run.bind_apply, hoperator, harguments]
    exact .of_cells rfl
  | forced levels limits rounds expr scope machine =>
    show World.Grows ((host.engine levels limits).resolveTop expr scope machine).2.world
      ((host.engine levels limits).forceLoop (rounds + 1) expr scope machine).2.world
    rcases hrun : (host.engine levels limits).resolveTop expr scope machine with
      ⟨stop | (result | closure), after⟩
    · rw [Engine.forceLoop_succ, Run.bind_apply, hrun]
      exact .refl _
    · rw [Engine.forceLoop_succ, Run.bind_apply, hrun]
      exact .refl _
    · obtain ⟨-, hagain⟩ := (Starts.forcedAgain hrun).begins hhost hsound
      have hemit : after.world.Grows (after.world.emit (.forcing closure)) := .of_cells rfl
      rw [forceLoop_again hrun]
      exact hemit.trans ((Engine.has_orderly (hnatives levels limits)).forceLoop rounds
        closure.body closure _ hagain.orderly hagain.stored).grows
  | forcedAgain hclosure =>
    rw [Activity.leaves, Activity.leaves, forceLoop_again hclosure]
    exact .refl _
  | step machine hstep => exact Loop.grows_step (hnatives _ _) hstep hsound
  | next hstep houtcome hnext =>
    rw [Activity.leaves, Activity.leaves, Loop.leaves_of_next hstep houtcome hnext]
    exact .refl _
  | part hlimit hparts hbefore hoperator =>
    exact Engine.step_grows_part (lawful _ _) (hnested _ _ _) hlimit hparts hbefore hoperator
  | @native levels limits depth operator arguments heads scope machine after method hlimit hparts =>
    exact (host.engine (levels + 1) limits).step_grows_native hlimit hparts
  | closes levels depth items scope hlimit =>
    rw [Activity.leaves, Activity.leaves, Engine.step_lambda hlimit]
    exact Run.grows_bind _ fun closure => Run.obeys_pure _
  | @names levels limits depth items scope before rest position bound body table machine after
      hparts hbefore =>
    exact Engine.close_grows (lawful levels limits) (hnested levels limits _) hparts hbefore
  | evaluate levels limits request next world =>
    exact (Program.run_extends (host.invokeAt_extends levels) _ _).grows
  | advance hadvance =>
    rw [Activity.leaves, Activity.leaves, Program.run_advance hadvance]
    exact .refl _

/-! ## Order -/

/-- Of two ways to split a list, the one with the shorter front splits the front of the other. -/
theorem split_of_length_lt {before rest front back : List α} {target : α}
    (h : before ++ target :: rest = front ++ back) (hlt : before.length < front.length) :
    ∃ more, front = before ++ target :: more := by
  rcases List.append_eq_append_iff.1 h with ⟨more, hfront, hmore⟩ | ⟨more, hbefore, -⟩
  · cases more with
    | nil =>
      rw [hfront, List.append_nil] at hlt
      exact absurd hlt (Nat.lt_irrefl _)
    | cons first more =>
      cases hmore
      exact ⟨more, hfront⟩
  · rw [hbefore, List.length_append] at hlt
    omega

/-- What an activity starts later starts in a world that has grown out of the one that was left by
what it started before. -/
theorem Starts.follows {outer first second : Activity ν σ} {place later : Nat}
    (h : host.Starts outer place first) (h' : host.Starts outer later second)
    (hlt : place < later) : (first.leaves host).Grows second.start := by
  have hnested (levels : Nat) (limits : Limits) :=
    Engine.nested_obeys (host.engine_extension levels limits)
  cases h with
  | request levels limits request world =>
    cases h' with
    | request => exact absurd hlt (Nat.lt_irrefl _)
    | @applied levels _ operator arguments scope _ method after hoperator harguments =>
      show World.Grows ((host.engine (levels + 1) limits).resolveTop operator scope
        ⟨0, world⟩).2.world _
      rw [hoperator]
      exact .of_cells rfl
  | applied => cases h' <;> omega
  | forced levels limits rounds expr scope machine =>
    cases h' with
    | forced => exact absurd hlt (Nat.lt_irrefl _)
    | forcedAgain hclosure =>
      show World.Grows ((host.engine levels limits).resolveTop expr scope machine).2.world _
      rw [hclosure]
      exact .of_cells rfl
  | forcedAgain => cases h' <;> omega
  | step machine hstep =>
    cases h' with
    | step => exact absurd hlt (Nat.lt_irrefl _)
    | next hstep' houtcome hnext =>
      cases hstep.symm.trans hstep'
      rw [Activity.leaves, houtcome]
      exact .refl _
  | next => cases h' <;> omega
  | @part levels limits depth operator target arguments before rest heads scope machine after hlimit
      hparts hbefore hoperator =>
    have hgrows := fun more => Nested.resolveAll_grows (hnested levels limits (depth + 1)) target
      more hbefore
    cases h' with
    | part hlimit' hparts' hbefore' hoperator' =>
      obtain ⟨more, hfront⟩ := split_of_length_lt (hparts.symm.trans hparts') hlt
      have hmore := hgrows more
      rw [← hfront, hbefore'] at hmore
      exact hmore
    | native hlimit' hparts' =>
      have hrest := hgrows rest
      rw [← hparts, hparts'] at hrest
      exact World.Grows.trans hrest (.of_cells rfl)
  | @native levels limits depth operator arguments heads scope machine after method hlimit hparts =>
    cases h' with
    | part hlimit' hparts' hbefore' hoperator' =>
      have hlength := congrArg List.length hparts'
      rw [List.length_append, List.length_cons, List.length_cons] at hlength
      omega
    | native hlimit' hparts' => exact absurd hlt (Nat.lt_irrefl _)
  | closes => cases h' with
    | closes => exact absurd hlt (Nat.lt_irrefl _)
  | @names levels limits depth items scope before rest position bound body table machine after
      hparts hbefore =>
    cases h' with
    | names hparts' hbefore' =>
      have hbindings := congrArg Prod.fst (Except.ok.inj (hparts.symm.trans hparts'))
      obtain ⟨more, hfront⟩ := split_of_length_lt hbindings hlt
      have hmore := Nested.bindAll_grows (host.engine_extension levels limits)
        (hnested levels limits (depth + 1)) position bound more hbefore
      rw [← hfront, hbefore'] at hmore
      exact hmore
  | evaluate levels limits request next world =>
    cases h' with
    | evaluate => exact absurd hlt (Nat.lt_irrefl _)
    | advance hadvance =>
      cases hadvance
      exact .refl _
  | advance => cases h' <;> omega

/-- An activity starts one other activity in each place. -/
theorem Starts.unique {outer first second : Activity ν σ} {place : Nat}
    (h : host.Starts outer place first) (h' : host.Starts outer place second) :
    first = second := by
  generalize hlater : place = later at h'
  cases h with
  | request => cases h' with
    | request => rfl
    | applied => omega
  | applied hoperator harguments => cases h' with
    | request => omega
    | applied hoperator' harguments' =>
      cases hoperator.symm.trans hoperator'
      rfl
  | forced => cases h' with
    | forced => rfl
    | forcedAgain => omega
  | forcedAgain hclosure => cases h' with
    | forced => omega
    | forcedAgain hclosure' =>
      cases hclosure.symm.trans hclosure'
      rfl
  | step machine hstep => cases h' with
    | step _ hstep' =>
      cases hstep.symm.trans hstep'
      rfl
    | next => omega
  | next hstep houtcome hnext => cases h' with
    | step => omega
    | next hstep' houtcome' hnext' =>
      cases hstep.symm.trans hstep'
      cases houtcome.symm.trans houtcome'
      cases hnext.symm.trans hnext'
      rfl
  | part hlimit hparts hbefore hoperator => cases h' with
    | part hlimit' hparts' hbefore' hoperator' =>
      obtain ⟨rfl, hrest⟩ := List.append_inj (hparts.symm.trans hparts') hlater
      cases hrest
      cases hbefore.symm.trans hbefore'
      rfl
    | native hlimit' hparts' =>
      have hlength := congrArg List.length hparts
      rw [List.length_append, List.length_cons, List.length_cons] at hlength
      omega
  | native hlimit hparts => cases h' with
    | part hlimit' hparts' hbefore' hoperator' =>
      have hlength := congrArg List.length hparts'
      rw [List.length_append, List.length_cons, List.length_cons] at hlength
      omega
    | native hlimit' hparts' =>
      cases hparts.symm.trans hparts'
      rfl
  | closes => cases h' with
    | closes => rfl
  | names hparts hbefore => cases h' with
    | names hparts' hbefore' =>
      have hbindings := congrArg Prod.fst (Except.ok.inj (hparts.symm.trans hparts'))
      obtain ⟨rfl, hrest⟩ := List.append_inj hbindings hlater
      cases hrest
      cases hbefore.symm.trans hbefore'
      rfl
  | evaluate => cases h' with
    | evaluate => rfl
    | advance => omega
  | advance hadvance => cases h' with
    | evaluate => omega
    | advance hadvance' =>
      cases hadvance.symm.trans hadvance'
      rfl

/-- In the course of the whole, the first activity is over before the second one starts. -/
def Precedes (host : Host ν σ) (whole first second : Activity ν σ) : Prop :=
  ∃ outer before after place later, host.Involves whole outer ∧
    host.Starts outer place before ∧ host.Starts outer later after ∧ place < later ∧
    host.Involves before first ∧ host.Involves after second

section Involved

variable {outer inner whole first second : Activity ν σ}

/-- Of two activities that an activity involves, one involves the other or one precedes it. -/
theorem Involves.ordered (h : host.Involves whole first) (h' : host.Involves whole second) :
    host.Involves first second ∨ host.Involves second first ∨
      host.Precedes whole first second ∨ host.Precedes whole second first := by
  induction h using Relation.ReflTransGen.head_induction_on with
  | refl => exact .inl h'
  | @head whole before hstarts hfirst ih =>
    obtain ⟨place, hstarts⟩ := hstarts
    rcases h'.cases_head with rfl | ⟨after, ⟨later, hlater⟩, hsecond⟩
    · exact .inr (.inl (.head ⟨place, hstarts⟩ hfirst))
    · rcases Nat.lt_trichotomy place later with hlt | rfl | hlt
      · exact .inr (.inr (.inl ⟨whole, before, after, place, later, .refl, hstarts, hlater, hlt,
          hfirst, hsecond⟩))
      · -- Both take place in the course of what is started here.
        obtain rfl := hstarts.unique hlater
        have hextend {one other : Activity ν σ} (h : host.Precedes before one other) :
            host.Precedes whole one other := by
          obtain ⟨outer, before, after, place, later, houter, hrest⟩ := h
          exact ⟨outer, before, after, place, later, .head ⟨_, hstarts⟩ houter, hrest⟩
        exact (ih hsecond).imp_right fun h => h.imp_right fun h => h.imp hextend hextend
      · exact .inr (.inr (.inr ⟨whole, after, before, later, place, .refl, hlater, hstarts, hlt,
          hsecond, hfirst⟩))

variable (hhost : host.Honest held)
include hhost

theorem Involves.begins (h : host.Involves outer inner) (hsound : outer.Sound held) :
    outer.start.Grows inner.start ∧ inner.Sound held := by
  induction h with
  | refl => exact ⟨.refl _, hsound⟩
  | tail _ hstarts ih =>
    obtain ⟨place, hstarts⟩ := hstarts
    obtain ⟨hgrows, hinner⟩ := hstarts.begins hhost ih.2
    exact ⟨ih.1.trans hgrows, hinner⟩

theorem Involves.ends (h : host.Involves outer inner) (hsound : outer.Sound held) :
    (inner.leaves host).Grows (outer.leaves host) := by
  induction h using Relation.ReflTransGen.head_induction_on with
  | refl => exact .refl _
  | head hstarts _ ih =>
    obtain ⟨place, hstarts⟩ := hstarts
    exact (ih (hstarts.begins hhost hsound).2).trans (hstarts.ends hhost hsound)

/-- A later activity starts in a world that has grown out of the one that an earlier one left. -/
theorem Precedes.begins (h : host.Precedes whole first second) (hsound : whole.Sound held) :
    (first.leaves host).Grows second.start ∧ second.Sound held := by
  obtain ⟨outer, before, after, place, later, houter, hbefore, hafter, hlt, hfirst, hsecond⟩ := h
  obtain ⟨-, houterSound⟩ := houter.begins hhost hsound
  have hends := hfirst.ends hhost (hbefore.begins hhost houterSound).2
  obtain ⟨hgrows, hsecondSound⟩ :=
    hsecond.begins hhost (hafter.begins hhost houterSound).2
  exact ⟨hends.trans ((hbefore.follows hafter hlt).trans hgrows), hsecondSound⟩

end Involved

end Host
end CallByNeed
