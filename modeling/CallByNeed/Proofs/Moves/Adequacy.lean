import CallByNeed.Proofs.Moves.Basic

/-! # Where the moves lead

From the start of an evaluation the moves lead to the moment in which the evaluation is over, with
the outcome, the steps and the world that `Engine.evaluate` gives: `evaluate_reached`. So every
evaluation ends, and the rounds of the loops, which the moves know nothing of, never cut one short.

A run leads from one control to the next (`Engine.LeadsFrom`), one lemma for each function of the
reducer. A loop does so from every machine whose remaining budget is covered by its rounds.
-/

namespace CallByNeed
set_option autoImplicit false

variable {ν σ α β : Type} {part whole : Part}

namespace Engine

variable (engine : Engine ν σ)

/-- A stop that leaves the inner part leaves the outer one next, with nothing done in between. -/
def Unwinds (inner : Rest ν part) (outer : Rest ν whole) : Prop :=
  ∀ stop machine, ∃ moves,
    engine.after moves ⟨.raise stop inner, machine⟩ = ⟨.raise stop outer, machine⟩

/-- From every machine that has taken at least so many steps, the moves do what the run does. -/
def LeadsFrom (least : Nat) (start : Control ν) (run : Run ν σ α) (next : α → Control ν)
    (rest : Rest ν part) : Prop :=
  ∀ machine, least ≤ machine.steps → ∃ moves,
    engine.after moves ⟨start, machine⟩ = .afterRun run next rest machine

variable {engine} {least : Nat} {start middle : Control ν}

theorem Unwinds.refl (rest : Rest ν part) : engine.Unwinds rest rest :=
  fun _ _ => ⟨0, rfl⟩

theorem Unwinds.single {inner : Rest ν part} (outer : Rest ν whole)
    (h : ∀ stop (machine : Machine ν σ),
      Moment.ofStop stop inner machine = ⟨.raise stop outer, machine⟩) :
    engine.Unwinds inner outer :=
  fun stop machine => ⟨1, h stop machine⟩

theorem unwinds_step (rest : Rest ν .outcome) : engine.Unwinds (Rest.step rest) rest :=
  Unwinds.single _ fun _ _ => rfl

/-! ## Composition -/

namespace LeadsFrom

theorem mono {more : Nat} {run : Run ν σ α} {next : α → Control ν} {rest : Rest ν part}
    (h : engine.LeadsFrom least start run next rest) (hle : least ≤ more) :
    engine.LeadsFrom more start run next rest :=
  fun machine hm => h machine (Nat.le_trans hle hm)

/-- A run that one move performs. -/
theorem single {run : Run ν σ α} {next : α → Control ν} {rest : Rest ν part}
    (h : ∀ machine, engine.move ⟨start, machine⟩ = .afterRun run next rest machine) :
    engine.LeadsFrom least start run next rest :=
  fun machine _ => ⟨1, h machine⟩

theorem pure (result : α) (next : α → Control ν) (rest : Rest ν part) :
    engine.LeadsFrom least (next result) (pure result) next rest :=
  fun _ _ => ⟨0, rfl⟩

/-- One move before a run. -/
theorem move {run : Run ν σ α} {next : α → Control ν} {rest : Rest ν part}
    (hmove : ∀ machine, engine.move ⟨start, machine⟩ = ⟨middle, machine⟩)
    (h : engine.LeadsFrom least middle run next rest) :
    engine.LeadsFrom least start run next rest := by
  intro machine hm
  obtain ⟨moves, hmoves⟩ := h machine hm
  exact ⟨moves + 1, by rw [after_move, hmove, hmoves]⟩

/-- A stop is handed on to the part around. -/
theorem unwind {run : Run ν σ α} {next : α → Control ν} {inner : Rest ν part}
    {outer : Rest ν whole} (h : engine.LeadsFrom least start run next inner)
    (hinner : engine.Unwinds inner outer) : engine.LeadsFrom least start run next outer := by
  intro machine hm
  obtain ⟨moves, hmoves⟩ := h machine hm
  rw [Moment.afterRun] at hmoves ⊢
  rcases hrun : run machine with ⟨stop | result, after⟩ <;> rw [hrun] at hmoves
  · obtain ⟨more, hmore⟩ := hinner stop after
    exact ⟨moves + more, by rw [after_add, hmoves, hmore]⟩
  · exact ⟨moves, hmoves⟩

/-- What is done with the result of a run leads on. -/
theorem bind {first : Run ν σ α} {second : α → Run ν σ β} {between : α → Control ν}
    {next : β → Control ν} {rest : Rest ν part}
    (h : engine.LeadsFrom least start first between rest)
    (hs : ∀ result, engine.LeadsFrom least (between result) (second result) next rest) :
    engine.LeadsFrom least start (first >>= second) next rest := by
  intro machine hm
  obtain ⟨moves, hmoves⟩ := h machine hm
  have hsteps := engine.steps_le_after moves ⟨start, machine⟩
  rw [hmoves] at hsteps
  rw [Moment.afterRun] at hmoves hsteps
  rw [Moment.afterRun, Run.bind_apply]
  rcases hrun : first machine with ⟨stop | result, after⟩ <;> rw [hrun] at hmoves hsteps
  · exact ⟨moves, hmoves⟩
  · obtain ⟨more, hmore⟩ := hs result after (Nat.le_trans hm hsteps)
    exact ⟨moves + more, by rw [after_add, hmoves, hmore, Moment.afterRun]⟩

/-- What follows a counted step starts with one more step. -/
theorem count {expr : Expr ν} {scope : Scope ν} {inner : Rest ν .outcome} {run : Run ν σ α}
    {next : α → Control ν} {rest : Rest ν part}
    (hinner : engine.Unwinds inner rest)
    (h : engine.LeadsFrom (least + 1) (.report expr scope inner) run next rest) :
    engine.LeadsFrom least (.count expr scope inner)
      (Run.tick engine.limits >>= fun _ => run) next rest := by
  intro machine hm
  by_cases hlimit : engine.limits.maxSteps < machine.steps + 1
  · obtain ⟨moves, hmoves⟩ := hinner (.outOfSteps engine.limits.maxSteps)
      ⟨machine.steps + 1, machine.world⟩
    refine ⟨moves + 1, ?_⟩
    rw [after_move, move_count_exhausted hlimit, hmoves, Moment.afterRun_error]
    rw [Run.bind_apply, Run.tick_apply, if_pos hlimit]
  · obtain ⟨moves, hmoves⟩ := h ⟨machine.steps + 1, machine.world⟩ (Nat.succ_le_succ hm)
    refine ⟨moves + 1, ?_⟩
    rw [after_move, move_count_allowed hlimit, hmoves, Moment.afterRun, Moment.afterRun,
      Run.bind_apply, Run.tick_apply, if_neg hlimit]

/-- When the budget is used up, the count of the next step ends the loop. -/
theorem exhaust {expr : Expr ν} {scope : Scope ν} {inner : Rest ν .outcome}
    {next : α → Control ν} {rest : Rest ν part} (hleast : engine.limits.maxSteps ≤ least)
    (hinner : engine.Unwinds inner rest) :
    engine.LeadsFrom least (.count expr scope inner) (Run.exhaust engine.limits) next rest := by
  intro machine hm
  obtain ⟨moves, hmoves⟩ := hinner (.outOfSteps engine.limits.maxSteps)
    ⟨machine.steps + 1, machine.world⟩
  refine ⟨moves + 1, ?_⟩
  rw [after_move, move_count_exhausted (by omega), hmoves, Moment.afterRun_error]
  exact Run.exhaust_apply _ _

end LeadsFrom

/-! ## Steps -/

/-- The resolutions when so many more levels are allowed, at the depth where so many are left. -/
structure NestedLeads (engine : Engine ν σ) (levels : Nat) (nested : Nested ν σ) : Prop where
  resolve : ∀ {rest : Rest ν .head}, levels + rest.depth = engine.limits.maxDepth + 1 →
    ∀ least expr scope, engine.LeadsFrom least (.enter expr scope rest)
      (nested.resolve expr scope) (fun head => .head head rest) rest
  bindingName : ∀ {rest : Rest ν .name}, levels + rest.depth = engine.limits.maxDepth + 1 →
    ∀ least position scope, engine.LeadsFrom least (.enterName position scope rest)
      (nested.bindingName position scope) (fun name => .name name rest) rest

section Steps

variable {levels : Nat} {nested : Nested ν σ} (hnested : engine.NestedLeads levels nested)
include hnested

theorem bindAll_leads {rest : Rest ν .closure}
    (hdepth : levels + rest.depth = engine.limits.maxDepth) (body : Expr ν) (scope : Scope ν)
    (bindings : List (Lambda.Binding ν)) (table : Table (Expr ν)) :
    engine.LeadsFrom least (.bind bindings table body scope rest)
      (nested.bindAll scope bindings table) (fun table => .bind [] table body scope rest) rest := by
  induction bindings generalizing table with
  | nil => exact LeadsFrom.pure table (fun table => .bind [] table body scope rest) rest
  | cons binding more ih =>
    obtain ⟨position, bound⟩ := binding
    have hinner : levels + (Rest.binding bound more table body scope rest).depth =
        engine.limits.maxDepth + 1 := by
      rw [Rest.depth]
      omega
    have hname := (hnested.bindingName hinner least position scope).unwind
      (Unwinds.single rest fun _ _ => rfl)
    rw [Nested.bindAll_cons]
    refine LeadsFrom.move (fun _ => rfl) (hname.bind fun name => ?_)
    exact (LeadsFrom.single fun _ => rfl).bind fun _ => ih (table.insert name bound)

theorem close_leads {rest : Rest ν .closure}
    (hdepth : levels + rest.depth = engine.limits.maxDepth) (items : List (Item ν))
    (scope : Scope ν) :
    engine.LeadsFrom least (.close items scope rest) (nested.close items scope)
      (fun closure => .closure closure rest) rest := by
  rw [Nested.close]
  cases hparts : Lambda.parts items with
  | error shape =>
    refine LeadsFrom.single fun machine => ?_
    rw [move, hparts]
    rfl
  | ok parts =>
    obtain ⟨bindings, body⟩ := parts
    have hmove : ∀ machine, engine.move ⟨.close items scope rest, machine⟩ =
        ⟨.bind bindings .empty body scope rest, machine⟩ := fun machine => by rw [move, hparts]
    refine LeadsFrom.move hmove ?_
    refine (bindAll_leads hnested hdepth body scope bindings .empty).bind fun table => ?_
    exact LeadsFrom.single fun _ => rfl

theorem resolveAll_leads {rest : Rest ν .outcome}
    (hdepth : levels + rest.depth = engine.limits.maxDepth) (callee : Callee ν) (scope : Scope ν)
    (done arguments : List (Expr ν)) :
    engine.LeadsFrom least (.arguments callee done arguments scope rest)
      (nested.resolveAll scope arguments)
      (fun heads => .arguments callee (done ++ heads) [] scope rest) rest := by
  induction arguments generalizing done with
  | nil =>
    have h : engine.LeadsFrom least _ _ _ rest := LeadsFrom.pure []
      (fun heads => .arguments callee (done ++ heads) [] scope rest) rest
    rwa [List.append_nil] at h
  | cons argument more ih =>
    have hinner : levels + (Rest.argument callee done more scope rest).depth =
        engine.limits.maxDepth + 1 := by
      rw [Rest.depth]
      omega
    have hargument := (hnested.resolve hinner least argument scope).unwind
      (Unwinds.single rest fun _ _ => rfl)
    rw [Nested.resolveAll_cons]
    refine LeadsFrom.move (fun _ => rfl) (hargument.bind fun head => ?_)
    refine LeadsFrom.move (fun _ => rfl) ((ih (done ++ [head.toExpr])).bind fun heads => ?_)
    rw [List.append_assoc]
    exact LeadsFrom.pure (head.toExpr :: heads)
      (fun heads => .arguments callee (done ++ heads) [] scope rest) rest

theorem applyHead_leads {rest : Rest ν .outcome}
    (hdepth : levels + rest.depth = engine.limits.maxDepth) (arguments : List (Expr ν))
    (scope : Scope ν) (head : Head ν) :
    engine.LeadsFrom least (.head head (.operator arguments scope rest))
      (engine.applyHead nested arguments scope head) (fun outcome => .outcome outcome rest)
      rest := by
  rcases head with (value | method) | closure
  · exact LeadsFrom.single fun _ => rfl
  · refine LeadsFrom.move (fun _ => rfl) ?_
    refine (resolveAll_leads hnested hdepth (.native method) scope [] arguments).bind fun heads => ?_
    refine LeadsFrom.move (fun _ => rfl) ?_
    have hcall : engine.LeadsFrom least (.hand (.native method) heads scope (.step rest))
        (engine.callNative method heads scope)
        (fun result => .outcome (.further result scope) rest) rest :=
      (LeadsFrom.single fun _ => rfl).unwind (unwinds_step rest)
    exact hcall.bind fun result => LeadsFrom.pure _ (fun outcome => .outcome outcome rest) rest
  · refine LeadsFrom.move (fun _ => rfl) ?_
    refine (resolveAll_leads hnested hdepth (.closure closure) scope [] arguments).bind
      fun heads => ?_
    refine LeadsFrom.move (fun _ => rfl) ?_
    have hcall : engine.LeadsFrom least (.hand (.closure closure) heads scope (.step rest))
        (Run.call closure heads scope)
        (fun frame => .outcome (.further frame.body frame) rest) rest :=
      (LeadsFrom.single fun _ => rfl).unwind (unwinds_step rest)
    exact hcall.bind fun frame => LeadsFrom.pure _ (fun outcome => .outcome outcome rest) rest

theorem stepApplication_leads {rest : Rest ν .outcome}
    (hdepth : levels + rest.depth = engine.limits.maxDepth) (operator : Expr ν)
    (arguments : List (Expr ν)) (scope : Scope ν) :
    engine.LeadsFrom least (.enter operator scope (.operator arguments scope rest))
      (engine.stepApplication nested operator arguments scope)
      (fun outcome => .outcome outcome rest) rest := by
  have hinner : levels + (Rest.operator arguments scope rest).depth =
      engine.limits.maxDepth + 1 := by
    rw [Rest.depth]
    omega
  have hoperator := (hnested.resolve hinner least operator scope).unwind
    (Unwinds.single rest fun _ _ => rfl)
  rw [stepApplication_eq]
  exact hoperator.bind (applyHead_leads hnested hdepth arguments scope)

theorem stepBody_leads {rest : Rest ν .outcome}
    (hdepth : levels + rest.depth = engine.limits.maxDepth) (expr : Expr ν) (scope : Scope ν) :
    engine.LeadsFrom least (.report expr scope rest) (engine.stepBody nested expr scope)
      (fun outcome => .outcome outcome rest) rest := by
  have hreport : engine.LeadsFrom least (.report expr scope rest) (Run.emit (.resolving expr))
      (fun _ => .reduce expr scope rest) rest := LeadsFrom.single fun _ => rfl
  refine hreport.bind fun _ => ?_
  cases expr with
  | value value => exact LeadsFrom.single fun _ => rfl
  | native method => exact LeadsFrom.single fun _ => rfl
  | failure failure => exact LeadsFrom.single fun _ => rfl
  | identifier name => exact LeadsFrom.single fun _ => rfl
  | lambda items =>
    have hclose : engine.LeadsFrom least (.close items scope (.lambda rest))
        (nested.close items scope) (fun closure => .closure closure (.lambda rest))
        (Rest.lambda rest) := close_leads hnested hdepth items scope
    have houter := hclose.unwind (Unwinds.single rest fun _ _ => rfl)
    refine LeadsFrom.move (fun _ => rfl) (houter.bind fun closure => ?_)
    exact LeadsFrom.move (fun _ => rfl)
      (LeadsFrom.pure _ (fun outcome => .outcome outcome rest) rest)
  | scope inner => exact LeadsFrom.single fun _ => rfl
  | application operator arguments =>
    exact LeadsFrom.move (fun _ => rfl)
      (stepApplication_leads hnested hdepth operator arguments scope)

/-- A step, followed by anything that goes on with one more step taken. -/
theorem step_leads {inner : Rest ν .outcome} {rest : Rest ν part}
    (hdepth : levels + inner.depth = engine.limits.maxDepth)
    (hinner : engine.Unwinds inner rest) (expr : Expr ν) (scope : Scope ν)
    {second : Outcome ν → Run ν σ α} {next : α → Control ν}
    (hs : ∀ outcome, engine.LeadsFrom (least + 1) (.outcome outcome inner) (second outcome) next
      rest) :
    engine.LeadsFrom least (.count expr scope inner) (engine.step nested expr scope >>= second)
      next rest := by
  rw [step_eq, bind_assoc]
  exact LeadsFrom.count hinner
    (((stepBody_leads hnested hdepth expr scope).unwind hinner).bind hs)

/-! ## Loops -/

/-- A resolution, followed by anything that goes on with one more step taken. -/
theorem resolveLoop_bind_leads {rest : Rest ν .head} {outer : Rest ν part}
    (hdepth : levels + rest.depth = engine.limits.maxDepth) (houter : engine.Unwinds rest outer)
    (rounds least : Nat) (hrounds : engine.limits.maxSteps ≤ rounds + least) (expr : Expr ν)
    (scope : Scope ν) (pending : List (Scope ν × String)) {second : Head ν → Run ν σ α}
    {next : α → Control ν}
    (hs : ∀ head, engine.LeadsFrom (least + 1) (.head head rest) (second head) next outer) :
    engine.LeadsFrom least (.count expr scope (.toHead pending rest))
      (engine.resolveLoop nested rounds expr scope pending >>= second) next outer := by
  have hloop : ∀ pending, engine.Unwinds (Rest.toHead pending rest) outer := by
    intro pending stop machine
    obtain ⟨moves, hmoves⟩ := houter stop machine
    exact ⟨moves + 1, by rw [after_move, ← hmoves]; rfl⟩
  induction rounds generalizing least expr scope pending with
  | zero =>
    rw [resolveLoop, Run.exhaust_bind]
    exact LeadsFrom.exhaust (by omega) (hloop pending)
  | succ rounds ih =>
    have hlater : ∀ head, engine.LeadsFrom (least + 1 + 1) (.head head rest) (second head) next
        outer := fun head => (hs head).mono (Nat.le_succ _)
    rw [resolveLoop_step, bind_assoc]
    refine step_leads hnested hdepth (hloop pending) expr scope fun outcome => ?_
    cases outcome with
    | finished head =>
      rw [afterStep, bind_assoc]
      have hrecord : engine.LeadsFrom (least + 1) (.outcome (.finished head) (.toHead pending rest))
          (Run.record head pending) (fun _ => .head head rest) outer :=
        (LeadsFrom.single fun _ => rfl).unwind houter
      exact hrecord.bind fun _ => hs head
    | further further inner =>
      exact LeadsFrom.move (fun _ => rfl) (ih (least + 1) (by omega) further inner pending hlater)
    | binding name bound owner =>
      exact LeadsFrom.move (fun _ => rfl) (ih (least + 1) (by omega) bound owner _ hlater)

theorem resolveLoop_leads {rest : Rest ν .head}
    (hdepth : levels + rest.depth = engine.limits.maxDepth) (least : Nat) (expr : Expr ν)
    (scope : Scope ν) :
    engine.LeadsFrom least (.count expr scope (.toHead [] rest))
      (engine.resolveLoop nested engine.limits.maxSteps expr scope []) (fun head => .head head rest)
      rest := by
  have h := resolveLoop_bind_leads hnested hdepth (Unwinds.refl rest) engine.limits.maxSteps least
    (Nat.le_add_right _ _) expr scope []
    fun head => LeadsFrom.pure head (fun head => .head head rest) rest
  rwa [bind_pure] at h

theorem nameLoop_leads {rest : Rest ν .name}
    (hdepth : levels + rest.depth = engine.limits.maxDepth) (rounds least : Nat)
    (hrounds : engine.limits.maxSteps ≤ rounds + least) (expr : Expr ν) (scope : Scope ν) :
    engine.LeadsFrom least (.position expr scope rest) (engine.nameLoop nested rounds expr scope)
      (fun name => .name name rest) rest := by
  have hloop : engine.Unwinds (Rest.toName rest) rest := Unwinds.single _ fun _ _ => rfl
  have hcount {expr : Expr ν} {scope : Scope ν} (hname : expr.identifier? = none) :
      ∀ machine, engine.move ⟨.position expr scope rest, machine⟩ =
        ⟨.count expr scope (.toName rest), machine⟩ := fun machine => by rw [move, hname]
  induction rounds generalizing least expr scope with
  | zero =>
    cases hname : expr.identifier? with
    | some name =>
      refine LeadsFrom.single fun machine => ?_
      rw [nameLoop, move, hname]
    | none =>
      rw [nameLoop_zero engine nested expr scope hname]
      exact LeadsFrom.move (hcount hname) (LeadsFrom.exhaust (by omega) hloop)
  | succ rounds ih =>
    cases hname : expr.identifier? with
    | some name =>
      refine LeadsFrom.single fun machine => ?_
      rw [nameLoop, move, hname]
    | none =>
      rw [nameLoop_succ engine nested rounds expr scope hname]
      refine LeadsFrom.move (hcount hname) ?_
      refine step_leads hnested hdepth hloop expr scope fun outcome => ?_
      cases outcome with
      | finished head =>
        refine LeadsFrom.single fun machine => ?_
        rw [nameAfterStep, move, Moment.ofOutcome]
        cases head.name? <;> rfl
      | further further inner =>
        exact LeadsFrom.move (fun _ => rfl) (ih (least + 1) (by omega) further inner)
      | binding name bound owner =>
        exact LeadsFrom.move (fun _ => rfl) (ih (least + 1) (by omega) bound owner)

end Steps

/-! ## Evaluations -/

theorem nested_leads (engine : Engine ν σ) (levels : Nat) :
    engine.NestedLeads levels (engine.nested levels) := by
  induction levels with
  | zero =>
    constructor
    · intro rest hdepth least expr scope
      refine LeadsFrom.single fun machine => ?_
      have hdeep : engine.limits.maxDepth < rest.depth := by omega
      rw [move, permit_of_lt hdeep]
      rfl
    · intro rest hdepth least position scope
      refine LeadsFrom.single fun machine => ?_
      have hdeep : engine.limits.maxDepth < rest.depth := by omega
      rw [move, permit_of_lt hdeep]
      rfl
  | succ levels ih =>
    constructor
    · intro rest hdepth least expr scope
      refine LeadsFrom.move (fun machine => ?_)
        (resolveLoop_leads ih (by omega) least expr scope)
      rw [move, permit_of_le (by omega)]
      rfl
    · intro rest hdepth least position scope
      refine LeadsFrom.move (fun machine => ?_) (nameLoop_leads ih (by omega)
        engine.limits.maxSteps least (Nat.le_add_right _ _) position scope)
      rw [move, permit_of_le (by omega)]
      rfl

theorem resolveTop_leads (engine : Engine ν σ) {rest : Rest ν .head} (hdepth : rest.depth = 0)
    (least : Nat) (expr : Expr ν) (scope : Scope ν) :
    engine.LeadsFrom least (.enter expr scope rest) (engine.resolveTop expr scope)
      (fun head => .head head rest) rest :=
  (nested_leads engine (engine.limits.maxDepth + 1)).resolve (by omega) least expr scope

/-- What forces a head: closures are run, and nothing else is. -/
structure RunsClosures (engine : Engine ν σ) (rest : Rest ν .head) : Prop where
  depth : rest.depth = 0
  closure : ∀ closure machine, engine.move ⟨.head (.closure closure) rest, machine⟩ =
    .afterRun (Run.emit (.forcing closure)) (fun _ => .enter closure.body closure rest) rest
      machine

theorem forceLoop_leads {rest : Rest ν .head} (hruns : engine.RunsClosures rest) (rounds least : Nat)
    (hrounds : engine.limits.maxSteps ≤ rounds + least) (expr : Expr ν) (scope : Scope ν) :
    engine.LeadsFrom least (.enter expr scope rest) (engine.forceLoop rounds expr scope)
      (fun result => .head (.terminal result) rest) rest := by
  have hcount (expr : Expr ν) (scope : Scope ν) : ∀ machine,
      engine.move ⟨.enter expr scope rest, machine⟩ =
        ⟨.count expr scope (.toHead [] rest), machine⟩ := by
    intro machine
    rw [move, permit_of_le (by rw [hruns.depth]; exact Nat.zero_le _)]
    rfl
  induction rounds generalizing least expr scope with
  | zero =>
    exact LeadsFrom.move (hcount expr scope)
      (LeadsFrom.exhaust (by omega) (Unwinds.single _ fun _ _ => rfl))
  | succ rounds ih =>
    rw [forceLoop_succ]
    refine LeadsFrom.move (hcount expr scope) ?_
    refine resolveLoop_bind_leads (nested_leads engine engine.limits.maxDepth)
      (by rw [hruns.depth]; rfl) (Unwinds.refl rest) engine.limits.maxSteps least (by omega)
      expr scope [] fun head => ?_
    cases head with
    | terminal result =>
      exact LeadsFrom.pure result (fun result => .head (.terminal result) rest) rest
    | closure closure =>
      refine LeadsFrom.bind (LeadsFrom.single (hruns.closure closure)) fun _ => ?_
      exact ih (least + 1) (by omega) closure.body closure

theorem runsClosures_forced (engine : Engine ν σ) : engine.RunsClosures .forced :=
  ⟨rfl, fun _ _ => rfl⟩

theorem runsClosures_interpreted (engine : Engine ν σ) : engine.RunsClosures .interpreted :=
  ⟨rfl, fun _ _ => rfl⟩

theorem applyRun_leads (engine : Engine ν σ) (least : Nat) (operator : Expr ν)
    (arguments : List (Expr ν)) (scope : Scope ν) :
    engine.LeadsFrom least (.enter operator scope (.applied arguments scope))
      (engine.applyRun operator arguments scope) (fun result => .ended (.ok result))
      Rest.called := by
  have hdepth : (Rest.applied arguments scope).depth = 0 := rfl
  have hoperator := (resolveTop_leads engine hdepth least operator scope).unwind
    (Unwinds.single Rest.called fun _ _ => rfl)
  refine hoperator.bind fun head => ?_
  have hmove : ∀ machine, engine.move ⟨.head head (.applied arguments scope), machine⟩ =
      Moment.ofOperator head arguments scope machine := fun _ => rfl
  cases hfailure : arguments.findSome? Expr.failure? with
  | some failure =>
    refine LeadsFrom.single fun machine => ?_
    rw [hmove, Moment.ofOperator, hfailure]
    rfl
  | none =>
    have happlying : ∀ machine, engine.move ⟨.head head (.applied arguments scope), machine⟩ =
        ⟨.applying head arguments scope, machine⟩ :=
      fun machine => by rw [hmove, Moment.ofOperator, hfailure]
    refine LeadsFrom.move happlying ?_
    rcases head with (value | method) | closure
    · exact LeadsFrom.pure (.value value) (fun result => .ended (.ok result)) Rest.called
    · exact LeadsFrom.single fun _ => rfl
    · have hcall : engine.LeadsFrom least (.hand (.closure closure) arguments scope .called)
          (Run.call closure arguments scope) (fun frame => .ended (.ok (.scope frame)))
          Rest.called := LeadsFrom.single fun _ => rfl
      exact hcall.bind fun frame =>
        LeadsFrom.pure (.scope frame) (fun result => .ended (.ok result)) Rest.called

/-- A run that leads to an end leads to the end of the evaluation that consists of it. -/
theorem LeadsFrom.ends (rest : Rest ν part) {run : Run ν σ (Expr ν)}
    (h : engine.LeadsFrom 0 start run (fun result => .ended (.ok result)) rest)
    (hrest : ∀ stop (machine : Machine ν σ),
      Moment.ofStop stop rest machine = ⟨.ended (.error stop), machine⟩) (world : World ν σ) :
    ∃ moves, engine.after moves ⟨start, 0, world⟩ = (Run.execute run world).moment := by
  obtain ⟨moves, hmoves⟩ := h ⟨0, world⟩ (Nat.zero_le 0)
  rw [Moment.afterRun] at hmoves
  rw [Run.execute]
  rcases hrun : run ⟨0, world⟩ with ⟨stop | result, steps, after⟩ <;> rw [hrun] at hmoves
  · refine ⟨moves + 1, ?_⟩
    rw [after_succ, hmoves]
    exact hrest stop _
  · exact ⟨moves, hmoves⟩

theorem interpretRun_ends (engine : Engine ν σ) (program : Expr ν) (root : Scope ν)
    (world : World ν σ) : ∃ moves,
      engine.after moves ⟨.enter program root .interpreted, 0, world⟩ =
        (engine.evaluate (.interpret program root) world).moment := by
  obtain ⟨moves, hmoves⟩ := forceLoop_leads (runsClosures_interpreted engine) engine.limits.maxSteps 0
    (Nat.le_refl _) program root ⟨0, world⟩ (Nat.zero_le 0)
  refine ⟨moves + 1, ?_⟩
  rw [Moment.afterRun] at hmoves
  rw [after_succ, evaluate, run, map_eq_pure_bind, Run.execute, Run.bind_apply, interpretRun]
  rcases hrun : engine.forceLoop engine.limits.maxSteps program root ⟨0, world⟩ with
    ⟨stop | (value | method), steps, after⟩ <;> rw [hrun] at hmoves <;> rw [hmoves] <;> rfl

/-- The moves of an evaluation lead to its end. -/
theorem evaluate_reached (engine : Engine ν σ) (request : Evaluation ν) (world : World ν σ) :
    ∃ moves, engine.after moves (request.start world) =
      (engine.evaluate request world).moment := by
  cases request with
  | resolve expr scope =>
    refine LeadsFrom.ends Rest.resolved ?_ (fun _ _ => rfl) world
    rw [run, map_eq_pure_bind]
    exact (resolveTop_leads engine rfl 0 expr scope).bind fun head => LeadsFrom.single fun _ => rfl
  | force expr scope =>
    refine LeadsFrom.ends Rest.forced ?_ (fun _ _ => rfl) world
    rw [run, map_eq_pure_bind]
    exact (forceLoop_leads (runsClosures_forced engine) _ 0 (Nat.le_refl _) expr scope).bind
      fun result => LeadsFrom.single fun _ => rfl
  | apply operator arguments scope =>
    exact (applyRun_leads engine 0 operator arguments scope).ends Rest.called (fun _ _ => rfl) world
  | close items scope =>
    refine LeadsFrom.ends Rest.closed ?_ (fun _ _ => rfl) world
    rw [run, map_eq_pure_bind]
    exact (close_leads (nested_leads engine engine.limits.maxDepth) rfl items scope).bind
      fun closure => LeadsFrom.single fun _ => rfl
  | interpret program root => exact interpretRun_ends engine program root world

/-- From some move on the evaluation is over. -/
theorem evaluate_over (engine : Engine ν σ) (request : Evaluation ν) (world : World ν σ) :
    ∃ total, ∀ moves, total ≤ moves →
      engine.after moves (request.start world) = (engine.evaluate request world).moment := by
  obtain ⟨total, htotal⟩ := evaluate_reached engine request world
  refine ⟨total, fun moves hle => ?_⟩
  obtain ⟨more, rfl⟩ := Nat.exists_eq_add_of_le hle
  rw [after_add, htotal]
  exact engine.after_ended _ _ _

end Engine
end CallByNeed
