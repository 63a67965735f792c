import CallByNeed.Proofs.History.Loops
import CallByNeed.Proofs.Refinement.Evaluations

/-! # History never hurts

Whatever is done to a world, an evaluation that hits no limit before it hits none after it, reports
the same up to built identities and takes no more steps (`World.Later.evaluate_no_worse`).
-/

namespace CallByNeed
set_option autoImplicit false

open CallByName

variable {ν σ α : Type} {code : Code ν}

/-- The value that a program's result is reported as, up to built identities. -/
def Terminal.wrapped : Terminal ν → Value ν
  | .value it => it
  | .native method => ⟨.built 0, .native method⟩

namespace Engine

/-! ## The end of a program -/

section Programs

variable {engine : Engine ν σ} {program : Expr ν} {root : Scope ν} {machine after : Machine ν σ}

theorem interpretRun_of_failure {failure : Failure}
    (h : engine.forceLoop engine.limits.maxSteps program root machine =
      (.error (.failed failure), after)) :
    engine.interpretRun program root machine =
      (.error (.failed failure), ⟨after.steps, after.world.emit (.finished after.steps)⟩) := by
  rw [interpretRun, h]

/-- A native method left over becomes a value. -/
theorem interpretRun_of_result {result : Terminal ν}
    (h : engine.forceLoop engine.limits.maxSteps program root machine = (.ok result, after)) :
    ∃ value world, engine.interpretRun program root machine = (.ok value, ⟨after.steps, world⟩) ∧
      world.cells = after.world.cells ∧ value.forget = result.forget.wrapped := by
  rw [interpretRun, h]
  cases result with
  | value it => exact ⟨it, _, rfl, rfl, rfl⟩
  | native method => exact ⟨_, _, rfl, rfl, rfl⟩

/-- A program comes to an answer only if forcing it does. -/
theorem answer_of_interpretRun {answer : Except Failure (Value ν)}
    (h : answer? (engine.interpretRun program root machine).1 = some answer) :
    ∃ forced, answer? (engine.forceLoop engine.limits.maxSteps program root machine).1 =
      some forced := by
  rw [interpretRun] at h
  rcases hrun : engine.forceLoop engine.limits.maxSteps program root machine with
    ⟨stop | result, after⟩
  · rw [hrun] at h
    cases stop with
    | failed failure => exact ⟨.error failure, rfl⟩
    | outOfSteps maxSteps => cases h
    | outOfDepth maxDepth => cases h
  · exact ⟨.ok result, rfl⟩

end Programs

/-! ## Evaluations follow themselves -/

section Evaluations

variable {engine : Engine ν σ} (hnatives : engine.invoke.Computes code)
include hnatives

theorem nested_follows (levels : Nat) : Nested.Follows code (engine.nested levels) := by
  induction levels with
  | zero =>
    refine ⟨fun expr expr' scope scope' => ?_, fun position position' scope scope' => ?_⟩
    · exact Run.follows_of_cut fun machine => rfl
    · exact Run.follows_of_cut fun machine => rfl
  | succ levels ih =>
    have hmeets : Nested.Meets code (engine.nested levels) := nested_meets hnatives levels
    have hcounts : (engine.nested levels).Obeys (Law.budget ν σ engine.limits) :=
      nested_obeys engine.budget_lawful levels
    exact ⟨resolveLoop_follows hnatives ih hmeets hcounts _,
      nameLoop_follows hnatives ih hmeets _⟩

theorem resolveTop_follows (expr expr' : Expr ν) (scope scope' : Scope ν) :
    Run.Follows code .head [.next expr scope] [.next expr' scope'] (engine.resolveTop expr scope)
      (engine.resolveTop expr' scope') :=
  (nested_follows hnatives _).resolve expr expr' scope scope'

theorem forceLoop_follows (rounds : Nat) (expr expr' : Expr ν) (scope scope' : Scope ν) :
    Run.Follows code (fun result => .head (.terminal result)) [.next expr scope]
      [.next expr' scope'] (engine.forceLoop rounds expr scope)
      (engine.forceLoop rounds expr' scope') := by
  induction rounds generalizing expr expr' scope scope' with
  | zero => exact Run.follows_exhaust engine.limits
  | succ rounds ih =>
    have hmeets := nested_meets hnatives (engine.limits.maxDepth + 1)
    rw [forceLoop_succ, forceLoop_succ]
    refine (resolveTop_follows hnatives expr expr' scope scope').bind
      (Nested.Follows.keeps_resolve hmeets expr scope)
      (Nested.Follows.keeps_resolve hmeets expr' scope') fun head head' => ?_
    refine Run.Follows.of_same fun number hsame => ?_
    cases head with
    | terminal result =>
      cases head' with
      | terminal result' => exact Run.follows_pure fun number hsame => (List.cons.inj hsame).1
      | closure closure' => cases hsame
    | closure closure =>
      cases head' with
      | terminal result' => cases hsame
      | closure closure' =>
        refine Run.Follows.quiet_bind (Run.quiet_emit _) (Run.quiet_emit _) fun _ _ => ?_
        refine (ih closure.body closure'.body closure closure').of_needs ?_ ?_ ?_
        · intro number hsame
          have hclosure := (List.cons.inj hsame).1
          simp only [Result.renumber, Head.renumber, Result.head.injEq, Head.closure.injEq]
            at hclosure
          simp only [List.map_cons, List.map_nil, Result.renumber, ← Scope.renumber_body, hclosure]
        · intro world hconsistent hstored
          exact (World.StoresAll.cons hstored.head (hstored.head.body hconsistent)).append .nil
        · intro world hconsistent hstored
          exact (World.StoresAll.cons hstored.head (hstored.head.body hconsistent)).append .nil

/-- The end of a program follows itself, also where a native method is left over. -/
theorem interpretRun_follows (expr expr' : Expr ν) (scope scope' : Scope ν) :
    Run.Follows code (fun value => .head (.terminal (.value value))) [.next expr scope]
      [.next expr' scope'] (engine.interpretRun expr scope) (engine.interpretRun expr' scope') := by
  intro number first second habreast answer hanswer
  obtain ⟨forced, hleft⟩ := answer_of_interpretRun hanswer
  obtain ⟨extended, forced', hright, hagree, hextends, hknows, hsteps⟩ :=
    forceLoop_follows hnatives engine.limits.maxSteps expr expr' scope scope' number first second
      habreast forced hleft
  cases hagree with
  | error failure =>
    rw [interpretRun_of_failure (Run.eq_of_failure hleft)] at hanswer ⊢
    rw [interpretRun_of_failure (Run.eq_of_failure hright)]
    cases hanswer
    exact ⟨extended, _, rfl, .error failure, hextends, hknows.of_cells rfl rfl, hsteps⟩
  | ok hsame =>
    rename_i result result'
    obtain ⟨value, world, hrun, hcells, hvalue⟩ :=
      interpretRun_of_result (Run.eq_of_result hleft)
    obtain ⟨value', world', hrun', hcells', hvalue'⟩ :=
      interpretRun_of_result (Run.eq_of_result hright)
    rw [hrun] at hanswer ⊢
    rw [hrun']
    cases hanswer
    refine ⟨extended, _, rfl, .ok ?_, hextends, hknows.of_cells hcells hcells', hsteps⟩
    have hresult : result.forget = result'.forget := by
      simp only [Result.renumber, Head.renumber, Result.head.injEq, Head.terminal.injEq] at hsame
      exact hsame
    show Result.head (.terminal (.value value.forget)) = .head (.terminal (.value value'.forget))
    rw [hvalue, hvalue', hresult]

end Evaluations

end Engine

/-! ## Later worlds -/

namespace World

/-- The evaluation of one expression starts abreast in a world and in one that has grown from it. -/
theorem Sound.abreast {world later : World ν σ} (hsound : world.Sound code)
    (hsound' : later.Sound code) (hgrows : world.Grows later) {expr : Expr ν} {scope : Scope ν}
    (hscope : world.Stores scope) (hexpr : world.StoresAll expr.scopes) :
    Machine.Abreast code (numberBelow world.size) [.next expr scope] [.next expr scope] ⟨0, world⟩
      ⟨0, later⟩ := by
  have hstored : world.StoresAll (Result.scopesOf [.next expr scope]) :=
    (StoresAll.cons hscope hexpr).append .nil
  refine ⟨⟨fun place hplace => numberBelow_of_le hplace, ?_⟩, ⟨hsound, hsound'⟩, hstored,
    hstored.grows hgrows, ?_, Nat.le_refl _⟩
  · intro place name result other hr hother
    rw [eq_of_numberBelow hother] at hr
    exact ⟨result, hgrows.record hr, rfl⟩
  · simp only [List.map_cons, List.map_nil, Result.renumber]
    rw [renumber_numberBelow hsound hexpr, scope_renumber_numberBelow hsound hscope]

end World

namespace Evaluated

/-- A run that follows itself does not get worse in later worlds. -/
theorem no_worse {toTerminal : α → Terminal ν} {expr : Expr ν} {scope : Scope ν} {run : Run ν σ α}
    (hfollows : Run.Follows code (fun result => .head (.terminal (toTerminal result)))
      [.next expr scope] [.next expr scope] run run) {world later : World ν σ}
    {number : Nat → Nat} (habreast : Machine.Abreast code number [.next expr scope]
      [.next expr scope] ⟨0, world⟩ ⟨0, later⟩)
    (h : (Run.execute ((fun result => (toTerminal result).toExpr) <$> run) world).isCut = false) :
    let now := Run.execute ((fun result => (toTerminal result).toExpr) <$> run) world
    let last := Run.execute ((fun result => (toTerminal result).toExpr) <$> run) later
    last.isCut = false ∧ last.reported.map Expr.forget = now.reported.map Expr.forget ∧
      last.steps ≤ now.steps := by
  intro now last
  obtain ⟨answer, hanswer⟩ := answer_of_not_cut h
  obtain ⟨extended, answer', hanswer', hagree, -, -, hsteps⟩ :=
    hfollows number ⟨0, world⟩ ⟨0, later⟩ habreast answer hanswer
  obtain ⟨-, hnow, hnowSteps⟩ := execute_of_answer (fun result => (toTerminal result).toExpr) hanswer
  obtain ⟨hcut, hlast, hlastSteps⟩ :=
    execute_of_answer (fun result => (toTerminal result).toExpr) hanswer'
  refine ⟨hcut, ?_, ?_⟩
  · rw [show now.reported = _ from hnow, show last.reported = _ from hlast]
    cases hagree with
    | error failure => rfl
    | ok hsame =>
      simp only [Result.renumber, Head.renumber, Result.head.injEq, Head.terminal.injEq] at hsame
      simp only [Except.map, Terminal.forget_toExpr, hsame]
  · rw [show now.steps = _ from hnowSteps, show last.steps = _ from hlastSteps]
    exact hsteps

end Evaluated

/-- Whatever is done in between, an evaluation hits no limit if it would have hit none before, it
reports the same and takes no more steps. -/
theorem World.Later.evaluate_no_worse {invoke : Invoke ν σ} {world later : World ν σ}
    (hnatives : invoke.Computes code) (hworld : World.Reachable invoke world)
    (hlater : World.Later invoke world later) {expr : Expr ν} {scope : Scope ν}
    (hscope : world.Stores scope) (hexpr : world.StoresAll expr.scopes) (limits : Limits)
    {request : Evaluation ν}
    (hrequest : request = .force expr scope ∨ request = .interpret expr scope) :
    let now := Engine.evaluate ⟨limits, invoke⟩ request world
    let last := Engine.evaluate ⟨limits, invoke⟩ request later
    now.isCut = false →
      last.isCut = false ∧ last.reported.map Expr.forget = now.reported.map Expr.forget ∧
        last.steps ≤ now.steps := by
  intro now last hcut
  have hsound := hworld.sound hnatives
  obtain ⟨hsound', hgrows⟩ := hlater.sound hnatives hsound
  have habreast := hsound.abreast hsound' hgrows hscope hexpr
  have hengine : Invoke.Computes (Engine.invoke ⟨limits, invoke⟩) code := hnatives
  rcases hrequest with rfl | rfl
  · exact Evaluated.no_worse (Engine.forceLoop_follows hengine limits.maxSteps expr expr scope scope)
      habreast hcut
  · exact Evaluated.no_worse (Engine.interpretRun_follows hengine expr expr scope scope) habreast
      hcut

/-- A sum is forced again after it was cut short, a failure was forced and the sum was recorded. -/
theorem evaluate_no_worse_sum :
    let invoke := Standard.plainHost.invokeAt 1
    let force := fun limits name world =>
      Engine.evaluate ⟨limits, invoke⟩ (.force (.identifier name) sumAndFailure.1) world
    let cut := (force ⟨3, 4⟩ "sum" sumAndFailure.2).world
    let failed := (force ⟨20, 4⟩ "bad" cut).world
    let later := (force ⟨9, 3⟩ "sum" failed).world
    let now := force ⟨20, 4⟩ "sum" sumAndFailure.2
    let last := force ⟨20, 4⟩ "sum" later
    now.isCut = false ∧ last.isCut = false ∧
      last.reported.map Expr.forget = now.reported.map Expr.forget ∧
      last.steps ≤ now.steps ∧ last.steps = 2 := by
  intro invoke force cut failed later now last
  have hnatives : invoke.Computes Standard.plainCode := Standard.plainHost_computes 0
  have hreachable := sumAndFailure_reachable invoke
  have hsound := hreachable.sound hnatives
  have hcut : World.Proceeds invoke sumAndFailure.2 cut :=
    sumAndFailure_proceeds invoke ⟨3, 4⟩ "sum" (.refl _)
  have hfailed : World.Proceeds invoke cut failed :=
    sumAndFailure_proceeds invoke ⟨20, 4⟩ "bad" (hcut.sound hnatives hsound).2
  have hmiddle : World.Later invoke sumAndFailure.2 failed := .tail (.single hcut) hfailed
  have hlast : World.Proceeds invoke failed later :=
    sumAndFailure_proceeds invoke ⟨9, 3⟩ "sum" (hmiddle.sound hnatives hsound).2
  have hscope : sumAndFailure.2.Stores sumAndFailure.1 := rfl
  have hnow : now.isCut = false := by decide
  obtain ⟨hresult, hreported, hsteps⟩ := World.Later.evaluate_no_worse hnatives hreachable
    (hmiddle.tail hlast) hscope
    (show sumAndFailure.2.StoresAll (Expr.identifier "sum").scopes from .nil) ⟨20, 4⟩ (.inl rfl)
    hnow
  exact ⟨hnow, hresult, hreported, hsteps, by decide⟩

end CallByNeed
