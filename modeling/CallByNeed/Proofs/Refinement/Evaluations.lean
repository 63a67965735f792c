import CallByNeed.Proofs.Records.Invariant
import CallByNeed.Proofs.Refinement.Ends

/-! # The evaluator refines call by name

In every world of a session, an evaluation that hits no limit reports what call by name gives, and
whatever call by name gives is reported if the limits are large enough
(`World.Reachable.refines_callByName`). Results are compared under the numbers that the world had
given to frames before, with 0 for all frames that were made since.
-/

namespace CallByNeed
set_option autoImplicit false

open CallByName

variable {ν σ α : Type} {code : Code ν}

/-- What forcing an expression in a scope comes to, by call by name. -/
def ForcesTo (code : Code ν) (expr : Expr ν) (scope : Scope ν)
    (answer : Except Failure (Terminal ν)) : Prop :=
  ∃ trace, Forces code (expr.renumber Nat.succ) (scope.renumber Nat.succ) answer trace

theorem ForcesTo.unique {expr : Expr ν} {scope : Scope ν}
    {first second : Except Failure (Terminal ν)} (h : ForcesTo code expr scope first)
    (h' : ForcesTo code expr scope second) : first = second := by
  obtain ⟨trace, hfirst⟩ := h
  obtain ⟨more, hsecond⟩ := h'
  exact (hfirst.deterministic hsecond).1

namespace Evaluated

/-- No limit was hit, and this is reported, under other numbers for the frames. -/
def Reports (number : Nat → Nat) (evaluated : Evaluated ν σ (Expr ν))
    (answer : Except Failure (Expr ν)) : Prop :=
  evaluated.isCut = false ∧ evaluated.reported.map (Expr.renumber number) = answer

/-- What an evaluation makes of a run that comes to an answer. -/
theorem execute_of_answer (toExpr : α → Expr ν) {run : Run ν σ α} {world : World ν σ}
    {answer : Except Failure α} (h : answer? (run ⟨0, world⟩).1 = some answer) :
    let evaluated := Run.execute (toExpr <$> run) world
    evaluated.isCut = false ∧ evaluated.reported = answer.map toExpr ∧
      evaluated.steps = (run ⟨0, world⟩).2.steps := by
  rw [map_eq_pure_bind]
  unfold Run.execute
  rw [Run.bind_apply]
  cases answer with
  | error failure =>
    rw [Run.eq_of_failure h]
    exact ⟨rfl, rfl, rfl⟩
  | ok result =>
    rw [Run.eq_of_result h]
    exact ⟨rfl, rfl, rfl⟩

theorem reports_execute (toExpr : α → Expr ν) {run : Run ν σ α} {world : World ν σ}
    {answer : Except Failure α} (h : answer? (run ⟨0, world⟩).1 = some answer)
    (number : Nat → Nat) :
    (Run.execute (toExpr <$> run) world).Reports number
      (answer.map fun result => (toExpr result).renumber number) := by
  obtain ⟨hcut, hreported, -⟩ := execute_of_answer toExpr h
  refine ⟨hcut, ?_⟩
  rw [hreported]
  cases answer with
  | error failure => rfl
  | ok result => rfl

theorem answer_of_not_cut {run : Run ν σ α} {toExpr : α → Expr ν} {world : World ν σ}
    (h : (Run.execute (toExpr <$> run) world).isCut = false) :
    ∃ answer, answer? (run ⟨0, world⟩).1 = some answer := by
  rw [map_eq_pure_bind] at h
  unfold Run.execute at h
  rw [Run.bind_apply] at h
  rcases hrun : run ⟨0, world⟩ with ⟨stop | result, after⟩
  · rw [hrun] at h
    cases stop with
    | failed failure => exact ⟨.error failure, rfl⟩
    | outOfSteps maxSteps => cases h
    | outOfDepth maxDepth => cases h
  · exact ⟨.ok result, rfl⟩

end Evaluated

/-! ## Answers of runs -/

section Answers

variable {world : World ν σ} {expr : Expr ν} {scope : Scope ν} {engine : Engine ν σ}
  (hnatives : engine.invoke.Computes code) (hsound : world.Sound code)
  (hscope : world.Stores scope) (hexpr : world.StoresAll expr.scopes)
include hsound hscope hexpr

theorem ready_numberBelow (steps : Nat) :
    Machine.Ready code (numberBelow world.size) (scope :: expr.scopes) ⟨steps, world⟩ :=
  ⟨hsound, .cons hscope hexpr, fun _ hplace => numberBelow_of_le hplace⟩

omit hscope in
theorem renumber_numberBelow :
    expr.renumber (numberBelow world.size) = expr.renumber Nat.succ :=
  hsound.consistent.renumber_congr_expr (fun _ hless => numberBelow_of_lt hless) hexpr

omit hexpr in
theorem scope_renumber_numberBelow :
    scope.renumber (numberBelow world.size) = scope.renumber Nat.succ :=
  hsound.consistent.renumber_congr (fun _ hless => numberBelow_of_lt hless) hscope

include hnatives

/-- The answer of a resolution is what call by name gives. -/
theorem evaluatesTo_of_answer {answer : Except Failure (Head ν)}
    (h : answer? (engine.resolveTop expr scope ⟨0, world⟩).1 = some answer) :
    EvaluatesTo code expr scope
      (Goal.resultOf .head (answer.map (Head.renumber (numberBelow world.size)))) := by
  have hreached := Engine.resolveTop_meets hnatives expr scope ⟨0, world⟩ hsound
    (.cons hscope hexpr)
  obtain ⟨trace, hderives, -⟩ := hreached.goal h (numberBelow world.size)
    fun _ hplace => numberBelow_of_le hplace
  simp only [Goal.derives, Demand.renumber] at hderives
  rw [renumber_numberBelow hsound hexpr, scope_renumber_numberBelow hsound hscope] at hderives
  refine ⟨trace, ?_⟩
  cases answer <;> exact hderives

theorem forcesTo_of_answer {rounds : Nat} {answer : Except Failure (Terminal ν)}
    (h : answer? (engine.forceLoop rounds expr scope ⟨0, world⟩).1 = some answer) :
    ForcesTo code expr scope (answer.map Terminal.forget) := by
  have hreached := Engine.forceLoop_meets hnatives rounds expr scope ⟨0, world⟩ hsound
    (.cons hscope hexpr)
  obtain ⟨trace, hforces, -⟩ := hreached.goal h (numberBelow world.size)
    fun _ hplace => numberBelow_of_le hplace
  simp only [Engine.forces] at hforces
  rw [renumber_numberBelow hsound hexpr, scope_renumber_numberBelow hsound hscope] at hforces
  exact ⟨trace, hforces⟩

end Answers

/-! ## Refinement -/

theorem Goal.resultOf_head_injective {first second : Except Failure (Head ν)}
    (h : (resultOf .head first : Result ν) = resultOf .head second) : first = second := by
  cases first with
  | error failure =>
    cases second with
    | error other =>
      cases h
      rfl
    | ok head => cases h
  | ok head =>
    cases second with
    | error other => cases h
    | ok other =>
      cases h
      rfl

section Refinement

variable {invoke : Invoke ν σ} {world : World ν σ} {expr : Expr ν} {scope : Scope ν}
  (hnatives : invoke.Computes code) (hsound : world.Sound code)
  (hscope : world.Stores scope) (hexpr : world.StoresAll expr.scopes)
include hnatives hsound hscope hexpr

theorem resolve_sound {limits : Limits} {answer : Except Failure (Head ν)}
    (h : answer? (Engine.resolveTop ⟨limits, invoke⟩ expr scope ⟨0, world⟩).1 = some answer) :
    ∃ expected, EvaluatesTo code expr scope (Goal.resultOf .head expected) ∧
      (Engine.evaluate ⟨limits, invoke⟩ (.resolve expr scope) world).Reports
        (numberBelow world.size) (expected.map Head.toExpr) := by
  refine ⟨_, evaluatesTo_of_answer hnatives hsound hscope hexpr h, ?_⟩
  have hreports := Evaluated.reports_execute Head.toExpr h (numberBelow world.size)
  cases answer with
  | error failure => exact hreports
  | ok head =>
    simp only [Except.map, ← Head.toExpr_renumber] at hreports
    exact hreports

theorem resolve_complete {answer : Except Failure (Head ν)}
    (h : EvaluatesTo code expr scope (Goal.resultOf .head answer)) :
    ∃ maxSteps maxDepth, ∀ limits : Limits, maxSteps ≤ limits.maxSteps →
      maxDepth ≤ limits.maxDepth →
      (Engine.evaluate ⟨limits, invoke⟩ (.resolve expr scope) world).Reports
        (numberBelow world.size) (answer.map Head.toExpr) := by
  obtain ⟨trace, hderives⟩ := h
  obtain ⟨most, depth, hends⟩ := hderives.ends hnatives
  refine ⟨most, depth, fun limits hsteps hdepth => ?_⟩
  have hrun : (Engine.resolveTop ⟨limits, invoke⟩ expr scope).Ends most ⟨0, world⟩ :=
    Engine.nestedLoop_ends .head hends (show depth + 1 ≤ limits.maxDepth + 1 by omega)
      (by show 0 + most ≤ _; omega) (renumber_numberBelow hsound hexpr)
      (scope_renumber_numberBelow hsound hscope) (ready_numberBelow hsound hscope hexpr 0)
  obtain ⟨found, hfound⟩ := Option.isSome_iff_exists.1 hrun.answers
  obtain ⟨expected, hexpected, hreports⟩ := resolve_sound hnatives hsound hscope hexpr hfound
  have hsame := Goal.resultOf_head_injective
    (EvaluatesTo.unique ⟨trace, hderives⟩ hexpected)
  rw [hsame]
  exact hreports

theorem force_sound {limits : Limits} {answer : Except Failure (Terminal ν)}
    (h : answer? (Engine.forceLoop ⟨limits, invoke⟩ limits.maxSteps expr scope ⟨0, world⟩).1 =
      some answer) :
    ∃ expected, ForcesTo code expr scope expected ∧
      (Engine.evaluate ⟨limits, invoke⟩ (.force expr scope) world).Reports
        (numberBelow world.size) (expected.map Terminal.toExpr) := by
  refine ⟨_, forcesTo_of_answer hnatives hsound hscope hexpr h, ?_⟩
  have hreports := Evaluated.reports_execute Terminal.toExpr h (numberBelow world.size)
  cases answer with
  | error failure => exact hreports
  | ok result =>
    simp only [Except.map, Terminal.renumber_toExpr] at hreports
    exact hreports

theorem force_complete {answer : Except Failure (Terminal ν)}
    (h : ForcesTo code expr scope answer) :
    ∃ maxSteps maxDepth, ∀ limits : Limits, maxSteps ≤ limits.maxSteps →
      maxDepth ≤ limits.maxDepth →
      (Engine.evaluate ⟨limits, invoke⟩ (.force expr scope) world).Reports
        (numberBelow world.size) (answer.map Terminal.toExpr) := by
  obtain ⟨trace, hforces⟩ := h
  obtain ⟨most, depth, hends⟩ := hforces.ends hnatives
  refine ⟨most, depth, fun limits hsteps hdepth => ?_⟩
  have hrun := hends limits limits.maxSteps (numberBelow world.size) ⟨0, world⟩ expr scope hdepth
    hsteps (by show 0 + most ≤ _; omega) (renumber_numberBelow hsound hexpr)
    (scope_renumber_numberBelow hsound hscope) (ready_numberBelow hsound hscope hexpr 0)
  obtain ⟨found, hfound⟩ := Option.isSome_iff_exists.1 hrun.answers
  obtain ⟨expected, hexpected, hreports⟩ := force_sound hnatives hsound hscope hexpr hfound
  rw [ForcesTo.unique ⟨trace, hforces⟩ hexpected]
  exact hreports

end Refinement

/-- Evaluations that hit no limit report what call by name gives, and what call by name gives is
reported by all evaluations with large enough limits. -/
theorem World.Reachable.refines_callByName {invoke : Invoke ν σ} {world : World ν σ}
    (hnatives : invoke.Computes code) (h : World.Reachable invoke world) {expr : Expr ν}
    {scope : Scope ν} (hscope : world.Stores scope) (hexpr : world.StoresAll expr.scopes) :
    let number := numberBelow world.size
    let resolved := fun limits => Engine.evaluate ⟨limits, invoke⟩ (.resolve expr scope) world
    let forced := fun limits => Engine.evaluate ⟨limits, invoke⟩ (.force expr scope) world
    (∀ limits, (resolved limits).isCut = false →
      ∃ answer, EvaluatesTo code expr scope (Goal.resultOf .head answer) ∧
        (resolved limits).Reports number (answer.map Head.toExpr)) ∧
    (∀ answer, EvaluatesTo code expr scope (Goal.resultOf .head answer) →
      ∃ maxSteps maxDepth, ∀ limits : Limits, maxSteps ≤ limits.maxSteps →
        maxDepth ≤ limits.maxDepth →
        (resolved limits).Reports number (answer.map Head.toExpr)) ∧
    (∀ limits, (forced limits).isCut = false →
      ∃ answer, ForcesTo code expr scope answer ∧
        (forced limits).Reports number (answer.map Terminal.toExpr)) ∧
    ∀ answer, ForcesTo code expr scope answer →
      ∃ maxSteps maxDepth, ∀ limits : Limits, maxSteps ≤ limits.maxSteps →
        maxDepth ≤ limits.maxDepth →
        (forced limits).Reports number (answer.map Terminal.toExpr) := by
  intro number resolved forced
  have hsound := h.sound hnatives
  refine ⟨fun limits hcut => ?_, fun answer => resolve_complete hnatives hsound hscope hexpr,
    fun limits hcut => ?_, fun answer => force_complete hnatives hsound hscope hexpr⟩
  · obtain ⟨answer, hanswer⟩ := Evaluated.answer_of_not_cut hcut
    exact resolve_sound hnatives hsound hscope hexpr hanswer
  · obtain ⟨answer, hanswer⟩ := Evaluated.answer_of_not_cut hcut
    exact force_sound hnatives hsound hscope hexpr hanswer

/-- A sum that is recorded already is forced once more. -/
theorem refines_callByName_sum :
    let invoke := Standard.plainHost.invokeAt 1
    let forced := fun limits world =>
      Engine.evaluate ⟨limits, invoke⟩ (.force (.identifier "sum") sumAndFailure.1) world
    let world := (forced ⟨20, 4⟩ sumAndFailure.2).world
    let three := Terminal.value ⟨.built 0, .integer .i64 3⟩
    (world.recordAt 0 "sum").isSome ∧
      ForcesTo Standard.plainCode (.identifier "sum") sumAndFailure.1 (.ok three) ∧
      ∃ maxSteps maxDepth, ∀ limits : Limits, maxSteps ≤ limits.maxSteps →
        maxDepth ≤ limits.maxDepth →
        (forced limits world).Reports (numberBelow world.size) (.ok three.toExpr) := by
  intro invoke forced world three
  have hnatives : invoke.Computes Standard.plainCode := Standard.plainHost_computes 0
  obtain ⟨host, hmade⟩ := sumAndFailure_reachable invoke
  have hreachable : World.Reachable invoke world :=
    ⟨host, hmade.tail (sumAndFailure_proceeds invoke ⟨20, 4⟩ "sum" (.refl _))⟩
  have hscope : world.Stores sumAndFailure.1 := rfl
  obtain ⟨-, -, hsound, hcomplete⟩ := hreachable.refines_callByName hnatives hscope
    (show world.StoresAll (Expr.identifier "sum").scopes from .nil)
  obtain ⟨answer, hforces, -, hanswer⟩ := hsound ⟨20, 4⟩ (by decide)
  have hthree : answer = .ok three := by
    have hreported : (forced ⟨20, 4⟩ world).reported.map
        (Expr.renumber (numberBelow world.size)) = .ok three.toExpr := rfl
    rw [hreported] at hanswer
    rcases answer with failure | (value | method)
    · cases hanswer
    · cases hanswer
      rfl
    · cases hanswer
  subst hthree
  exact ⟨by decide, hforces, hcomplete _ hforces⟩

end CallByNeed
