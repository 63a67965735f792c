import CallByNeed.Proofs.Deferral.Simulation
import CallByNeed.Proofs.Refinement.Evaluations

/-! # Applying agrees with resolving

The engine can apply an operator to arguments as they are, or resolve an application, which resolves
the arguments first. If the arguments suit the operator, forcing what applying gives and forcing the
application come to the same, in whatever later worlds of a session they are forced
(`World.Reachable.apply_agrees`).
-/

namespace CallByNeed
set_option autoImplicit false

open CallByName

variable {ν σ : Type} {code : Code ν}

/-- The arguments that an operator with this head can be applied to, deferred or not. -/
def Head.Suits (resolves : Expr ν → Prop) : Head ν → Expr ν → Prop
  | .terminal (.value _), argument => argument.failure? = none
  | .terminal (.native _), argument => argument.IsWeakHead
  | .closure _, argument => resolves argument

theorem Expr.IsWeakHead.failure?_eq_none {expr : Expr ν} (h : expr.IsWeakHead) :
    expr.failure? = none := by
  cases expr with
  | failure failure => exact absurd h not_false
  | _ => rfl

theorem Expr.IsWeakHead.renumber {expr : Expr ν} (h : expr.IsWeakHead) (number : Nat → Nat) :
    (expr.renumber number).IsWeakHead := by
  cases expr with
  | value it => trivial
  | native method => trivial
  | scope frame => exact (frame.renumber_kind number).trans h
  | _ => exact absurd h not_false

theorem Expr.failure?_renumber (number : Nat → Nat) (expr : Expr ν) :
    (expr.renumber number).failure? = expr.failure? := by
  cases expr <;> rfl

/-- What an answer stands for. -/
def answered : Except Failure (Expr ν) → Expr ν
  | .ok result => result
  | .error failure => .failure failure

namespace CallByName

variable {operator : Expr ν} {arguments : List (Expr ν)} {scope : Scope ν}

/-! ## Call by name -/

/-- Some head is what the expression evaluates to. -/
def Derives.Succeeds (code : Code ν) (scope : Scope ν) (expr : Expr ν) : Prop :=
  ∃ head trace, Derives code (.evaluate expr scope) (.head head) trace

/-- All heads that are derived fit. -/
theorem Derives.fits {demand : Demand ν} {result : Result ν} {trace : Trace ν}
    (h : Derives code demand result trace) {head : Head ν} (hresult : result = .head head) :
    head.Fits := by
  induction h generalizing head with
  | closure scope hkind =>
    cases hresult
    exact hkind
  | identifier _ _ ih => exact ih hresult
  | head _ ih => exact ih hresult
  | next _ _ _ ih => exact ih hresult
  | nextName _ _ _ ih => exact ih hresult
  | lambda | value | native | plainValue =>
    cases hresult
    trivial
  | _ => cases hresult

/-- The frame of a call is evaluated as its body. -/
theorem Derives.of_call {inner : Scope ν} (hkind : inner.kind = .call) {result : Result ν}
    {trace : Trace ν} (h : Derives code (.evaluate (.scope inner) scope) result trace) :
    Derives code (.evaluate inner.body inner) result trace := by
  refine h.of_next ?_
  rw [reduct?, hkind]

theorem Forces.of_call {inner : Scope ν} (hkind : inner.kind = .call)
    {answer : Except Failure (Terminal ν)} {trace : Trace ν}
    (h : Forces code (.scope inner) scope answer trace) :
    Forces code inner.body inner answer trace := by
  cases h with
  | fails heval => exact .fails (heval.of_call hkind)
  | terminal heval => exact .terminal (heval.of_call hkind)
  | closure heval hbody => exact .closure (heval.of_call hkind) hbody

/-- What an expression is reduced to can be forced in its place. -/
theorem Forces.of_next {expr next : Expr ν} {inner : Scope ν}
    {answer : Except Failure (Terminal ν)} {trace more : Trace ν}
    (hreduce : Derives code (.reduce expr scope) (.next next inner) trace)
    (h : Forces code next inner answer more) : Forces code expr scope answer (trace ++ more) := by
  cases h with
  | fails heval => exact .fails (.next hreduce heval)
  | terminal heval => exact .terminal (.next hreduce heval)
  | closure heval hbody =>
    rw [← List.append_assoc]
    exact .closure (.next hreduce heval) hbody

theorem not_succeeds_failure {failure : Failure} :
    ¬Derives.Succeeds code scope (.failure failure) := by
  rintro ⟨head, trace, h⟩
  cases h with
  | head hreduce => cases hreduce
  | next hreduce _ => cases hreduce

/-- Weak head forms are evaluated already. -/
theorem evaluatesAll_heads (code : Code ν) (scope : Scope ν)
    (h : ∀ argument ∈ arguments, argument.IsWeakHead) :
    Derives code (.evaluateAll arguments scope) (.heads arguments) [] := by
  induction arguments with
  | nil => exact .noArgument scope
  | cons argument rest ih =>
    obtain ⟨head, rfl, hfits⟩ := (h argument List.mem_cons_self).head
    exact .arguments (.head (reduces_head code hfits scope))
      (ih fun other hm => h other (List.mem_cons_of_mem _ hm))

/-- Arguments that all evaluate to heads are settled by these. -/
theorem evaluatesAll_settles (h : ∀ argument ∈ arguments, Derives.Succeeds code scope argument) :
    ∃ heads trace, Derives code (.evaluateAll arguments scope) (.heads heads) trace ∧
      List.Forall₂ (Settles code scope) arguments heads := by
  induction arguments with
  | nil => exact ⟨[], [], .noArgument scope, .nil⟩
  | cons argument rest ih =>
    obtain ⟨head, trace, hhead⟩ := h argument List.mem_cons_self
    obtain ⟨heads, more, hrest, hsettles⟩ := ih fun other hm => h other (List.mem_cons_of_mem _ hm)
    exact ⟨head.toExpr :: heads, trace ++ more, .arguments hhead hrest,
      .cons ⟨head, rfl, hhead.fits rfl, trace, hhead⟩ hsettles⟩

/-- Arguments that suit an operator are no failures. -/
theorem suits_failure?_eq_none {head : Head ν} {argument : Expr ν}
    (h : head.Suits (Derives.Succeeds code scope) argument) : argument.failure? = none := by
  rcases head with (it | method) | closure
  · exact h
  · exact Expr.IsWeakHead.failure?_eq_none h
  · cases argument with
    | failure failure => exact absurd h not_succeeds_failure
    | _ => rfl

/-- Applying an operator to arguments that suit it and forcing the result is forcing the
application. -/
theorem Applies.forces (huniform : code.Uniform) {applied : Except Failure (Expr ν)}
    (h : Applies code operator arguments scope applied)
    (hsuits : ∀ head trace, Derives code (.evaluate operator scope) (.head head) trace →
      ∀ argument ∈ arguments, head.Suits (Derives.Succeeds code scope) argument)
    {answer : Except Failure (Terminal ν)} {trace : Trace ν}
    (hforced : Forces code (answered applied) scope answer trace) :
    ∃ answer' trace', Forces code (.application operator arguments) scope answer' trace' ∧
      answer.map Terminal.forget = answer'.map Terminal.forget := by
  cases h with
  | operatorFails hoperator =>
    obtain ⟨rfl, -⟩ := hforced.deterministic (.fails (.fails (.failure _ scope)))
    exact ⟨_, _, .fails (.fails (.operatorFails arguments hoperator)), rfl⟩
  | argumentFails hoperator hfails =>
    obtain ⟨argument, hm, hfailure⟩ := List.exists_of_findSome?_eq_some hfails
    rw [suits_failure?_eq_none (hsuits _ _ hoperator argument hm)] at hfailure
    cases hfailure
  | plainValue hoperator _ =>
    obtain ⟨rfl, -⟩ := hforced.deterministic (.terminal (.head (.value _ scope)))
    exact ⟨_, _, .terminal (.head (.plainValue arguments hoperator)), rfl⟩
  | nativeCall hoperator _ =>
    have hall := evaluatesAll_heads code scope (hsuits _ _ hoperator)
    exact ⟨answer, _, .of_next (.nativeCall hoperator hall) hforced, rfl⟩
  | @closureCall closure first hoperator _ =>
    obtain ⟨heads, more, hall, hsettles⟩ := evaluatesAll_settles (hsuits _ _ hoperator)
    have hcall : (calledFrame closure arguments scope).kind = .call := rfl
    -- The body is forced with the arguments deferred as they are, or as the heads they come to.
    obtain ⟨answer', trace', hbody, hanswer⟩ := (hforced.of_call hcall).settled huniform
      (Expr.over_refl .same _) (.settles closure scope hsettles)
    exact ⟨answer', _, .of_next (.closureCall hoperator hall) hbody, hanswer⟩

end CallByName

/-! ## Evaluations -/

/-- The expression resolves in this scope without failure, if the limits are large enough. -/
def World.Resolves (invoke : Invoke ν σ) (world : World ν σ) (scope : Scope ν) (expr : Expr ν) :
    Prop :=
  ∃ limits result,
    (Engine.evaluate ⟨limits, invoke⟩ (.resolve expr scope) world).reported = .ok result

theorem Evaluated.answer_of_reported {α : Type} {run : Run ν σ α} {toExpr : α → Expr ν}
    {world : World ν σ} {result : Expr ν}
    (h : (Run.execute (toExpr <$> run) world).reported = .ok result) :
    ∃ value, answer? (run ⟨0, world⟩).1 = some (.ok value) := by
  rw [map_eq_pure_bind] at h
  unfold Run.execute at h
  rw [Run.bind_apply] at h
  rcases hrun : run ⟨0, world⟩ with ⟨stop | value, after⟩
  · rw [hrun] at h
    cases h
  · exact ⟨value, rfl⟩

section Answers

variable {limits : Limits} {invoke : Invoke ν σ} (hnatives : invoke.Computes code)
  {world : World ν σ} (hsound : world.Sound code) {number : Nat → Nat}
  (hnumber : ∀ place, world.size ≤ place → number place = 0) {expr : Expr ν} {scope : Scope ν}
  (hrequest : world.StoresAll (scope :: expr.scopes))
include hnatives hsound hnumber hrequest

theorem derives_of_answer {answer : Except Failure (Head ν)}
    (h : answer? (Engine.resolveTop ⟨limits, invoke⟩ expr scope ⟨0, world⟩).1 = some answer) :
    ∃ trace, Derives code (.evaluate (expr.renumber number) (scope.renumber number))
      ((Goal.resultOf .head answer).renumber number) trace := by
  have hengine : Invoke.Computes (Engine.invoke ⟨limits, invoke⟩) code := hnatives
  have hreached := Engine.resolveTop_meets hengine expr scope ⟨0, world⟩ hsound hrequest
  obtain ⟨trace, hderives, -⟩ := hreached.goal h number hnumber
  exact ⟨trace, hderives⟩

/-- A forced expression that hits no limit reports what call by name gives. -/
theorem forces_of_not_cut
    (h : (Engine.evaluate ⟨limits, invoke⟩ (.force expr scope) world).isCut = false) :
    ∃ (answer : Except Failure (Terminal ν)) (trace : Trace ν),
      Forces code (expr.renumber number) (scope.renumber number) (answer.map Terminal.forget)
          trace ∧
        (Engine.evaluate ⟨limits, invoke⟩ (.force expr scope) world).reported =
          answer.map Terminal.toExpr := by
  have hengine : Invoke.Computes (Engine.invoke ⟨limits, invoke⟩) code := hnatives
  obtain ⟨answer, hanswer⟩ := Evaluated.answer_of_not_cut h
  obtain ⟨-, hreported, -⟩ := Evaluated.execute_of_answer Terminal.toExpr hanswer
  have hreached := Engine.forceLoop_meets hengine limits.maxSteps expr scope ⟨0, world⟩ hsound
    hrequest
  obtain ⟨trace, hforces, -⟩ := hreached.goal hanswer number hnumber
  exact ⟨answer, trace, hforces, hreported⟩

end Answers

section Suits

variable {invoke : Invoke ν σ} (hnatives : invoke.Computes code) {world : World ν σ}
  (hsound : world.Sound code) {number : Nat → Nat}
  (hnumber : ∀ place, world.size ≤ place → number place = 0) {scope : Scope ν}
include hnatives hsound hnumber

/-- What resolves in a world evaluates to a head by call by name. -/
theorem World.Resolves.succeeds {expr : Expr ν} (hrequest : world.StoresAll (scope :: expr.scopes))
    (h : world.Resolves invoke scope expr) :
    Derives.Succeeds code (scope.renumber number) (expr.renumber number) := by
  obtain ⟨limits, result, hreported⟩ := h
  obtain ⟨head, hhead⟩ := Evaluated.answer_of_reported hreported
  obtain ⟨trace, hderives⟩ := derives_of_answer hnatives hsound hnumber hrequest hhead
  exact ⟨_, trace, hderives⟩

/-- Arguments that suit an operator suit it by call by name. -/
theorem Head.Suits.renumber {head : Head ν} {argument : Expr ν}
    (hrequest : world.StoresAll (scope :: argument.scopes))
    (h : head.Suits (world.Resolves invoke scope) argument) :
    (head.renumber number).Suits (Derives.Succeeds code (scope.renumber number))
      (argument.renumber number) := by
  rcases head with (it | method) | closure
  · exact (argument.failure?_renumber number).trans h
  · exact Expr.IsWeakHead.renumber h number
  · exact World.Resolves.succeeds hnatives hsound hnumber hrequest h

end Suits

/-- If applying comes to an answer, so does resolving the operator, and arguments that suit what it
resolves to suit what it evaluates to. -/
theorem suits_of_answer {limits : Limits} {invoke : Invoke ν σ} (hnatives : invoke.Computes code)
    {world : World ν σ} (hsound : world.Sound code) {number : Nat → Nat}
    (hnumber : ∀ place, world.size ≤ place → number place = 0) {operator : Expr ν}
    {arguments : List (Expr ν)} {scope : Scope ν}
    (hrequest : world.StoresAll (Evaluation.apply operator arguments scope).scopes)
    (hsuits : ∀ head : Head ν,
      (Engine.evaluate ⟨limits, invoke⟩ (.resolve operator scope) world).reported =
        .ok head.toExpr →
      ∀ argument ∈ arguments, head.Suits (world.Resolves invoke scope) argument)
    {answer : Except Failure (Expr ν)}
    (h : answer? (Engine.applyRun ⟨limits, invoke⟩ operator arguments scope ⟨0, world⟩).1 =
      some answer) {head : Head ν} {trace : Trace ν}
    (hhead : Derives code (.evaluate (operator.renumber number) (scope.renumber number))
      (.head head) trace) :
    ∀ argument ∈ arguments.map (Expr.renumber number),
      head.Suits (Derives.Succeeds code (scope.renumber number)) argument := by
  have hderives {found : Except Failure (Head ν)}
      (hfound : answer? (Engine.resolveTop ⟨limits, invoke⟩ operator scope ⟨0, world⟩).1 =
        some found) := derives_of_answer hnatives hsound hnumber
      (.cons hrequest.head hrequest.tail.left) hfound
  rcases Run.answer_of_bind h with ⟨failure, -, hfails⟩ | ⟨found, hfound, -⟩
  · obtain ⟨more, hfailed⟩ := hderives hfails
    cases (hhead.deterministic hfailed).1
  · obtain ⟨more, hresolved⟩ := hderives hfound
    cases (hhead.deterministic hresolved).1
    have hreported := (Evaluated.execute_of_answer Head.toExpr hfound).2.1
    intro argument hm
    obtain ⟨own, hown, rfl⟩ := List.mem_map.1 hm
    have hstored : world.StoresAll own.scopes :=
      hrequest.tail.right.subset fun inner hinner => mem_scopesAll.2 ⟨own, hown, hinner⟩
    exact (hsuits found hreported own hown).renumber hnatives hsound hnumber
      (.cons hrequest.head hstored)

/-- What an answer is reported as is under other numbers what the answer is. -/
theorem answered_renumber (number : Nat → Nat) (answer : Except Failure (Expr ν)) :
    (answered answer).renumber number = answered (answer.map (Expr.renumber number)) := by
  cases answer <;> rfl

/-- A reported result is what its terminal is up to identities. -/
theorem forget_reported (answer : Except Failure (Terminal ν)) :
    (answer.map Terminal.toExpr).map Expr.forget =
      ((answer.map Terminal.forget).map Terminal.forget).map Terminal.toExpr := by
  cases answer with
  | error failure => rfl
  | ok result => simp only [Except.map, Terminal.forget_forget, Terminal.forget_toExpr]

/-- Applying an operator to arguments that suit it and forcing what that gives agrees with forcing
the application, in all later worlds of a session, if no limit is hit. An operator that resolves to
a native method takes weak head forms, one that resolves to a closure takes whatever resolves, and
one that resolves to a value takes all but failures. -/
theorem World.Reachable.apply_agrees {invoke : Invoke ν σ} (hnatives : invoke.Computes code)
    {world : World ν σ} (h : World.Reachable invoke world) {operator : Expr ν}
    {arguments : List (Expr ν)} {scope : Scope ν}
    (hrequest : world.StoresAll (Evaluation.apply operator arguments scope).scopes)
    {limits : Limits}
    (hsuits : ∀ head : Head ν,
      (Engine.evaluate ⟨limits, invoke⟩ (.resolve operator scope) world).reported =
        .ok head.toExpr →
      ∀ argument ∈ arguments, head.Suits (world.Resolves invoke scope) argument) :
    let applied := Engine.evaluate ⟨limits, invoke⟩ (.apply operator arguments scope) world
    applied.isCut = false → ∀ {first second : World ν σ}, World.Later invoke applied.world first →
      World.Later invoke world second → ∀ limits limits' : Limits,
        let forced := Engine.evaluate ⟨limits, invoke⟩ (.force applied.result scope) first
        let direct :=
          Engine.evaluate ⟨limits', invoke⟩ (.force (.application operator arguments) scope) second
        forced.isCut = false → direct.isCut = false →
          forced.reported.map Expr.forget = direct.reported.map Expr.forget := by
  intro applied hcut first second hfirst hsecond limits₁ limits₂ forced direct hforced hdirect
  have hsound := h.sound hnatives
  have hscope : world.Stores scope := hrequest.head
  have hnumber (place : Nat) (hplace : world.size ≤ place) := numberBelow_of_le hplace
  have hrun : applied =
      Run.execute (id <$> Engine.applyRun ⟨limits, invoke⟩ operator arguments scope) world := by
    rw [id_map]
    rfl
  rw [hrun] at hcut
  obtain ⟨answer, hanswer⟩ := Evaluated.answer_of_not_cut hcut
  have hresult : applied.result = answered answer := by
    rw [hrun, Evaluated.result, (Evaluated.execute_of_answer id hanswer).2.1]
    cases answer <;> rfl
  have hengine : Invoke.Computes (Engine.invoke ⟨limits, invoke⟩) code := hnatives
  have hreached : Reached code _ _ world _ applied.world :=
    Engine.applyRun_meets hengine operator arguments scope ⟨0, world⟩ hsound hrequest
  obtain ⟨trace, happlies, -⟩ := hreached.goal hanswer (numberBelow world.size) hnumber
  have hstored : applied.world.StoresAll applied.result.scopes := by
    rw [hresult]
    cases answer with
    | error failure => exact .nil
    | ok result => exact hreached.stored (congrArg Prod.fst (Run.eq_of_result hanswer))
  -- The result is forced where all that the application has made has the number 0.
  obtain ⟨hsound₁, hgrows₁⟩ := hfirst.sound hnatives hreached.sound
  have hgrows := hreached.grows.trans hgrows₁
  obtain ⟨answer₁, trace₁, hforces₁, hreported₁⟩ := forces_of_not_cut hnatives hsound₁
    (fun place hplace => hnumber place (Nat.le_trans hgrows.size hplace))
    (.cons (hscope.grows hgrows) (hstored.grows hgrows₁)) hforced
  obtain ⟨hsound₂, hgrows₂⟩ := hsecond.sound hnatives hsound
  have happlication : world.StoresAll (Expr.application operator arguments).scopes := hrequest.tail
  obtain ⟨answer₂, trace₂, hforces₂, hreported₂⟩ := forces_of_not_cut hnatives hsound₂
    (fun place hplace => hnumber place (Nat.le_trans hgrows₂.size hplace))
    (.cons (hscope.grows hgrows₂) (happlication.grows hgrows₂)) hdirect
  rw [hresult, answered_renumber] at hforces₁
  obtain ⟨answer', trace', hforces, hsame⟩ := Applies.forces hnatives.uniform happlies
    (fun head trace => suits_of_answer hnatives hsound hnumber hrequest hsuits hanswer) hforces₁
  rw [Expr.renumber, renumberAll_eq_map] at hforces₂
  obtain ⟨rfl, -⟩ := hforces.deterministic hforces₂
  rw [hreported₁, hreported₂, forget_reported, forget_reported, hsame]

/-- A sum is deferred twice in a call that adds its argument to itself, or resolved once before it. -/
theorem apply_agrees_double :
    let engine : Engine StandardNative HostState := ⟨⟨20, 4⟩, Standard.plainHost.invokeAt 1⟩
    let double : Expr StandardNative :=
      .lambda [.bare (.application (.native ⟨"add", .add⟩) [.identifier "$0", .identifier "$0"])]
    let applied :=
      engine.evaluate (.apply double [.identifier "sum"] sumAndFailure.1) sumAndFailure.2
    let forced := engine.evaluate (.force applied.result sumAndFailure.1) applied.world
    let direct := engine.evaluate
      (.force (.application double [.identifier "sum"]) sumAndFailure.1) sumAndFailure.2
    applied.isCut = false ∧ forced.isCut = false ∧ direct.isCut = false ∧
      forced.reported.map Expr.forget = direct.reported.map Expr.forget := by
  intro engine double applied forced direct
  have hnatives : Invoke.Computes engine.invoke Standard.plainCode := Standard.plainHost_computes 0
  have hroot : sumAndFailure.2.Stores sumAndFailure.1 := rfl
  have happlied : applied.isCut = false := by decide +kernel
  have hforced : forced.isCut = false := by decide +kernel
  have hdirect : direct.isCut = false := by decide +kernel
  refine ⟨happlied, hforced, hdirect, ?_⟩
  refine (sumAndFailure_reachable engine.invoke).apply_agrees hnatives (.cons hroot .nil)
    (fun head hhead argument hm => ?_) happlied .refl .refl ⟨20, 4⟩ ⟨20, 4⟩ hforced hdirect
  obtain ⟨frame, hframe⟩ : ∃ frame, (engine.evaluate (.resolve double sumAndFailure.1)
      sumAndFailure.2).reported = .ok (.scope frame) := ⟨_, rfl⟩
  have hclosure := Except.ok.inj (hframe.symm.trans hhead)
  rcases head with (it | method) | closure
  · cases hclosure
  · cases hclosure
  · cases List.mem_singleton.1 hm
    exact ⟨⟨20, 4⟩, _, rfl⟩

end CallByNeed
