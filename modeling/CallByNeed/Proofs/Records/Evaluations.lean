import CallByNeed.Proofs.Records.Reducer

/-! # Evaluations meet call by name

Resolving, naming and forcing meet call by name from every sound world, whatever the limits, and
every evaluation leaves a sound world, also one that fails or hits a limit
(`Engine.evaluate_sound`). So all worlds that a host's operations lead to are sound
(`World.Later.sound`).
-/

namespace CallByNeed
set_option autoImplicit false

open CallByName

variable {ν σ : Type} {code : Code ν}

/-! ## Identifiers -/

namespace World

variable {before middle after : World ν σ} {scope owner : Scope ν} {name : String}
  {bound : Expr ν}

/-- After the resolution of what an identifier is bound to, its result is recorded. -/
theorem Reached.record {head : Head ν} (steps : Nat)
    (hreached : Reached code (.derives code (.evaluate bound owner) .head) Head.scopes before
      (.ok head) middle)
    (hbefore : before.Consistent) (howner : before.Stores owner)
    (hbound : before.StoresAll bound.scopes)
    (hfind : scope.find name = .ok (bound, owner))
    (hself : owner.find name = .ok (bound, owner)) :
    Reached code (.derives code (.evaluate (.identifier name) scope) .head) Head.scopes before
      (.ok head) (Run.record head [(owner, name)] ⟨steps, middle⟩).2.world := by
  cases head with
  | closure closure =>
    refine ⟨hreached.grows, hreached.sound, hreached.stored, ?_⟩
    intro answer hanswer number hnumber
    cases hanswer
    obtain ⟨trace, hderives, haccounts⟩ := hreached.goal rfl number hnumber
    exact ⟨trace, .identifier (Scope.find_renumber_ok number scope hfind) hderives, haccounts⟩
  | terminal result =>
    show Reached code _ _ before _ (middle.memoize owner name result)
    have hgrows := grows_memoize middle owner name result
    -- Older than the run, the owner and what is bound have the numbers of the world.
    have hsucc : ∀ number, number < before.size → numberBelow before.size number = number.succ :=
      fun number hless => numberBelow_of_lt hless
    obtain ⟨trace, hderives, haccounts⟩ := hreached.goal rfl (numberBelow before.size)
      fun place hplace => numberBelow_of_le hplace
    have hrecord : middle.RecordedSoundly code owner.number name result owner bound trace := by
      refine ⟨(howner.grows hreached.grows), hself, ?_, ?_⟩
      · have hall := hderives
        simp only [Goal.derives, Goal.resultOf, Demand.renumber, Result.renumber,
          Head.renumber] at hall
        rwa [hbefore.renumber_congr hsucc howner,
          hbefore.renumber_congr_expr hsucc hbound] at hall
      · intro entry hm
        rcases haccounts.confirmed entry hm with hzero | ⟨place, recorded, hplace, hr, hforget⟩
        · exact .inl hzero
        · by_cases hless : place < before.size
          · rw [hsucc place hless] at hplace
            exact .inr ⟨place, recorded, hplace, hr, hforget⟩
          · rw [numberBelow_of_le (Nat.le_of_not_lt hless)] at hplace
            exact .inl hplace.symm
    refine ⟨hreached.grows.trans hgrows, hreached.sound.memoize hrecord, ?_, ?_⟩
    · intro value hvalue
      exact (hreached.stored hvalue).grows hgrows
    · intro answer hanswer number hnumber
      cases hanswer
      obtain ⟨trace, hderives, haccounts⟩ := hreached.goal rfl number hnumber
      refine ⟨_, .identifier (Scope.find_renumber_ok number scope hfind) hderives, ?_, ?_⟩
      · intro entry hm
        rcases List.mem_append.1 hm with hown | htrace
        · have hentry := List.mem_singleton.1 hown
          subst hentry
          obtain ⟨recorded, hr, hforget⟩ := hreached.sound.memoize_self hrecord
          exact .inr ⟨owner.number, recorded, (owner.renumber_number number).symm, hr, hforget⟩
        · exact (haccounts.confirmed entry htrace).grows hgrows
      · intro place other recorded hr
        rcases memoize_records hr with hold | ⟨rfl, rfl, rfl⟩
        · rcases haccounts.recorded hold with hbefore | htrace
          · exact .inl hbefore
          · exact .inr (List.mem_append_right _ htrace)
        · refine .inr (List.mem_append_left _ (List.mem_singleton.2 ?_))
          rw [Scope.renumber_number]

/-- Instead of what an identifier is bound to, its record may be evaluated. -/
theorem Reached.recorded {result : Terminal ν} {outcome : Except Stop (Head ν)}
    (hreached : Reached code (.derives code (.evaluate result.toExpr owner) .head) Head.scopes
      before outcome after)
    (hsound : before.Sound code) (huniform : code.Uniform) (howner : before.Stores owner)
    (hfind : scope.find name = .ok (bound, owner))
    (hself : owner.find name = .ok (bound, owner))
    (hrecord : before.recordAt owner.number name = some result) :
    Reached code (.derives code (.evaluate (.identifier name) scope) .head) Head.scopes before
      outcome after := by
  refine ⟨hreached.grows, hreached.sound, hreached.stored, ?_⟩
  intro answer hanswer number hnumber
  obtain ⟨trace, hderives, haccounts⟩ := hreached.goal hanswer number hnumber
  obtain ⟨recorded, hbound, hconfirmed⟩ :=
    hsound.record huniform howner hself hrecord number
  -- A terminal evaluates to itself, so the answer is the record.
  have hterminal : Derives code
      (.evaluate (result.toExpr.renumber number) (owner.renumber number))
      (.head (.terminal result.forget)) [] := by
    cases result with
    | value it => exact .head (.value it.forget _)
    | native method => exact .head (.native method _)
  obtain ⟨hresult, rfl⟩ := hderives.deterministic hterminal
  have hidentifier := Derives.identifier (Scope.find_renumber_ok number scope hfind) hbound
  rw [← hresult] at hidentifier
  refine ⟨_, hidentifier, ?_, ?_⟩
  · intro entry hm
    rw [hresult] at hm
    rcases List.mem_append.1 hm with hown | htrace
    · have hentry := List.mem_singleton.1 hown
      rw [Scope.renumber_number] at hentry
      subst hentry
      exact .inr ⟨owner.number, result, rfl, hreached.grows.record hrecord, rfl⟩
    · exact (hconfirmed entry htrace).grows hreached.grows
  · intro place other value hr
    rcases haccounts.recorded hr with hold | hnone
    · exact .inl hold
    · exact absurd hnone List.not_mem_nil

end World

namespace Engine

variable {engine : Engine ν σ} {nested : Nested ν σ}

/-- An identifier is read from its record, or resolved and recorded. -/
theorem identifierRun_meets (huniform : code.Uniform)
    {loop : Expr ν → Scope ν → Run ν σ (Head ν)}
    (hloop : ∀ expr inner, Run.Meets code (.derives code (.evaluate expr inner) .head)
      Head.scopes (inner :: expr.scopes) (loop expr inner)) (name : String) (scope : Scope ν) :
    Run.Meets code (.derives code (.evaluate (.identifier name) scope) .head) Head.scopes [scope]
      (identifierRun loop name scope) := by
  cases hfind : scope.find name with
  | error failure =>
    rw [identifierRun_missing hfind]
    exact Run.meets_fail fun number => .missing (Scope.find_renumber_error number scope hfind)
  | ok found =>
    obtain ⟨bound, owner⟩ := found
    intro machine hsound hstored
    obtain ⟨howner, hmem, hself⟩ := hstored.head.find hsound.consistent hfind
    have hbound := howner.contents hsound.consistent hmem
    cases hrecord : machine.world.memoized owner name with
    | some result =>
      rw [identifierRun_recorded hfind hrecord]
      have hterminal : machine.world.StoresAll result.toExpr.scopes := by
        cases result <;> exact .nil
      have hreached := hloop result.toExpr owner machine hsound (.cons howner hterminal)
      exact World.Reached.recorded hreached hsound huniform howner hfind hself hrecord
    | none =>
      rw [identifierRun_unrecorded hfind hrecord, Run.bind_apply]
      have hreached := hloop bound owner machine hsound (.cons howner hbound)
      rcases hrun : loop bound owner machine with ⟨stop | head, middle⟩
      · rw [hrun] at hreached
        refine ⟨hreached.grows, hreached.sound, nofun, ?_⟩
        intro answer hanswer number hnumber
        cases stop with
        | failed failure =>
          cases hanswer
          obtain ⟨trace, hderives, haccounts⟩ := hreached.goal rfl number hnumber
          exact ⟨trace, .identifier (Scope.find_renumber_ok number scope hfind) hderives,
            haccounts⟩
        | outOfSteps maxSteps => cases hanswer
        | outOfDepth maxDepth => cases hanswer
      · rw [hrun] at hreached
        have hrecorded := World.Reached.record middle.steps hreached hsound.consistent howner
          hbound hfind hself
        cases head with
        | closure closure => exact hrecorded
        | terminal result => exact hrecorded

section Loops

variable (hnatives : engine.invoke.Computes code) (h : Nested.Meets code nested)
include hnatives h

theorem resolveLoop_meets (rounds : Nat) (expr : Expr ν) (scope : Scope ν) :
    Run.Meets code (.derives code (.evaluate expr scope) .head) Head.scopes
      (scope :: expr.scopes) (engine.resolveLoop nested rounds expr scope []) := by
  induction rounds generalizing expr scope with
  | zero => exact Run.meets_exhaust engine.limits
  | succ rounds ih =>
    cases hidentifier : expr.identifier? with
    | some name =>
      cases expr with
      | identifier other =>
        rw [resolveLoop_identifier]
        refine Run.Meets.tick_bind (Run.Meets.quiet_bind (Run.quiet_emit _) fun _ => ?_)
        exact identifierRun_meets hnatives.uniform ih other scope
      | _ => cases hidentifier
    | none =>
      rw [resolveLoop_succ, step_eq, bind_assoc]
      refine Run.Meets.tick_bind ?_
      refine (stepBody_meets hnatives h expr hidentifier scope).bind_of_met
        (fun outcome hmet => ?_) fun number failure trace hfails => .fails hfails
      cases outcome with
      | finished head =>
        refine Run.meets_pure ?_ fun inner hm => List.mem_append_left _ hm
        intro number trace hhead
        rw [List.append_nil]
        exact .head hhead
      | further next inner =>
        refine (ih next inner).weaken ?_ fun inner hm => List.mem_append_left _ hm
        intro number answer more hnext trace hreduce
        exact .next hreduce hnext
      | binding name bound owner =>
        -- Only identifiers are bound, and the expression is none.
        obtain ⟨number, trace, hreduce⟩ := hmet
        exact hreduce.not_reduces_name.elim

omit hnatives h in
theorem ownName_meets (name : String) (scope : Scope ν) {needs : List (Scope ν)} :
    Run.Meets code (.derives code (.name (.identifier name) scope) .name) (fun _ => []) needs
      (ownName name : Run ν σ String) := by
  rw [ownName]
  cases hname : positional? name with
  | some index => exact Run.meets_fail fun number => .positional _ hname
  | none =>
    exact Run.meets_pure (fun number => .ownName _ hname) fun inner hm =>
      absurd hm List.not_mem_nil

theorem nameLoop_meets (rounds : Nat) (position : Expr ν) (scope : Scope ν) :
    Run.Meets code (.derives code (.name position scope) .name) (fun _ => [])
      (scope :: position.scopes) (engine.nameLoop nested rounds position scope) := by
  induction rounds generalizing position scope with
  | zero =>
    cases hidentifier : position.identifier? with
    | some name =>
      cases position with
      | identifier other => exact ownName_meets other scope
      | _ => cases hidentifier
    | none =>
      rw [nameLoop_zero _ _ _ _ hidentifier]
      exact Run.meets_exhaust engine.limits
  | succ rounds ih =>
    cases hidentifier : position.identifier? with
    | some name =>
      cases position with
      | identifier other => exact ownName_meets other scope
      | _ => cases hidentifier
    | none =>
      rw [nameLoop_succ _ _ _ _ _ hidentifier, step_eq, bind_assoc]
      refine Run.Meets.tick_bind ?_
      refine (stepBody_meets hnatives h position hidentifier scope).bind_of_met
        (fun outcome hmet => ?_) fun number failure trace hfails => .nameFails hfails
      cases outcome with
      | finished head =>
        rw [nameAfterStep]
        cases hname : head.name? with
        | some name =>
          refine Run.meets_pure ?_ fun inner hm => absurd hm List.not_mem_nil
          intro number trace hhead
          rw [List.append_nil]
          exact .name hhead ((head.name?_renumber number).trans hname)
        | none =>
          refine Run.meets_fail fun number trace hhead => ?_
          have hnone := Derives.noName hhead ((head.name?_renumber number).trans hname)
          rw [Head.display_renumber] at hnone
          rw [List.append_nil]
          exact hnone
      | further next inner =>
        refine (ih next inner).weaken ?_ fun inner hm => List.mem_append_left _ hm
        intro number answer more hnext trace hreduce
        exact .nextName hreduce hnext
      | binding name bound owner =>
        obtain ⟨number, trace, hreduce⟩ := hmet
        exact hreduce.not_reduces_name.elim

end Loops

/-! ## Evaluations -/

section Evaluations

variable (hnatives : engine.invoke.Computes code)
include hnatives

theorem nested_meets (levels : Nat) : Nested.Meets code (engine.nested levels) := by
  induction levels with
  | zero => exact ⟨fun _ _ => Run.meets_tooDeep _, fun _ _ => Run.meets_tooDeep _⟩
  | succ levels ih => exact ⟨resolveLoop_meets hnatives ih _, nameLoop_meets hnatives ih _⟩

theorem resolveTop_meets (expr : Expr ν) (scope : Scope ν) :
    Run.Meets code (.derives code (.evaluate expr scope) .head) Head.scopes
      (scope :: expr.scopes) (engine.resolveTop expr scope) :=
  (nested_meets hnatives _).resolve expr scope

/-- What forcing comes to. -/
def forces (code : Code ν) (expr : Expr ν) (scope : Scope ν) : Goal ν (Terminal ν) :=
  fun number answer trace =>
    Forces code (expr.renumber number) (scope.renumber number) (answer.map Terminal.forget) trace

theorem forceLoop_meets (rounds : Nat) (expr : Expr ν) (scope : Scope ν) :
    Run.Meets code (forces code expr scope) (fun _ => []) (scope :: expr.scopes)
      (engine.forceLoop rounds expr scope) := by
  induction rounds generalizing expr scope with
  | zero => exact Run.meets_exhaust engine.limits
  | succ rounds ih =>
    rw [forceLoop_succ]
    refine (resolveTop_meets hnatives expr scope).bind (fun head => ?_)
      fun number failure trace hfails => .fails hfails
    cases head with
    | terminal result =>
      refine Run.meets_pure ?_ fun inner hm => absurd hm List.not_mem_nil
      intro number trace hresult
      rw [List.append_nil]
      exact .terminal hresult
    | closure closure =>
      refine Run.Meets.quiet_bind (Run.quiet_emit _) fun _ => ?_
      have hbody : Run.Meets code (forces code closure.body closure) (fun _ => []) [closure]
          (engine.forceLoop rounds closure.body closure) :=
        (ih closure.body closure).of_stored fun world hconsistent hstored =>
          .cons hstored.head (hstored.head.body hconsistent)
      refine hbody.weaken ?_ ?_
      · intro number answer more hforces trace hclosure
        have hbody := hforces
        unfold forces at hbody
        rw [← Scope.renumber_body] at hbody
        exact .closure hclosure hbody
      · intro inner hm
        exact List.mem_append_left _ hm

/-- Where only the records matter, there is nothing to say. -/
abbrev anything {α : Type} : Goal ν α := fun _ _ _ => True

/-- What applying comes to. -/
def applies (code : Code ν) (operator : Expr ν) (arguments : List (Expr ν)) (scope : Scope ν) :
    Goal ν (Expr ν) :=
  fun number answer _ =>
    Applies code (operator.renumber number) (arguments.map (Expr.renumber number))
      (scope.renumber number) (answer.map (Expr.renumber number))

omit hnatives in
theorem findSome?_failure_renumber (number : Nat → Nat) (arguments : List (Expr ν)) :
    (arguments.map (Expr.renumber number)).findSome? Expr.failure? =
      arguments.findSome? Expr.failure? := by
  rw [List.findSome?_map]
  congr 1
  funext argument
  cases argument <;> rfl

theorem applyRun_meets (operator : Expr ν) (arguments : List (Expr ν)) (scope : Scope ν) :
    Run.Meets code (applies code operator arguments scope) Expr.scopes
      (scope :: (operator.scopes ++ scopesAll arguments))
      (engine.applyRun operator arguments scope) := by
  have hoperator := (resolveTop_meets hnatives operator scope).weaken (fun _ _ _ => id)
    (show ∀ inner ∈ scope :: operator.scopes,
      inner ∈ scope :: (operator.scopes ++ scopesAll arguments) by grind)
  refine hoperator.bind (fun head => ?_) fun number failure trace hfails => .operatorFails hfails
  have hsame (number : Nat → Nat) := findSome?_failure_renumber number arguments
  cases hfailure : arguments.findSome? Expr.failure? with
  | some failure =>
    exact Run.meets_fail fun number trace hhead => .argumentFails hhead (hsame number ▸ hfailure)
  | none =>
    rcases head with (value | method) | closure
    · refine Run.meets_pure
        (fun number trace hhead => .plainValue hhead (hsame number ▸ hfailure)) fun inner hm => ?_
      exact absurd hm List.not_mem_nil
    · show Run.Meets _ _ _ _ (engine.callNative method arguments scope)
      rw [← bind_pure (engine.callNative method arguments scope)]
      refine callNative_bind_meets hnatives (by grind) fun result => ?_
      refine Run.meets_pure ?_ fun inner hm => List.mem_append_left _ hm
      intro number hresult trace hhead
      show Applies _ _ _ _ (.ok (result.renumber number))
      rw [hresult]
      exact .nativeCall hhead (hsame number ▸ hfailure)
    · refine Run.call_bind_meets (by grind [Head.scopes]) fun frame => ?_
      refine Run.meets_pure ?_ fun inner hm => ?_
      · intro number hframe trace hhead
        show Applies _ _ _ _ (.ok (.scope (frame.renumber number)))
        rw [hframe]
        exact .closureCall hhead (hsame number ▸ hfailure)
      · exact List.mem_cons.2 (.inl (List.mem_singleton.1 hm))

/-- Every evaluation leaves a sound world, with all that was there before, however it ends. -/
theorem evaluate_sound {world : World ν σ} (hsound : world.Sound code)
    (request : Evaluation ν) (hrequest : world.StoresAll request.scopes) :
    (engine.evaluate request world).world.Sound code ∧
      world.Grows (engine.evaluate request world).world := by
  have hrun : ∀ {α : Type} {goal : Goal ν α} {scopes : α → List (Scope ν)}
      {run : Run ν σ α} {toExpr : α → Expr ν}, Run.Meets code goal scopes request.scopes run →
      (Run.execute (toExpr <$> run) world).world.Sound code ∧
        world.Grows (Run.execute (toExpr <$> run) world).world := by
    intro α goal scopes run toExpr hmeets
    have hreached := hmeets ⟨0, world⟩ hsound hrequest
    rw [map_eq_pure_bind]
    unfold Run.execute
    rw [Run.bind_apply]
    rcases hafter : run ⟨0, world⟩ with ⟨stop | result, after⟩
    · rw [hafter] at hreached
      exact ⟨hreached.sound, hreached.grows⟩
    · rw [hafter] at hreached
      exact ⟨hreached.sound, hreached.grows⟩
  cases request with
  | resolve expr scope => exact hrun (resolveTop_meets hnatives expr scope)
  | force expr scope => exact hrun (forceLoop_meets hnatives _ expr scope)
  | apply operator arguments scope =>
    have hreached := applyRun_meets hnatives operator arguments scope ⟨0, world⟩ hsound hrequest
    exact ⟨hreached.sound, hreached.grows⟩
  | close items scope => exact hrun ((nested_meets hnatives _).close items scope)
  | interpret program root =>
    -- The end of a program changes nothing but what is outside frames and records.
    have hreached := forceLoop_meets hnatives engine.limits.maxSteps program root ⟨0, world⟩
      hsound hrequest
    have hcells : (engine.evaluate (.interpret program root) world).world.cells =
        (engine.forceLoop engine.limits.maxSteps program root ⟨0, world⟩).2.world.cells := by
      rw [evaluate, run, map_eq_pure_bind]
      unfold Run.execute
      rw [Run.bind_apply, interpretRun]
      rcases engine.forceLoop engine.limits.maxSteps program root ⟨0, world⟩ with
        ⟨stop | (value | method), after⟩ <;> rfl
    exact ⟨(World.Makes.outside hcells).sound hreached.sound,
      hreached.grows.trans (.of_cells hcells)⟩

end Evaluations

end Engine

namespace World

variable {invoke : Invoke ν σ} {before after : World ν σ}

theorem Proceeds.sound (hnatives : invoke.Computes code) (h : Proceeds invoke before after)
    (hsound : before.Sound code) : after.Sound code ∧ before.Grows after := by
  cases h with
  | makes hmakes => exact ⟨hmakes.sound hsound, hmakes.grows⟩
  | evaluates limits request hrequest =>
    have hengine : Invoke.Computes (Engine.invoke ⟨limits, invoke⟩) code := hnatives
    exact Engine.evaluate_sound hengine hsound request hrequest

/-- Whatever is done to a sound world, it stays sound and keeps what it has. -/
theorem Later.sound (hnatives : invoke.Computes code) (h : Later invoke before after)
    (hsound : before.Sound code) : after.Sound code ∧ before.Grows after := by
  induction h with
  | refl => exact ⟨hsound, .refl _⟩
  | tail _ hproceeds ih =>
    obtain ⟨hafter, hgrows⟩ := hproceeds.sound hnatives ih.1
    exact ⟨hafter, ih.2.trans hgrows⟩

/-- All worlds of sessions are sound. -/
theorem Reachable.sound {world : World ν σ} (hnatives : invoke.Computes code)
    (h : Reachable invoke world) : world.Sound code := by
  obtain ⟨host, hlater⟩ := h
  exact (hlater.sound hnatives (sound_initial code host)).1

end World
end CallByNeed
