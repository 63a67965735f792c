import CallByNeed.Proofs.Cycles.Courses
import CallByNeed.Proofs.Limits.Evaluations
import CallByNeed.Proofs.Records.Invariant

/-! # Bindings that depend on themselves

If the evaluation of what an identifier is bound to comes to the same identifier of the same frame
before it has ended, a demand of call by name asks for itself, so that it has no result. The whole
evaluation then ends at one of its limits, whichever they are, and the identifier has no record,
then or later (`World.Reachable.unfinished`). No value and no native method is computed from its
own unfinished evaluation.
-/

namespace CallByNeed
set_option autoImplicit false

open CallByName Relation

variable {ν σ α : Type} {code : Code ν}

/-- What comes to no answer hits a limit. -/
theorem Run.StopsAt.of_unanswered {run : Run ν σ α} {machine : Machine ν σ}
    (h : answer? (run machine).1 = none) :
    ∃ stop, stop.isLimit = true ∧
      run.StopsAt machine stop (run machine).2.world.cells := by
  rcases hrun : run machine with ⟨(failure | maxSteps | maxDepth) | result, after⟩
  · rw [hrun] at h
    cases h
  · exact ⟨.outOfSteps maxSteps, rfl, after, hrun, rfl⟩
  · exact ⟨.outOfDepth maxDepth, rfl, after, hrun, rfl⟩
  · rw [hrun] at h
    cases h

/-- A demand of call by name without a result. -/
def CallByName.Endless (code : Code ν) (demand : Demand ν) : Prop :=
  ∀ result trace, ¬Derives code demand result trace

section Loops

variable {host : Host ν σ} {levels : Nat} {limits : Limits}
  {depth innerDepth rounds innerRounds : Nat} {owner scope holder : Scope ν} {name : String} {bound other : Expr ν}
  {pending innerPending : List (Scope ν × String)} {machine innerMachine : Machine ν σ}
  {number : Nat → Nat}

/-- What an identifier is bound to has no result if its evaluation comes to the identifier again. -/
theorem Host.LeadsTo.endless (hfind : owner.find name = .ok (bound, owner))
    (h : host.LeadsTo (.loop levels limits depth (.resolve rounds bound owner pending) machine)
      (.loop levels limits innerDepth
        (.resolve innerRounds (.identifier name) scope innerPending) innerMachine))
    (hagain : scope.find name = .ok (other, holder)) (hholder : holder.number = owner.number)
    (hfirst : (Activity.loop levels limits depth (.resolve rounds bound owner pending)
      machine).Faithful host code number) :
    Endless code (.evaluate (bound.renumber number) (owner.renumber number)) := by
  obtain ⟨-, hfollows⟩ := h.follows hfirst
  obtain ⟨_, ⟨⟩, hasked⟩ := hfollows.asked rfl
  obtain ⟨hstored, -, hself⟩ :=
    hfollows.ready.stored.head.find hfollows.ready.sound.consistent hagain
  -- Frames are told apart by their numbers, so the identifier has the same owner.
  have howner : innerMachine.world.Stores owner := hfirst.ready.stored.head.grows hfollows.grows
  have hsame : holder = owner := by
    rw [World.Stores, hholder] at hstored
    exact Option.some.inj (hstored.symm.trans howner)
  subst hsame
  cases hself.symm.trans hfind
  have hcycle := TransGen.head' (.bound (Scope.find_renumber_ok number scope hagain)) hasked
  exact fun result trace hderives => hderives.not_asked hcycle

/-- A resolution without a result stops at a limit, whatever identifiers wait for it. -/
theorem CallByName.Endless.stopsAt
    (h : Endless code (.evaluate (bound.renumber number) (owner.renumber number)))
    (hfirst : (Activity.loop levels limits depth (.resolve rounds bound owner pending)
      machine).Faithful host code number) :
    ∃ stop after, stop.isLimit = true ∧ machine.world.Grows after ∧
      (Activity.loop levels limits depth (.resolve rounds bound owner pending) machine).StopsAt host
        stop after.cells := by
  have hengine : (host.engine levels limits).invoke.Computes code := hfirst.natives
  have hreached := Engine.resolveLoop_meets hengine (Engine.nested_meets hengine depth) rounds bound
    owner machine hfirst.ready.sound hfirst.ready.stored
  have hunanswered : answer? ((host.engine levels limits).resolveLoop
      ((host.engine levels limits).nested depth) rounds bound owner [] machine).1 = none := by
    refine Option.eq_none_iff_forall_ne_some.2 fun answer hanswer => ?_
    obtain ⟨trace, hderives, -⟩ := hreached.goal hanswer number hfirst.ready.fresh
    exact h _ trace hderives
  obtain ⟨stop, hlimit, hstops⟩ := Run.StopsAt.of_unanswered hunanswered
  refine ⟨stop, _, hlimit, hreached.grows, ?_⟩
  rw [Activity.StopsAt, Loop.StopsAt, Engine.resolveLoop_pending]
  exact hstops.bind _

end Loops

/-- An identifier without a result has no record in a sound world. -/
theorem World.Sound.unrecorded_of_endless {world : World ν σ} (h : world.Sound code)
    (huniform : code.Uniform) {owner : Scope ν} {name : String} {bound : Expr ν}
    {number : Nat → Nat} (howner : world.Stores owner)
    (hfind : owner.find name = .ok (bound, owner))
    (hendless : Endless code (.evaluate (bound.renumber number) (owner.renumber number))) :
    world.memoized owner name = none := by
  refine Option.eq_none_iff_forall_ne_some.2 fun result hrecord => ?_
  obtain ⟨trace, hderives, -⟩ := h.record huniform howner hfind hrecord number
  exact hendless _ trace hderives

/-- If in the course of an evaluation a frame's expression for an identifier is being resolved and
the same identifier of the same frame is to be resolved again before that has ended, the whole
evaluation ends at one of its limits. The frame has no record for the identifier afterwards,
whatever is done later. -/
theorem World.Reachable.unfinished {host : Host ν σ} {levels : Nat} {world : World ν σ}
    (hnatives : (host.invokeAt levels).Computes code)
    (h : World.Reachable (host.invokeAt levels) world) {limits : Limits} {request : Evaluation ν}
    (hrequest : world.StoresAll request.scopes)
    {depth innerDepth rounds innerRounds : Nat} {owner scope holder : Scope ν} {name : String}
    {bound other : Expr ν} {pending innerPending : List (Scope ν × String)}
    {machine innerMachine : Machine ν σ} (hfind : owner.find name = .ok (bound, owner))
    (hfirst : host.LeadsTo (.evaluation levels limits request world)
      (.loop levels limits depth (.resolve rounds bound owner ((owner, name) :: pending)) machine))
    (hsecond : host.LeadsTo
      (.loop levels limits depth (.resolve rounds bound owner ((owner, name) :: pending)) machine)
      (.loop levels limits innerDepth
        (.resolve innerRounds (.identifier name) scope innerPending) innerMachine))
    (hagain : scope.find name = .ok (other, holder)) (hholder : holder.number = owner.number) :
    let evaluated := (host.engine levels limits).evaluate request world
    evaluated.isCut = true ∧
      (evaluated.reported = .error (.stepBudgetExhausted limits.maxSteps) ∨
        evaluated.reported = .error (.recursionLimit limits.maxDepth)) ∧
      ∀ later, World.Later (host.invokeAt levels) evaluated.world later →
        later.memoized owner name = none := by
  intro evaluated
  have hengine : (host.engine levels limits).invoke.Computes code := hnatives
  have hsound := h.sound hnatives
  have hstart : (Activity.evaluation levels limits request world).Faithful host code fun _ => 0 :=
    ⟨hnatives, hsound, hrequest, fun _ _ => rfl⟩
  obtain ⟨-, hfollows⟩ := hfirst.follows hstart
  have hfaithful : (Activity.loop levels limits depth
      (.resolve rounds bound owner ((owner, name) :: pending)) machine).Faithful host code
        fun _ => 0 := ⟨hnatives, hfollows.ready⟩
  have hendless := hsecond.endless hfind hagain hholder hfaithful
  obtain ⟨stop, after, hlimit, hgrows, hstops⟩ := hendless.stopsAt hfaithful
  obtain ⟨last, hrun, hcells⟩ := hfirst.stopsAt hstops
  have houtcome : evaluated.outcome = .error stop := congrArg Prod.fst hrun
  have hworld : evaluated.world = last.world := congrArg (fun ended => ended.2.world) hrun
  refine ⟨?_, Engine.evaluate_reports_limit houtcome hlimit, fun later hlater => ?_⟩
  · unfold Evaluated.isCut
    rw [houtcome]
    exact hlimit
  · obtain ⟨hended, -⟩ := Engine.evaluate_sound hengine hsound request hrequest
    obtain ⟨hlast, hkept⟩ := hlater.sound hnatives hended
    have hstored : machine.world.Stores owner := hfollows.ready.stored.head
    have hleft : after.Grows evaluated.world := .of_cells (hworld ▸ hcells)
    exact hlast.unrecorded_of_endless hnatives.uniform
      (((hstored.grows hgrows).grows hleft).grows hkept) hfind hendless

/-! ## Two bindings that depend on each other -/

namespace PingPong

/-- A sum of the other binding and a value. -/
def sum : Expr StandardNative :=
  .application (.native ⟨"add", .add⟩) [.identifier "pong", .value ⟨.supplied 0, .integer .i64 1⟩]

/-- A root frame with the sum and a binding that stands for it. -/
def start : Scope StandardNative × World StandardNative HostState :=
  (World.initial .initial).newRoot (.ofList [("ping", sum), ("pong", .identifier "ping")])

/-- The machine when the first binding is found to have no record. -/
def found : Machine StandardNative HostState :=
  Machine.counted ⟨0, start.2⟩ (.identifier "ping")

/-- The machine when the operator of the sum is resolved. -/
def added : Machine StandardNative HostState :=
  ⟨3, (found.counted sum).world.emit (.resolving (.native ⟨"add", .add⟩))⟩

end PingPong

open PingPong in
/-- The sum needs itself, as an argument of its own. It is resolved ever deeper until the limit. -/
theorem unfinished_pingPong :
    let invoke := Standard.plainHost.invokeAt 1
    let request := Evaluation.resolve (.identifier "ping") start.1
    let evaluated := Engine.evaluate ⟨⟨20, 4⟩, invoke⟩ request start.2
    evaluated.result.failure? = some (.recursionLimit 4) ∧
      ∀ later, World.Later invoke evaluated.world later → later.memoized start.1 "ping" = none := by
  intro invoke request evaluated
  have hreachable : World.Reachable invoke start.2 :=
    ⟨.initial, .single (.makes (.root _ fun _ hm => absurd hm List.not_mem_nil))⟩
  have hrequest : start.2.StoresAll request.scopes := .cons rfl .nil
  let engine := Standard.plainHost.engine 1 ⟨20, 4⟩
  have hping : engine.step (engine.nested 4) (.identifier "ping") start.1 ⟨0, start.2⟩ =
      (.ok (.binding "ping" sum start.1), found) := rfl
  have hoperator : (engine.nested 4).resolveAll start.1 [.native ⟨"add", .add⟩]
      (found.counted sum) = (.ok [.native ⟨"add", .add⟩], added) := rfl
  have hpong : engine.step (engine.nested 3) (.identifier "pong") start.1 added =
      (.ok (.binding "pong" (.identifier "ping") start.1),
        added.counted (.identifier "pong")) := rfl
  have hfirst : Standard.plainHost.LeadsTo
      (.evaluation 1 ⟨20, 4⟩ request start.2)
      (.loop 1 ⟨20, 4⟩ 4 (.resolve 19 sum start.1 [(start.1, "ping")]) found) :=
    .head ⟨⟨0, .request _ _ _ _⟩, trivial, trivial⟩
      (.single ⟨⟨1, .next rfl hping rfl⟩, trivial, trivial⟩)
  have hsecond : Standard.plainHost.LeadsTo
      (.loop 1 ⟨20, 4⟩ 4 (.resolve 19 sum start.1 [(start.1, "ping")]) found)
      (.loop 1 ⟨20, 4⟩ 3 (.resolve 19 (.identifier "ping") start.1 [(start.1, "pong")])
        (added.counted (.identifier "pong"))) :=
    .head ⟨⟨0, .step _ rfl⟩, trivial, trivial⟩
      (.head ⟨⟨1, .part (by decide) (show _ = [_] ++ _ :: _ from rfl) hoperator nofun⟩,
        trivial, trivial⟩ (.single ⟨⟨1, .next rfl hpong rfl⟩, trivial, trivial⟩))
  obtain ⟨-, -, hlater⟩ := World.Reachable.unfinished (Standard.plainHost_computes 0) hreachable
    hrequest rfl hfirst hsecond rfl rfl
  exact ⟨by decide +kernel, hlater⟩

end CallByNeed
