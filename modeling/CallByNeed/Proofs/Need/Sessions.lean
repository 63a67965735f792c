import CallByNeed.Proofs.Need.Order

/-! # Call by need

When the resolution of an identifier has ended in a value or a native method, anywhere in an
evaluation, its owner has a record for it. From then on, in the rest of the evaluation and in all
that the session does later, the identifier is answered from that record, and what it is bound to
is not evaluated again (`World.Attained.call_by_need`). Native methods may keep state and may start
evaluations of their own.
-/

namespace CallByNeed
set_option autoImplicit false

variable {ν σ : Type}

/-- The world at the start of the activity or at its end. -/
def Activity.Bounds (host : Host ν σ) (activity : Activity ν σ) (world : World ν σ) : Prop :=
  world = activity.start ∨ world = activity.leaves host

/-- The session has come to this world after an activity that took place in the course of a whole
evaluation. -/
inductive Host.After (host : Host ν σ) (held : σ → List (Scope ν))
    (whole activity : Activity ν σ) : World ν σ → Prop where
  /-- At the end of the activity and of each one that it takes place in. -/
  | ended {outer : Activity ν σ} (houter : host.Involves whole outer)
      (h : host.Involves outer activity) : After host held whole activity (outer.leaves host)
  /-- When another activity of the evaluation starts later, and when it ends. -/
  | followed {other : Activity ν σ} {world : World ν σ}
      (h : host.Precedes whole activity other) (hworld : other.Bounds host world) :
      After host held whole activity world
  /-- After any operations that follow the evaluation. -/
  | performed {world : World ν σ} (h : World.Course host held (whole.leaves host) world) :
      After host held whole activity world
  /-- Within a later evaluation. -/
  | within {before world : World ν σ} {other : Activity ν σ} (levels : Nat) (limits : Limits)
      {request : Evaluation ν} (h : World.Course host held (whole.leaves host) before)
      (hrequest : before.StoresAll request.scopes)
      (hother : host.Involves (.evaluation levels limits request before) other)
      (hworld : other.Bounds host world) : After host held whole activity world

section Sessions

variable {host : Host ν σ} {held : σ → List (Scope ν)} (hhost : host.Honest held)
include hhost

/-- The world at the end of an activity has grown out of that at its start. -/
theorem Activity.Sound.grows {activity : Activity ν σ} (h : activity.Sound held) :
    activity.start.Grows (activity.leaves host) := by
  have hnatives (levels : Nat) (limits : Limits) :
      (host.engine levels limits).invoke.Honest held := hhost.invokeAt levels
  have hengine (levels : Nat) (limits : Limits) := Engine.has_orderly (hnatives levels limits)
  cases activity with
  | evaluation levels limits request world =>
    exact (host.evaluate_extends levels limits request world).grows
  | loop levels limits depth code machine => exact code.grows (hnatives levels limits) h
  | force levels limits rounds expr scope machine =>
    exact ((hengine levels limits).forceLoop rounds expr scope machine h.orderly h.stored).grows
  | step levels limits depth expr scope machine =>
    exact (Engine.step_orderly (hnatives levels limits) ((hengine levels limits).nested depth)
      expr scope machine h.orderly h.stored).grows
  | close levels limits depth items scope machine =>
    exact ((hengine levels limits).close ((hengine levels limits).nested depth) items scope machine
      h.orderly h.stored).grows
  | program levels code world =>
    exact (Program.run_extends (host.invokeAt_extends levels) code world).grows

theorem Activity.Bounds.grows {activity : Activity ν σ} {world : World ν σ}
    (h : activity.Bounds host world) (hsound : activity.Sound held) :
    activity.start.Grows world := by
  rcases h with rfl | rfl
  · exact .refl _
  · exact hsound.grows hhost

/-- What an activity of an evaluation has left stays there. -/
theorem Host.After.grows {levels : Nat} {limits : Limits} {request : Evaluation ν}
    {start world : World ν σ} {activity : Activity ν σ}
    (h : host.After held (.evaluation levels limits request start) activity world)
    (hinvolves : host.Involves (.evaluation levels limits request start) activity)
    (horderly : start.Orderly held) (hrequest : start.StoresAll request.scopes) :
    (activity.leaves host).Grows world := by
  have hsound : (Activity.evaluation levels limits request start).Sound held :=
    ⟨horderly, hrequest⟩
  have hends := hinvolves.ends hhost hsound
  have hnatives : (host.engine levels limits).invoke.Honest held := hhost.invokeAt levels
  have hleft := (Engine.evaluate_passes hnatives request horderly hrequest).orderly
  cases h with
  | ended houter h => exact h.ends hhost (houter.begins hhost hsound).2
  | followed h hworld =>
    obtain ⟨hbegins, hother⟩ := h.begins hhost hsound
    exact hbegins.trans (hworld.grows hhost hother)
  | performed h => exact hends.trans (World.Course.orderly hhost h hleft).2
  | within levels limits h hrequest hother hworld =>
    obtain ⟨hbefore, hgrows⟩ := World.Course.orderly hhost h hleft
    obtain ⟨hstart, hotherSound⟩ := hother.begins hhost ⟨hbefore, hrequest⟩
    exact hends.trans (hgrows.trans (hstart.trans (hworld.grows hhost hotherSound)))

/-- Once the resolution of an identifier, anywhere in an evaluation of a session, has ended in a
value or a native method, its owner has a record for it, by which the identifier is answered in the
rest of the evaluation and in all that the session does later. -/
theorem World.Attained.call_by_need {world : World ν σ} (hworld : Attained host held world)
    {levels : Nat} {limits : Limits} {request : Evaluation ν}
    (hrequest : world.StoresAll request.scopes) {innerLevels : Nat} {innerLimits : Limits}
    {depth rounds : Nat} {name : String} {scope : Scope ν} {pending : List (Scope ν × String)}
    {machine after : Machine ν σ} {result : Terminal ν}
    (hinvolves : host.Involves (.evaluation levels limits request world)
      (.loop innerLevels innerLimits depth (.resolve rounds (.identifier name) scope pending)
        machine))
    (hresolved : (host.engine innerLevels innerLimits).resolveLoop
      ((host.engine innerLevels innerLimits).nested depth) rounds (.identifier name) scope pending
      machine = (.ok (.terminal result), after)) :
    ∃ bound owner recorded, scope.find name = .ok (bound, owner) ∧
      after.world.memoized owner name = some recorded ∧
      ∀ later, host.After held (.evaluation levels limits request world)
        (.loop innerLevels innerLimits depth (.resolve rounds (.identifier name) scope pending)
          machine) later →
        later.Answers owner name recorded := by
  have horderly := hworld.orderly hhost
  obtain ⟨-, hready⟩ := hinvolves.begins hhost ⟨horderly, hrequest⟩
  have hnatives : (host.engine innerLevels innerLimits).invoke.Honest held :=
    hhost.invokeAt innerLevels
  have hnested := (Engine.has_orderly hnatives).nested depth
  obtain ⟨bound, owner, recorded, hfind, hrecorded⟩ :=
    Engine.resolveLoop_leaves_record hnatives hnested hresolved hready.orderly hready.stored.head
  refine ⟨bound, owner, recorded, hfind, hrecorded, fun later hlater => ?_⟩
  have hgrows := hlater.grows hhost hinvolves horderly hrequest
  rw [Activity.leaves, Loop.leaves, hresolved] at hgrows
  exact World.answers_of_memoized (hgrows.record hrecorded)

end Sessions

/-! ## A native method that keeps state -/

/-- A root frame that binds the next tick. -/
def nextTick : Scope StandardNative × World StandardNative HostState :=
  (World.initial .initial).newRoot (.ofList [("next", .application (.native ⟨"tick", .tick⟩) [])])

/-- The next tick, twice. -/
def twoTicks : Expr StandardNative :=
  .application (.native ⟨"pair", .pair⟩) [.identifier "next", .identifier "next"]

/-- The machine when the operator of `twoTicks` is resolved. -/
def twoTicks.afterOperator : Machine StandardNative HostState :=
  ⟨2, ((Machine.counted ⟨0, nextTick.2⟩ twoTicks).world.emit
    (.resolving (.native ⟨"pair", .pair⟩)))⟩

/-- The counter goes up once, with the first of the two arguments. The second one is answered by the
record, and so is the identifier when the evaluation is over. -/
theorem call_by_need_twoTicks :
    let evaluated := (standardHost.engine 1 ⟨20, 4⟩).evaluate (.resolve twoTicks nextTick.1)
      nextTick.2
    evaluated.world.host.ticks = 1 ∧
      ∃ recorded, evaluated.world.Answers nextTick.1 "next" recorded := by
  intro evaluated
  have hroot : World.Performs standardHost Standard.heldScopes (.initial .initial) nextTick.2 :=
    .makes (.root _ fun _ hm => absurd hm List.not_mem_nil) .nil
  have hstart : World.Attained standardHost Standard.heldScopes nextTick.2 :=
    ⟨.initial, rfl, .single hroot⟩
  have hoperator : ((standardHost.engine 1 ⟨20, 4⟩).nested 4).resolveAll nextTick.1
      [.native ⟨"pair", .pair⟩] (Machine.counted ⟨0, nextTick.2⟩ twoTicks) =
        (.ok [.native ⟨"pair", .pair⟩], twoTicks.afterOperator) := rfl
  have hargument : standardHost.Involves
      (.evaluation 1 ⟨20, 4⟩ (.resolve twoTicks nextTick.1) nextTick.2)
      (.loop 1 ⟨20, 4⟩ 3 (.resolve 20 (.identifier "next") nextTick.1 [])
        twoTicks.afterOperator) :=
    .head ⟨0, .request 1 ⟨20, 4⟩ (.resolve twoTicks nextTick.1) nextTick.2⟩
      (.head ⟨0, .step ⟨0, nextTick.2⟩ rfl⟩
        (.single ⟨1, .part (by decide) (show _ = [_] ++ _ :: _ from rfl) hoperator nofun⟩))
  have hrequest : nextTick.2.StoresAll (Evaluation.resolve twoTicks nextTick.1).scopes :=
    .cons rfl .nil
  obtain ⟨bound, owner, recorded, hfind, -, hanswers⟩ :=
    hstart.call_by_need standardHost_honest hrequest hargument rfl
  have howner : nextTick.1.find "next" =
      .ok (.application (.native ⟨"tick", .tick⟩) [], nextTick.1) := rfl
  cases hfind.symm.trans howner
  exact ⟨rfl, recorded, hanswers _ (.ended .refl hargument)⟩

end CallByNeed
