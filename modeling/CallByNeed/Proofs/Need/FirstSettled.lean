import CallByNeed.Proofs.Need.Explained
import CallByNeed.Proofs.Need.Sessions

/-! # The result that is kept

A resolution records its result for all identifiers that it has met in tail position. Records are
written once, so of several resolutions of an identifier that are nested in one another it is the
first to end that settles the record, and a resolution around it may come to something else: the
record is its result, or that of a resolution within one of its steps
(`World.Attained.first_settled`). Only native methods that keep state tell the two apart
(`overtaken_keeps_inner`).
-/

namespace CallByNeed
set_option autoImplicit false

variable {ν σ : Type}

/-! ## Courses of a loop -/

/-- The loop goes on, step by step, from the first machine to the second one. -/
inductive Host.GoesOn (host : Host ν σ) (levels : Nat) (limits : Limits) (depth : Nat) :
    Loop ν → Machine ν σ → Loop ν → Machine ν σ → Prop where
  | refl (loop : Loop ν) (machine : Machine ν σ) :
      GoesOn host levels limits depth loop machine loop machine
  | next {loop more last : Loop ν} {expr : Expr ν} {scope : Scope ν}
      {machine after turn : Machine ν σ} {outcome : Outcome ν}
      (hstep : loop.step? = some (expr, scope))
      (houtcome : (host.engine levels limits).step ((host.engine levels limits).nested depth) expr
        scope machine = (.ok outcome, after))
      (hnext : loop.next? outcome = some more)
      (hrest : GoesOn host levels limits depth more after last turn) :
      GoesOn host levels limits depth loop machine last turn

/-- The activity takes place within one of the steps that the loop takes. -/
inductive Host.Within (host : Host ν σ) (levels : Nat) (limits : Limits) (depth : Nat)
    (loop : Loop ν) (machine : Machine ν σ) (inner : Activity ν σ) : Prop where
  | step {last : Loop ν} {expr : Expr ν} {scope : Scope ν} {turn : Machine ν σ}
      (hgoes : host.GoesOn levels limits depth loop machine last turn)
      (hstep : last.step? = some (expr, scope))
      (hinvolves : host.Involves (.step levels limits depth expr scope turn) inner) :
      Within host levels limits depth loop machine inner

namespace Host

variable {host : Host ν σ} {levels depth rounds : Nat} {limits : Limits} {expr : Expr ν}
  {scope : Scope ν} {pending : List (Scope ν × String)} {machine after : Machine ν σ}

theorem GoesOn.involves {loop last : Loop ν} {turn : Machine ν σ}
    (h : host.GoesOn levels limits depth loop machine last turn) :
    host.Involves (.loop levels limits depth loop machine)
      (.loop levels limits depth last turn) := by
  induction h with
  | refl loop machine => exact .refl
  | next hstep houtcome hnext _ ih => exact .head ⟨1, .next hstep houtcome hnext⟩ ih

/-- A resolution comes to what is left of it comes to. -/
theorem GoesOn.resolves {left : Nat} {target : Expr ν} {inner : Scope ν}
    {more : List (Scope ν × String)} {turn : Machine ν σ}
    (h : host.GoesOn levels limits depth (.resolve rounds expr scope pending) machine
      (.resolve left target inner more) turn) :
    (host.engine levels limits).resolveLoop ((host.engine levels limits).nested depth) rounds expr
        scope pending machine =
      (host.engine levels limits).resolveLoop ((host.engine levels limits).nested depth) left target
        inner more turn := by
  generalize hloop : Loop.resolve rounds expr scope pending = loop at h
  generalize hlast : Loop.resolve left target inner more = last at h
  induction h generalizing rounds expr scope pending with
  | refl loop machine =>
    subst hloop
    cases hlast
    rfl
  | next hstep houtcome hnext _ ih =>
    subst hloop
    cases rounds with
    | zero => cases hstep
    | succ rounds =>
      cases hstep
      rw [Engine.resolveLoop_step, Run.bind_apply, houtcome]
      rename_i outcome _
      cases outcome with
      | finished head => cases hnext
      | further next inner =>
        cases hnext
        exact ih rfl hlast
      | binding own bound owner =>
        cases hnext
        exact ih rfl hlast

theorem Within.of_next {loop more : Loop ν} {outcome : Outcome ν} {inner : Activity ν σ}
    (hstep : loop.step? = some (expr, scope))
    (houtcome : (host.engine levels limits).step ((host.engine levels limits).nested depth) expr
      scope machine = (.ok outcome, after))
    (hnext : loop.next? outcome = some more)
    (h : host.Within levels limits depth more after inner) :
    host.Within levels limits depth loop machine inner := by
  obtain ⟨hgoes, hlast, hinvolves⟩ := h
  exact .step (.next hstep houtcome hnext hgoes) hlast hinvolves

end Host

/-! ## What is recorded for a pending identifier -/

/-- A pending identifier of a frame that is there gets a record. -/
theorem World.memoizeAll_writes {owner : Scope ν} {name : String} (result : Terminal ν)
    {owners : List (Scope ν × String)} (howner : (owner, name) ∈ owners) {world : World ν σ}
    (hsize : owner.number < world.size) :
    ∃ found, (world.memoizeAll result owners).recordAt owner.number name = some found := by
  induction owners generalizing world with
  | nil => exact absurd howner List.not_mem_nil
  | cons first owners ih =>
    rcases List.mem_cons.1 howner with rfl | hrest
    · obtain ⟨found, hfound⟩ := World.recorded_of_memoize hsize name result
      exact ⟨found, (grows_memoizeAll result owners _).record hfound⟩
    · exact ih hrest (by rw [size_memoize]; exact hsize)

/-- What is a value or a native method resolves to itself. -/
theorem Engine.eq_of_resolveLoop_terminal {engine : Engine ν σ} {nested : Nested ν σ}
    {rounds : Nat} {found result : Terminal ν} {scope : Scope ν}
    {pending : List (Scope ν × String)} {machine after : Machine ν σ}
    (h : engine.resolveLoop nested rounds found.toExpr scope pending machine =
      (.ok (.terminal result), after)) : found = result := by
  cases rounds with
  | zero =>
    rw [resolveLoop, Run.exhaust_apply] at h
    cases h
  | succ rounds =>
    rw [resolveLoop_step] at h
    obtain ⟨outcome, turn, houtcome, hrest⟩ := Run.ok_of_bind h
    rw [step_eq] at houtcome
    have hbody := Run.ok_of_tick_bind houtcome
    cases found with
    | value value =>
      cases hbody
      cases hrest
      rfl
    | native method =>
      cases hbody
      cases hrest
      rfl

namespace Host

variable {host : Host ν σ} {held : σ → List (Scope ν)} (hhost : host.Honest held)
  {levels depth rounds : Nat} {limits : Limits} {expr : Expr ν} {scope : Scope ν}
  {pending : List (Scope ν × String)} {machine after : Machine ν σ} {name : String}
  {result : Terminal ν}
include hhost

/-- The record of a pending identifier is the result at the end of the resolution, or it is settled
within a step on the way. -/
theorem settled_of_pending {owner : Scope ν} (hpending : (owner, name) ∈ pending)
    (hsound : (Activity.loop levels limits depth (.resolve rounds expr scope pending)
      machine).Sound held) (hsize : owner.number < machine.world.size)
    (hnone : machine.world.recordAt owner.number name = none)
    (hresolved : (host.engine levels limits).resolveLoop ((host.engine levels limits).nested depth)
      rounds expr scope pending machine = (.ok (.terminal result), after)) :
    ∃ recorded, after.world.recordAt owner.number name = some recorded ∧
      (recorded = result ∨ ∃ inner,
        host.Within levels limits depth (.resolve rounds expr scope pending) machine inner ∧
        host.Settles owner.number name recorded inner) := by
  induction rounds generalizing expr scope pending machine with
  | zero =>
    rw [Engine.resolveLoop, Run.exhaust_apply] at hresolved
    cases hresolved
  | succ rounds ih =>
    have hstep : (Loop.resolve (rounds + 1) expr scope pending).step? = some (expr, scope) := rfl
    have hstarts : host.Starts
        (.loop levels limits depth (.resolve (rounds + 1) expr scope pending) machine) 0 _ :=
      .step machine hstep
    have hexplains := host.explains hhost owner.number name (hstarts.begins hhost hsound).2
    have hends := hstarts.ends hhost hsound
    rw [Activity.leaves, Activity.leaves, Loop.leaves, hresolved] at hends
    rw [Host.Explains, Activity.leaves] at hexplains
    rw [Engine.resolveLoop_step, Run.bind_apply] at hresolved
    rcases houtcome : (host.engine levels limits).step ((host.engine levels limits).nested depth)
      expr scope machine with ⟨stop | outcome, turn⟩
    · rw [houtcome] at hresolved
      cases hresolved
    · rw [houtcome] at hresolved hends hexplains
      dsimp only at hresolved
      cases hturn : turn.world.recordAt owner.number name with
      | some found =>
        -- Something within the step was there first, and what it has recorded stays.
        refine ⟨found, hends.record hturn, .inr ?_⟩
        rcases hexplains.caused hnone hturn with ⟨inner, hinvolves, hsettles⟩ | hwrites
        · exact ⟨inner, .step (.refl _ _) hstep hinvolves, hsettles⟩
        · cases hwrites
      | none =>
        have hlater : owner.number < turn.world.size :=
          Nat.lt_of_lt_of_le hsize hexplains.grows.size
        have hrest {more : Loop ν}
            (hnext : (Loop.resolve (rounds + 1) expr scope pending).next? outcome = some more) :
            (Activity.loop levels limits depth more turn).Sound held :=
          ((Starts.next hstep houtcome hnext).begins hhost hsound).2
        cases outcome with
        | finished head =>
          cases head with
          | closure closure => cases hresolved
          | terminal last =>
            cases hresolved
            obtain ⟨found, hfound⟩ := World.memoizeAll_writes result hpending hlater
            obtain ⟨rfl, -⟩ := World.written_of_memoizeAll hturn hfound
            exact ⟨found, hfound, .inl rfl⟩
        | further next inner =>
          obtain ⟨recorded, hrecorded, hwhence⟩ := ih hpending (hrest rfl) hlater hturn hresolved
          refine ⟨recorded, hrecorded, hwhence.imp id ?_⟩
          rintro ⟨activity, hwithin, hsettles⟩
          exact ⟨activity, hwithin.of_next hstep houtcome rfl, hsettles⟩
        | binding own bound holder =>
          obtain ⟨recorded, hrecorded, hwhence⟩ :=
            ih (List.mem_cons_of_mem _ hpending) (hrest rfl) hlater hturn hresolved
          refine ⟨recorded, hrecorded, hwhence.imp id ?_⟩
          rintro ⟨activity, hwithin, hsettles⟩
          exact ⟨activity, hwithin.of_next hstep houtcome rfl, hsettles⟩

/-- What is recorded for an identifier when a resolution that has met it ends: what was recorded
before, which is then the result, or else the result or what was settled within a step. -/
theorem recorded_of_resolved
    (hsound : (Activity.loop levels limits depth (.resolve rounds (.identifier name) scope pending)
      machine).Sound held)
    (hresolved : (host.engine levels limits).resolveLoop ((host.engine levels limits).nested depth)
      rounds (.identifier name) scope pending machine = (.ok (.terminal result), after)) :
    ∃ bound owner recorded, scope.find name = .ok (bound, owner) ∧
      after.world.memoized owner name = some recorded ∧
      (machine.world.memoized owner name = some recorded ∧ recorded = result ∨
        machine.world.memoized owner name = none ∧ (recorded = result ∨ ∃ inner,
          host.Within levels limits depth (.resolve rounds (.identifier name) scope pending)
            machine inner ∧ host.Settles owner.number name recorded inner)) := by
  cases rounds with
  | zero =>
    rw [Engine.resolveLoop, Run.exhaust_apply] at hresolved
    cases hresolved
  | succ rounds =>
    have hgrows := hsound.grows hhost
    rw [Activity.leaves, Loop.leaves, hresolved] at hgrows
    rw [Engine.resolveLoop_step] at hresolved
    obtain ⟨outcome, turn, houtcome, hrest⟩ := Run.ok_of_bind hresolved
    obtain ⟨hturn, bound, owner, hfind, ⟨hnone, rfl⟩ | ⟨found, hfound, rfl⟩⟩ :=
      Engine.step_identifier houtcome
    · obtain ⟨howner, -⟩ := hsound.stored.head.find hsound.orderly.consistent hfind
      have hnext : host.Starts (.loop levels limits depth
          (.resolve (rounds + 1) (.identifier name) scope pending) machine) 1 _ :=
        .next rfl houtcome rfl
      have hworld : turn.world = machine.world.emit (.resolving (.identifier name)) := by rw [hturn]
      obtain ⟨recorded, hrecorded, hwhence⟩ := settled_of_pending hhost List.mem_cons_self
        (hnext.begins hhost hsound).2 (by rw [hworld]; exact howner.lt_size)
        (by rw [hworld]; exact hnone) hrest
      refine ⟨bound, owner, recorded, hfind, hrecorded, .inr ⟨hnone, hwhence.imp id ?_⟩⟩
      rintro ⟨inner, hwithin, hsettles⟩
      exact ⟨inner, hwithin.of_next rfl houtcome rfl, hsettles⟩
    · cases Engine.eq_of_resolveLoop_terminal hrest
      exact ⟨bound, owner, result, hfind, hgrows.record hfound, .inl ⟨hfound, rfl⟩⟩

end Host

section Sessions

variable {host : Host ν σ} {held : σ → List (Scope ν)} (hhost : host.Honest held)
include hhost

/-- When a resolution, anywhere in an evaluation of a session, ends in a value or a native method,
each identifier that it has met in tail position has a record, which stays for the rest of the
session. If it was there when the identifier was met, it is the result. Otherwise it is the result,
or that of a resolution of the same identifier which took place within a step of this one and ended
before it. -/
theorem World.Attained.first_settled {world : World ν σ} (hworld : Attained host held world)
    {levels : Nat} {limits : Limits} {request : Evaluation ν}
    (hrequest : world.StoresAll request.scopes) {innerLevels : Nat} {innerLimits : Limits}
    {depth rounds left : Nat} {expr : Expr ν} {name : String} {scope inner : Scope ν}
    {pending more : List (Scope ν × String)} {machine met after : Machine ν σ}
    {result : Terminal ν}
    (hinvolves : host.Involves (.evaluation levels limits request world)
      (.loop innerLevels innerLimits depth (.resolve rounds expr scope pending) machine))
    (hresolved : (host.engine innerLevels innerLimits).resolveLoop
      ((host.engine innerLevels innerLimits).nested depth) rounds expr scope pending machine =
        (.ok (.terminal result), after))
    (hmet : host.GoesOn innerLevels innerLimits depth (.resolve rounds expr scope pending) machine
      (.resolve left (.identifier name) inner more) met) :
    ∃ bound owner recorded, inner.find name = .ok (bound, owner) ∧
      after.world.memoized owner name = some recorded ∧
      (∀ later, host.After held (.evaluation levels limits request world)
        (.loop innerLevels innerLimits depth (.resolve rounds expr scope pending) machine) later →
        later.memoized owner name = some recorded) ∧
      (met.world.memoized owner name = some recorded ∧ recorded = result ∨
        met.world.memoized owner name = none ∧ (recorded = result ∨ ∃ activity,
          host.Within innerLevels innerLimits depth (.resolve left (.identifier name) inner more)
            met activity ∧
          host.Settles owner.number name recorded activity)) := by
  have horderly := hworld.orderly hhost
  have hloop := (hinvolves.begins hhost ⟨horderly, hrequest⟩).2
  have hleft := (hmet.involves.begins hhost hloop).2
  obtain ⟨bound, owner, recorded, hfind, hrecorded, hwhence⟩ :=
    host.recorded_of_resolved hhost hleft (hmet.resolves ▸ hresolved)
  refine ⟨bound, owner, recorded, hfind, hrecorded, fun later hlater => ?_, hwhence⟩
  have hgrows := hlater.grows hhost hinvolves horderly hrequest
  rw [Activity.leaves, Loop.leaves, hresolved] at hgrows
  exact hgrows.record hrecorded

end Sessions

/-! ## A resolution that is overtaken -/

/-- One more than itself at the first tick, and a hundred from the second one on. -/
def overtaken : Expr StandardNative :=
  .application
    (.application (.native ⟨"if", .choose⟩)
      [.application (.native ⟨"lt", .lt⟩)
        [.application (.native ⟨"tick", .tick⟩) [], .value ⟨.supplied 0, .integer .i64 2⟩],
      .lambda [.bare (.application (.native ⟨"add", .add⟩)
        [.identifier "x", .value ⟨.supplied 1, .integer .i64 1⟩])],
      .lambda [.bare (.value ⟨.supplied 2, .integer .i64 100⟩)]])
    []

def overtakenRoot : Scope StandardNative × World StandardNative HostState :=
  (World.initial .initial).newRoot (.ofList [("x", overtaken)])

def resolveOvertaken : Evaluated StandardNative HostState (Expr StandardNative) :=
  (standardHost.engine 2 ⟨40, 8⟩).evaluate (.resolve (.identifier "x") overtakenRoot.1)
    overtakenRoot.2

/-- Without a record before, the resolution comes to 101 and leaves 100 as the record. -/
theorem overtaken_keeps_inner :
    overtakenRoot.2.memoized overtakenRoot.1 "x" = none ∧
      (∃ identity, resolveOvertaken.outcome =
        .ok (.value ⟨identity, .integer .i64 101⟩)) ∧
      resolveOvertaken.world.memoized overtakenRoot.1 "x" =
        some (.value ⟨.supplied 2, .integer .i64 100⟩) :=
  ⟨rfl, ⟨_, rfl⟩, rfl⟩

/-- A resolution within one of its steps settles the record of the identifier. -/
theorem first_settled_overtaken :
    ∃ activity, standardHost.Within 2 ⟨40, 8⟩ 8
        (.resolve 40 (.identifier "x") overtakenRoot.1 []) ⟨0, overtakenRoot.2⟩ activity ∧
      standardHost.Settles overtakenRoot.1.number "x" (.value ⟨.supplied 2, .integer .i64 100⟩)
        activity := by
  have hroot : World.Performs standardHost Standard.heldScopes (.initial .initial)
      overtakenRoot.2 :=
    .makes (.root _ fun _ hm => absurd hm List.not_mem_nil) .nil
  have hstart : World.Attained standardHost Standard.heldScopes overtakenRoot.2 :=
    ⟨.initial, rfl, .single hroot⟩
  have hrequest : overtakenRoot.2.StoresAll
      (Evaluation.resolve (.identifier "x") overtakenRoot.1 : Evaluation StandardNative).scopes :=
    .cons rfl .nil
  obtain ⟨bound, owner, recorded, hfind, hrecorded, -, hwhence⟩ :=
    hstart.first_settled standardHost_honest hrequest
      (.single ⟨0, .request 2 ⟨40, 8⟩ (.resolve (.identifier "x") overtakenRoot.1)
        overtakenRoot.2⟩) rfl (.refl _ _)
  have howner : overtakenRoot.1.find "x" = .ok (overtaken, overtakenRoot.1) := rfl
  cases hfind.symm.trans howner
  have hkept : resolveOvertaken.world.memoized overtakenRoot.1 "x" =
      some (.value ⟨.supplied 2, .integer .i64 100⟩) := rfl
  cases hrecorded.symm.trans hkept
  rcases hwhence with ⟨hearlier, -⟩ | ⟨-, hresult | hwithin⟩
  · cases hearlier
  · cases hresult
  · exact hwithin

end CallByNeed
