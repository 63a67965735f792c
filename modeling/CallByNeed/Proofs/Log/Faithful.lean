import CallByNeed.Proofs.Frames.Honest
import CallByNeed.Proofs.Log.Moves
import CallByNeed.Proofs.Log.Texts
import CallByNeed.Proofs.Moves.Adequacy

/-! # The log as an account of an evaluation

Move by move the log grows by records of what the move does, so at the end of an evaluation it tells
what all the moves did: `Engine.log_faithful`. This is so however the evaluation ends, for a stop is
handed outwards by moves like any other.

What the moves did is read off the moments of the evaluation, not off the log. Two other sources
agree with it: a host that keeps a ledger of its own native calls, and the frames that are there at
the end.
-/

namespace CallByNeed
set_option autoImplicit false

variable {ν σ : Type}

/-- Each native call is entered into the ledger that the host keeps. -/
def Invoke.Enters (invoke : Invoke ν σ) (ledger : σ → List (Visit ν)) : Prop :=
  ∀ method arguments scope world,
    ledger (invoke method arguments scope world).2.host =
      ledger world.host ++ [⟨method, arguments, scope, (invoke method arguments scope world).1⟩]

/-- Native methods make no frames. -/
def Invoke.Frameless (invoke : Invoke ν σ) : Prop :=
  ∀ method arguments scope world, (invoke method arguments scope world).2.frames = world.frames

namespace Engine

variable {engine : Engine ν σ} {moment : Moment ν σ} {told : List (Event ν)}

/-- The moments in which so many moves are made, from a first one on. -/
def course (engine : Engine ν σ) (moves : Nat) (start : Moment ν σ) : List (Moment ν σ) :=
  (List.range moves).map fun done => engine.after done start

theorem course_succ (moves : Nat) (start : Moment ν σ) :
    engine.course (moves + 1) start = engine.course moves start ++ [engine.after moves start] := by
  rw [course, List.range_succ, List.map_append]
  rfl

theorem filterMap_course_succ {α : Type} (pick : Moment ν σ → Option α) (moves : Nat)
    (start : Moment ν σ) :
    (engine.course (moves + 1) start).filterMap pick =
      (engine.course moves start).filterMap pick ++ (pick (engine.after moves start)).toList := by
  rw [course_succ, List.filterMap_append]
  cases hpick : pick (engine.after moves start) with
  | none => rw [List.filterMap_cons_none hpick]; rfl
  | some picked => rw [List.filterMap_cons_some hpick]; rfl

theorem flatMap_course_succ {α : Type} (pick : Moment ν σ → List α) (moves : Nat)
    (start : Moment ν σ) :
    (engine.course (moves + 1) start).flatMap pick =
      (engine.course moves start).flatMap pick ++ pick (engine.after moves start) := by
  rw [course_succ, List.flatMap_append, List.flatMap_singleton]

/-! ## What the host sees -/

theorem eq_hand_of_visit {visit : Visit ν} (h : engine.visit? moment = some visit) :
    ∃ rest, moment =
        ⟨.hand (.native visit.method) visit.arguments visit.scope rest, moment.machine⟩ ∧
      visit.result = (engine.invoke visit.method visit.arguments visit.scope
        (moment.machine.world.emit (.invoking visit.method visit.arguments visit.scope))).1 := by
  unfold visit? at h
  split at h
  · cases h
    exact ⟨_, rfl, rfl⟩
  · cases h

theorem Does.ledger (h : engine.Does moment told) {ledger : σ → List (Visit ν)}
    (hledger : engine.invoke.Enters ledger) :
    ledger (engine.move moment).machine.world.host =
      ledger moment.machine.world.host ++ (engine.visit? moment).toList := by
  cases hvisit : engine.visit? moment with
  | none =>
    rw [h.host hvisit]
    exact (List.append_nil _).symm
  | some visit =>
    obtain ⟨method, arguments, scope, result⟩ := visit
    obtain ⟨rest, hmoment, hresult⟩ := eq_hand_of_visit hvisit
    dsimp only at hmoment hresult
    rw [hmoment, hresult]
    exact hledger method arguments scope _

theorem Does.frames_of_frameless (h : engine.Does moment told)
    (hframeless : engine.invoke.Frameless) :
    (engine.move moment).machine.world.frames =
      moment.machine.world.frames ++ engine.made moment := by
  cases hvisit : engine.visit? moment with
  | none => exact h.frames hvisit
  | some visit =>
    obtain ⟨rest, hmoment, -⟩ := eq_hand_of_visit hvisit
    rw [made, hvisit, List.append_nil, hmoment]
    exact hframeless visit.method visit.arguments visit.scope _

/-! ## Any number of moves -/

/-- The records account for so many moves. -/
structure Accounts (engine : Engine ν σ) (start : Moment ν σ) (moves : Nat)
    (told : List (Event ν)) : Prop where
  events : (engine.after moves start).machine.world.events.toList =
    start.machine.world.events.toList ++ told
  tells : Tells told ((engine.course moves start).filterMap engine.visit?)
    ((engine.course moves start).flatMap engine.made)
    ((engine.course moves start).filterMap engine.entered?)
  ledger : ∀ ledger : σ → List (Visit ν), engine.invoke.Enters ledger →
    ledger (engine.after moves start).machine.world.host =
      ledger start.machine.world.host ++ (engine.course moves start).filterMap engine.visit?
  frames : engine.invoke.Frameless → (engine.after moves start).machine.world.frames =
    start.machine.world.frames ++ (engine.course moves start).flatMap engine.made
  steps : told.countP Event.isStep + (engine.after moves start).control.owes +
      min start.machine.steps engine.limits.maxSteps =
    min (engine.after moves start).machine.steps engine.limits.maxSteps + start.control.owes

namespace Accounts

variable {start : Moment ν σ} {moves : Nat}

theorem zero : engine.Accounts start 0 [] where
  events := (List.append_nil _).symm
  tells := .nothing
  ledger := fun _ _ => (List.append_nil _).symm
  frames := fun _ => (List.append_nil _).symm
  steps := by
    have hafter : engine.after 0 start = start := rfl
    rw [hafter, List.countP_nil]
    omega

theorem succ {more : List (Event ν)} (h : engine.Accounts start moves told)
    (hmove : engine.Does (engine.after moves start) more) :
    engine.Accounts start (moves + 1) (told ++ more) where
  events := by rw [after_succ, hmove.events, h.events, List.append_assoc]
  tells := by
    rw [filterMap_course_succ, flatMap_course_succ, filterMap_course_succ]
    exact h.tells.append hmove.tells
  ledger := fun ledger hledger => by
    rw [after_succ, hmove.ledger hledger, h.ledger ledger hledger, filterMap_course_succ,
      List.append_assoc]
  frames := fun hframeless => by
    rw [after_succ, hmove.frames_of_frameless hframeless, h.frames hframeless,
      flatMap_course_succ, List.append_assoc]
  steps := by
    have hbefore := h.steps
    have hlast := hmove.steps
    rw [after_succ, List.countP_append]
    omega

end Accounts

/-- Any number of moves is accounted for. -/
theorem exists_accounts (hsilent : engine.invoke.Silent) (start : Moment ν σ) (moves : Nat) :
    ∃ told, engine.Accounts start moves told := by
  induction moves with
  | zero => exact ⟨[], .zero⟩
  | succ moves ih =>
    obtain ⟨told, h⟩ := ih
    obtain ⟨more, hmove⟩ := move_does hsilent (engine.after moves start)
    exact ⟨told ++ more, h.succ hmove⟩

end Engine

/-! ## Whole evaluations -/

theorem Evaluation.owes_first (request : Evaluation ν) : request.first.owes = 0 := by
  cases request <;> rfl

/-- What a host does beside evaluations leaves no records. -/
theorem Program.events_advance {invoke : Invoke ν σ} {program more : Program ν σ}
    {world after : World ν σ}
    (hprogram : ∀ limits request next, program ≠ .evaluate limits request next)
    (h : program.advance invoke world = some (more, after)) : after.events = world.events := by
  cases program with
  | done result => cases h
  | newCall closure arguments calling next =>
    cases h
    show (world.newCall closure arguments calling).2.events = world.events
    rw [World.newCall_eq]
    rfl
  | evaluate limits request next => exact absurd rfl (hprogram limits request next)
  | _ => cases h; rfl

/-- The log of an evaluation is an account of its moves, from any world and however it ends, if
native methods leave no records themselves. There is a record for each step within the budget, and
the two records of each native call stand side by side. The calls that a host enters into a ledger
are these, and the frames made are all that there are in addition, but for those that native methods
make. The second record of a native call says that there is a result exactly if there is a value, a
native method or a failure. Nothing but evaluations leaves records. All this can be read off the
texts: a text opens with the words of a kind exactly if the record is of that kind, and it says what
step was taken, what was called with which arguments, what was closed over or what was forced. -/
theorem Engine.log_faithful (engine : Engine ν σ) (hsilent : engine.invoke.Silent) :
    (∀ (request : Evaluation ν) (world : World ν σ), ∃ moves told,
      let evaluated := engine.evaluate request world
      let course := engine.course moves (request.start world)
      engine.after moves (request.start world) = evaluated.moment ∧
        evaluated.world.events.toList = world.events.toList ++ told ∧
        told.countP Event.isStep = min evaluated.steps engine.limits.maxSteps ∧
        Tells told (course.filterMap engine.visit?) (course.flatMap engine.made)
          (course.filterMap engine.entered?) ∧
        (∀ ledger : σ → List (Visit ν), engine.invoke.Enters ledger →
          ledger evaluated.world.host = ledger world.host ++ course.filterMap engine.visit?) ∧
        (engine.invoke.Frameless →
          evaluated.world.frames = world.frames ++ course.flatMap engine.made)) ∧
      (∀ (program more : Program ν σ) (world after : World ν σ),
        (∀ limits request next, program ≠ .evaluate limits request next) →
        program.advance engine.invoke world = some (more, after) → after.events = world.events) ∧
      (∀ (method : Native ν) (result : Expr ν),
        let message := (Event.returned method result).message
        let settled := (∃ value, result = .value value) ∨ (∃ method, result = .native method) ∨
          ∃ failure, result = .failure failure
        (message = "Call to " ++ method.name ++ " resulted in " ++ result.display ↔ settled) ∧
          (message = "Call to " ++ method.name ++ " needs further resolution: " ++ result.display ↔
            ¬settled)) ∧
      ∀ (event : Event ν) (kind : Event.Kind),
        event.Opens kind.words ↔ Event.Says kind event event.message := by
  refine ⟨fun request world => ?_, fun _ _ _ _ => Program.events_advance,
    fun method result => ?_, Event.opens_iff_says⟩
  · obtain ⟨moves, hend⟩ := engine.evaluate_reached request world
    obtain ⟨told, h⟩ := exists_accounts hsilent (request.start world) moves
    have hevents := h.events
    have hsteps := h.steps
    have hledger := h.ledger
    have hframes := h.frames
    rw [hend] at hevents hsteps hledger hframes
    have hstart : (request.start world).control.owes = 0 := request.owes_first
    have howes : (engine.evaluate request world).moment.control.owes = 0 := rfl
    have hzero : (request.start world).machine.steps = 0 := rfl
    rw [hstart, howes, hzero, Nat.zero_min] at hsteps
    exact ⟨moves, told, hend, hevents, hsteps, h.tells, hledger, hframes⟩
  · have hsettled := result.isTerminal_iff
    exact ⟨(Event.message_resulted_iff method).trans hsettled,
      (Event.message_further_iff method).trans (not_congr hsettled)⟩

/-- A host whose native methods give back their first argument and are entered into a ledger. -/
def noting : Invoke Unit (List (Visit Unit)) := fun method arguments scope world =>
  let result := arguments.headD (.failure (.native "no argument"))
  (result, ⟨world.cells, world.values, world.host ++ [⟨method, arguments, scope, result⟩],
    world.events⟩)

/-- A closure called with a block, which its native method gives back. -/
def blockGivenBack : Expr Unit :=
  .application (.lambda [.bare (.application (.native ⟨"first", ()⟩) [.identifier "$0"])])
    [.lambda [.bare (.failure .rootScopeMisuse)]]

/-- The budget runs out right after the block is entered. The log tells of nine steps, of one native
call, which is in the ledger, of two closures and a call, and of the block. It tells nothing of the
root that the host has made before. -/
theorem Engine.log_faithful_outOfSteps :
    let engine : Engine Unit (List (Visit Unit)) := ⟨⟨9, 4⟩, noting⟩
    let root := World.newRoot .empty (World.initial [])
    let evaluated := engine.evaluate (.force blockGivenBack root.1) root.2
    let told := evaluated.world.events.toList
    engine.invoke.Silent ∧ evaluated.isCut = true ∧ evaluated.steps = 10 ∧
      told.countP Event.isStep = 9 ∧
      evaluated.world.host.length = 1 ∧ Paired told evaluated.world.host ∧
      (told.filterMap Event.creation?).length = 3 ∧
      told.filterMap Event.creation? = evaluated.world.frames.filterMap Scope.creation? ∧
      (told.filterMap Event.forced?).length = 1 ∧
      root.2.events = #[] := by
  intro engine root evaluated told
  have hsilent : engine.invoke.Silent := fun _ _ _ _ => rfl
  have henters : engine.invoke.Enters id := fun _ _ _ _ => rfl
  have hframeless : engine.invoke.Frameless := fun _ _ _ _ => rfl
  obtain ⟨hevaluations, hothers, -⟩ := engine.log_faithful hsilent
  obtain ⟨moves, records, -, hevents, hsteps, htells, hledger, hframes⟩ :=
    hevaluations (.force blockGivenBack root.1) root.2
  have hcount : evaluated.steps = 10 := by decide +kernel
  have htold : told = records := hevents
  have hhost : evaluated.world.host = _ := hledger id henters
  have hmade : evaluated.world.frames = root.2.frames ++ _ := hframes hframeless
  refine ⟨hsilent, by decide +kernel, hcount, ?_, by decide +kernel, ?_, by decide +kernel, ?_,
    by decide +kernel, ?_⟩
  · rw [htold, hsteps]
    show min evaluated.steps 9 = 9
    rw [hcount]
    rfl
  · rw [htold, hhost]
    exact htells.visits
  · rw [htold, htells.creations, hmade]
    rfl
  · exact hothers (.newRoot .empty fun root => .done (.scope root)) _ (World.initial []) _ nofun rfl

end CallByNeed
