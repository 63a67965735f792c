import CallByNeed.Proofs.Appliers.Silent
import CallByNeed.Proofs.Moves.Adequacy
import CallByNeed.Proofs.Moves.Budgets

/-! # Enclosed resolutions

A resolution that is a part of a larger evaluation makes the same moves as the resolution on its
own: what is left to do has the rest of the larger evaluation at its end (`Rest.onto`), and more
steps have been counted. The two differ only where a limit refuses one of them (`move_follows`).

With nothing at the end the two are one evaluation in two worlds, so no evaluation depends on the
log (`evaluate_matches`), and no native method of a host does (`Host.invokeAt_blind`).
-/

namespace CallByNeed
set_option autoImplicit false

variable {ν σ α : Type}

/-- A rest that goes on with another one where a resolution would be over. -/
def Rest.onto : {part : Part} → Rest ν part → Rest ν .head → Rest ν part
  | _, .resolved, bottom => bottom
  | _, .forced, _ => .forced
  | _, .interpreted, _ => .interpreted
  | _, .applied arguments scope, _ => .applied arguments scope
  | _, .operator arguments scope rest, bottom => .operator arguments scope (rest.onto bottom)
  | _, .argument callee done more scope rest, bottom =>
      .argument callee done more scope (rest.onto bottom)
  | _, .binding bound more table body scope rest, bottom =>
      .binding bound more table body scope (rest.onto bottom)
  | _, .toHead pending rest, bottom => .toHead pending (rest.onto bottom)
  | _, .toName rest, bottom => .toName (rest.onto bottom)
  | _, .lambda rest, bottom => .lambda (rest.onto bottom)
  | _, .closed, _ => .closed
  | _, .step rest, bottom => .step (rest.onto bottom)
  | _, .called, _ => .called

def Control.onto (control : Control ν) (bottom : Rest ν .head) : Control ν :=
  match control with
  | .enter expr scope rest => .enter expr scope (rest.onto bottom)
  | .enterName expr scope rest => .enterName expr scope (rest.onto bottom)
  | .position expr scope rest => .position expr scope (rest.onto bottom)
  | .count expr scope rest => .count expr scope (rest.onto bottom)
  | .report expr scope rest => .report expr scope (rest.onto bottom)
  | .reduce expr scope rest => .reduce expr scope (rest.onto bottom)
  | .outcome result rest => .outcome result (rest.onto bottom)
  | .head result rest => .head result (rest.onto bottom)
  | .name result rest => .name result (rest.onto bottom)
  | .close items scope rest => .close items scope (rest.onto bottom)
  | .bind bindings table body scope rest => .bind bindings table body scope (rest.onto bottom)
  | .closure result rest => .closure result (rest.onto bottom)
  | .arguments callee done more scope rest => .arguments callee done more scope (rest.onto bottom)
  | .hand callee handed scope rest => .hand callee handed scope (rest.onto bottom)
  | .raise stop rest => .raise stop (rest.onto bottom)
  | .ended result => .ended result

theorem Rest.onto_resolved : {part : Part} → (rest : Rest ν part) → rest.onto .resolved = rest
  | _, .resolved | _, .forced | _, .interpreted | _, .applied _ _ => rfl
  | _, .operator arguments scope rest => congrArg (Rest.operator arguments scope) rest.onto_resolved
  | _, .argument callee done more scope rest =>
      congrArg (Rest.argument callee done more scope) rest.onto_resolved
  | _, .binding bound more table body scope rest =>
      congrArg (Rest.binding bound more table body scope) rest.onto_resolved
  | _, .toHead pending rest => congrArg (Rest.toHead pending) rest.onto_resolved
  | _, .toName rest => congrArg Rest.toName rest.onto_resolved
  | _, .lambda rest => congrArg Rest.lambda rest.onto_resolved
  | _, .closed => rfl
  | _, .step rest => congrArg Rest.step rest.onto_resolved
  | _, .called => rfl

theorem Control.onto_resolved (control : Control ν) : control.onto .resolved = control := by
  cases control <;> simp only [Control.onto, Rest.onto_resolved]

/-- A resolution of its own is over. -/
def Control.IsOver : Control ν → Prop
  | .head _ rest => rest = .resolved
  | @Control.raise _ .head _ rest => rest = .resolved
  | _ => False

/-- The second moment is the first one with a rest at its end and so many more steps counted. -/
structure Moment.Follows (bottom : Rest ν .head) (lead : Nat) (moment moment' : Moment ν σ) :
    Prop where
  control : moment'.control = moment.control.onto bottom
  machine : Machine.Ahead lead moment.machine moment'.machine

/-! ## Moves -/

namespace Moment

variable {bottom : Rest ν .head} {lead : Nat} {machine machine' : Machine ν σ}
  (h : Machine.Ahead lead machine machine')
include h

theorem follows_afterRun {part : Part} {run : Run ν σ α} (hrun : run.Blind)
    {next next' : α → Control ν} {rest rest' : Rest ν part}
    (hnext : ∀ result, next' result = (next result).onto bottom) (hrest : rest' = rest.onto bottom) :
    (afterRun run next rest machine).Follows bottom lead (afterRun run next' rest' machine') := by
  subst hrest
  obtain ⟨houtcome, hafter⟩ := hrun lead machine machine' h
  unfold afterRun
  rcases hfirst : run machine with ⟨stop | result, after⟩
  · rcases hsecond : run machine' with ⟨outcome, after'⟩
    rw [hfirst, hsecond] at houtcome hafter
    cases houtcome
    exact ⟨rfl, hafter⟩
  · rcases hsecond : run machine' with ⟨outcome, after'⟩
    rw [hfirst, hsecond] at houtcome hafter
    cases houtcome
    exact ⟨hnext result, hafter⟩

/-- The end of a program's evaluation reports its own count of steps. -/
theorem matches_finished : (machine.world.emit (.finished machine.steps)).Matches
    (machine'.world.emit (.finished machine'.steps)) :=
  (World.matches_emit machine.world rfl).symm.trans
    (h.world.trans (World.matches_emit machine'.world rfl))

theorem follows_finished (result : Terminal ν) :
    (finished result machine).Follows bottom lead (finished result machine') := by
  have hworld := matches_finished h
  cases result with
  | value value => exact ⟨rfl, h.steps, hworld⟩
  | native method =>
    obtain ⟨hvalue, hafter⟩ := World.blind_buildValue (.native method) _ _ hworld
    exact ⟨congrArg (fun value => Control.ended (.ok (.value value))) hvalue, h.steps, hafter⟩

theorem follows_ofOperator (head : Head ν) (arguments : List (Expr ν)) (scope : Scope ν) :
    (ofOperator head arguments scope machine).Follows bottom lead
      (ofOperator head arguments scope machine') := by
  rw [ofOperator, ofOperator]
  cases arguments.findSome? Expr.failure? with
  | some failure => exact ⟨rfl, h⟩
  | none => rcases head with (value | method) | closure <;> exact ⟨rfl, h⟩

theorem follows_ofHead (head : Head ν) (rest : Rest ν .head)
    (hrest : bottom = .resolved ∨ rest ≠ .resolved) :
    (ofHead head rest machine).Follows bottom lead (ofHead head (rest.onto bottom) machine') := by
  cases rest with
  | resolved =>
    obtain rfl : bottom = .resolved := hrest.resolve_right fun hne => hne rfl
    exact ⟨rfl, h⟩
  | forced =>
    cases head with
    | terminal result => exact ⟨rfl, h⟩
    | closure closure =>
      rw [Rest.onto, ofHead, ofHead]
      exact follows_afterRun h (Run.blind_emit _) (fun _ => rfl) rfl
  | interpreted =>
    cases head with
    | terminal result => exact follows_finished h result
    | closure closure =>
      rw [Rest.onto, ofHead, ofHead]
      exact follows_afterRun h (Run.blind_emit _) (fun _ => rfl) rfl
  | applied arguments scope => exact follows_ofOperator h head arguments scope
  | operator arguments scope rest =>
    rcases head with (value | method) | closure
    · rw [Rest.onto, ofHead, ofHead]
      exact follows_afterRun h (Run.blind_emit _) (fun _ => rfl) rfl
    · exact ⟨rfl, h⟩
    · exact ⟨rfl, h⟩
  | argument callee done more scope rest => exact ⟨rfl, h⟩

theorem follows_ofOutcome (outcome : Outcome ν) (rest : Rest ν .outcome) :
    (ofOutcome outcome rest machine).Follows bottom lead
      (ofOutcome outcome (rest.onto bottom) machine') := by
  cases rest with
  | toHead pending rest =>
    cases outcome with
    | finished head => exact follows_afterRun h (Run.blind_record head pending) (fun _ => rfl) rfl
    | further next inner => exact ⟨rfl, h⟩
    | binding name bound owner => exact ⟨rfl, h⟩
  | toName rest =>
    cases outcome with
    | finished head =>
      rw [Rest.onto, ofOutcome, ofOutcome]
      cases head.name? <;> exact ⟨rfl, h⟩
    | further next inner => exact ⟨rfl, h⟩
    | binding name bound owner => exact ⟨rfl, h⟩

theorem follows_ofStep (expr : Expr ν) (scope : Scope ν) (rest : Rest ν .outcome) :
    (ofStep expr scope rest machine).Follows bottom lead
      (ofStep expr scope (rest.onto bottom) machine') := by
  cases expr with
  | identifier name =>
    exact follows_afterRun h (Run.blind_stepIdentifier name scope) (fun _ => rfl) rfl
  | _ => exact ⟨rfl, h⟩

theorem follows_ofStop (stop : Stop) {part : Part} (rest : Rest ν part)
    (hrest : bottom = .resolved ∨ ¬(Control.raise stop rest).IsOver) :
    (ofStop stop rest machine).Follows bottom lead (ofStop stop (rest.onto bottom) machine') := by
  cases rest with
  | resolved =>
    obtain rfl : bottom = .resolved := hrest.resolve_right fun hne => hne rfl
    exact ⟨rfl, h⟩
  | interpreted => exact ⟨rfl, h.steps, matches_finished h⟩
  | _ => exact ⟨rfl, h⟩

end Moment

namespace Engine

variable {engine : Engine ν σ} {bottom : Rest ν .head} {lead : Nat} {moment moment' : Moment ν σ}

theorem blind_permit (depth : Nat) : (engine.permit depth : Run ν σ Unit).Blind := by
  rw [permit]
  by_cases h : engine.limits.maxDepth < depth
  · rw [if_pos h]
    exact Run.blind_throw _
  · rw [if_neg h]
    exact Run.blind_pure ()

theorem permit_congr {depth depth' : Nat}
    (h : engine.limits.maxDepth < depth ↔ engine.limits.maxDepth < depth') :
    (engine.permit depth' : Run ν σ Unit) = engine.permit depth := by
  rw [permit, permit]
  exact if_congr h.symm rfl rfl

/-- The limits refuse the one what they refuse the other. -/
def RefusesAlike (engine : Engine ν σ) (moment moment' : Moment ν σ) : Prop :=
  (engine.RefusesStep moment ↔ engine.RefusesStep moment') ∧
    (engine.RefusesLoop moment ↔ engine.RefusesLoop moment')

/-- An enclosed resolution makes the moves of the resolution on its own. -/
theorem move_follows (hblind : engine.invoke.Blind) (h : moment.Follows bottom lead moment')
    (hover : bottom = .resolved ∨ ¬moment.control.IsOver)
    (hrefuses : engine.RefusesAlike moment moment') :
    (engine.move moment).Follows bottom lead (engine.move moment') := by
  obtain ⟨control, machine⟩ := moment
  obtain ⟨control', machine'⟩ := moment'
  obtain ⟨hcontrol, hmachine⟩ := h
  obtain rfl : control' = control.onto bottom := hcontrol
  replace hmachine : Machine.Ahead lead machine machine' := hmachine
  cases control with
  | enter expr scope rest =>
    rw [Control.onto, move, move, permit_congr hrefuses.2]
    exact Moment.follows_afterRun hmachine (blind_permit _) (fun _ => rfl) rfl
  | enterName position scope rest =>
    rw [Control.onto, move, move, permit_congr hrefuses.2]
    exact Moment.follows_afterRun hmachine (blind_permit _) (fun _ => rfl) rfl
  | position position scope rest =>
    rw [Control.onto, move, move]
    cases position.identifier? with
    | some name => exact Moment.follows_afterRun hmachine (Run.blind_ownName name) (fun _ => rfl) rfl
    | none => exact ⟨rfl, hmachine⟩
  | count expr scope rest =>
    have hahead : Machine.Ahead lead ⟨machine.steps + 1, machine.world⟩
        ⟨machine'.steps + 1, machine'.world⟩ := by
      refine ⟨?_, hmachine.world⟩
      rw [hmachine.steps, Nat.add_right_comm]
    by_cases hstep : engine.limits.maxSteps < machine.steps + 1
    · rw [move_count_exhausted hstep, Control.onto, move_count_exhausted (hrefuses.1.1 hstep)]
      exact ⟨rfl, hahead⟩
    · rw [move_count_allowed hstep, Control.onto,
        move_count_allowed fun hstep' => hstep (hrefuses.1.2 hstep')]
      exact ⟨rfl, hahead⟩
  | report expr scope rest =>
    rw [Control.onto, move, move]
    exact Moment.follows_afterRun hmachine (Run.blind_emit _) (fun _ => rfl) rfl
  | reduce expr scope rest => exact Moment.follows_ofStep hmachine expr scope rest
  | outcome outcome rest => exact Moment.follows_ofOutcome hmachine outcome rest
  | head head rest => exact Moment.follows_ofHead hmachine head rest hover
  | name name rest =>
    cases rest with
    | binding bound more table body scope rest =>
      exact Moment.follows_afterRun hmachine (Run.blind_reportRebound name table) (fun _ => rfl) rfl
  | close items scope rest =>
    rw [Control.onto, move, move]
    cases Lambda.parts items <;> exact ⟨rfl, hmachine⟩
  | bind bindings table body scope rest =>
    cases bindings with
    | nil =>
      rw [Control.onto, move, move]
      exact Moment.follows_afterRun hmachine (Run.blind_closing table body scope) (fun _ => rfl) rfl
    | cons binding more => exact ⟨rfl, hmachine⟩
  | closure closure rest => cases rest <;> exact ⟨rfl, hmachine⟩
  | arguments callee done more scope rest => cases more <;> exact ⟨rfl, hmachine⟩
  | hand callee arguments scope rest =>
    cases callee with
    | native method =>
      rw [Control.onto, move, move]
      refine Moment.follows_afterRun hmachine (Run.blind_callNative hblind method arguments scope)
        (fun result => ?_) rfl
      cases rest <;> rfl
    | closure closure =>
      rw [Control.onto, move, move]
      refine Moment.follows_afterRun hmachine (Run.blind_call closure arguments scope)
        (fun frame => ?_) rfl
      cases rest <;> rfl
  | raise stop rest => exact Moment.follows_ofStop hmachine stop rest hover
  | ended outcome => exact ⟨rfl, hmachine⟩

/-- As long as the resolution is not over, and no limit refuses only one of the two. -/
theorem after_follows (hblind : engine.invoke.Blind) (h : moment.Follows bottom lead moment')
    (moves : Nat)
    (hover : bottom = .resolved ∨ ∀ earlier < moves, ¬(engine.after earlier moment).control.IsOver)
    (hrefuses : ∀ earlier < moves,
      (engine.after earlier moment).Follows bottom lead (engine.after earlier moment') →
      engine.RefusesAlike (engine.after earlier moment) (engine.after earlier moment')) :
    (engine.after moves moment).Follows bottom lead (engine.after moves moment') := by
  induction moves with
  | zero => exact h
  | succ moves ih =>
    have hbefore := ih (hover.imp_right fun hover earlier hlt => hover earlier (Nat.lt_succ_of_lt hlt))
      fun earlier hlt => hrefuses earlier (Nat.lt_succ_of_lt hlt)
    rw [after_succ, after_succ]
    exact move_follows hblind hbefore
      (hover.imp_right fun hover => hover moves (Nat.lt_succ_self moves))
      (hrefuses moves (Nat.lt_succ_self moves) hbefore)

/-! ## Evaluations that differ in their logs -/

/-- With nothing at the end and nothing counted before, the limits refuse the same. -/
theorem refusesAlike_of_follows (h : moment.Follows .resolved 0 moment') :
    engine.RefusesAlike moment moment' := by
  obtain ⟨control, machine⟩ := moment
  obtain ⟨control', machine'⟩ := moment'
  obtain ⟨hcontrol, hsteps, -⟩ := h
  obtain rfl : control = control' := (hcontrol.trans control.onto_resolved).symm
  replace hsteps : machine'.steps = machine.steps := hsteps
  constructor
  · cases control with
    | count expr scope rest =>
      show _ < machine.steps + 1 ↔ _ < machine'.steps + 1
      rw [hsteps]
    | _ => exact Iff.rfl
  · cases control <;> exact Iff.rfl

/-- An evaluation does not depend on the log, and all that it does to the log does not either. -/
theorem evaluate_matches (hblind : engine.invoke.Blind) (request : Evaluation ν)
    {world world' : World ν σ} (h : world.Matches world') :
    (engine.evaluate request world').outcome = (engine.evaluate request world).outcome ∧
    (engine.evaluate request world').steps = (engine.evaluate request world).steps ∧
    (engine.evaluate request world).world.Matches (engine.evaluate request world').world := by
  obtain ⟨moves, hover⟩ := evaluate_over engine request world
  obtain ⟨moves', hover'⟩ := evaluate_over engine request world'
  have hstart : (request.start world).Follows .resolved 0 (request.start world') :=
    ⟨(Control.onto_resolved _).symm, rfl, h⟩
  have hafter := after_follows hblind hstart (moves + moves') (.inl rfl)
    fun _ _ => refusesAlike_of_follows
  rw [hover _ (Nat.le_add_right _ _), hover' _ (Nat.le_add_left _ _)] at hafter
  exact ⟨Control.ended.inj hafter.control, hafter.machine.steps, hafter.machine.world⟩

end Engine

/-! ## Hosts -/

/-- A host's program can read frames, records and steps, but not the log. -/
theorem Program.run_blind {invoke : Invoke ν σ} (hblind : invoke.Blind) (program : Program ν σ) :
    World.Blind (program.run invoke) := by
  induction program with
  | done result => exact fun world world' h => ⟨rfl, h⟩
  | newValue payload next ih => exact (World.blind_buildValue payload).bind ih
  | newRoot bindings next ih =>
    exact (World.blind_newScope fun number => .root number bindings).bind ih
  | newThunk deferred calling next ih =>
    exact (World.blind_newScope fun number => .thunk number deferred calling).bind ih
  | newCall closure arguments calling next ih =>
    exact (World.blind_newCall closure arguments calling).bind ih
  | memoized scope name next ih =>
    intro world world' h
    rw [run, run, h.memoized scope name]
    exact ih _ world world' h
  | host change next ih =>
    exact (World.blind_updateHost fun state => (state, change state)).bind ih
  | evaluate limits request next ih =>
    intro world world' h
    obtain ⟨houtcome, hsteps, hafter⟩ :=
      Engine.evaluate_matches (show Invoke.Blind (Engine.invoke ⟨limits, invoke⟩) from hblind) request h
    rw [run, run, Evaluated.result, Evaluated.result, Evaluated.reported, Evaluated.reported,
      houtcome, hsteps]
    exact ih _ _ _ _ hafter

theorem Host.invokeAt_blind (host : Host ν σ) (levels : Nat) : (host.invokeAt levels).Blind := by
  induction levels with
  | zero => exact fun method arguments scope world world' h => ⟨rfl, h⟩
  | succ levels ih => exact fun method arguments scope => Program.run_blind ih _

end CallByNeed
