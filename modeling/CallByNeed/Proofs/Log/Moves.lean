import CallByNeed.Proofs.Moves.Basic
import CallByNeed.Proofs.Worlds.Additions
import CallByNeed.Proofs.Worlds.History

/-! # What a move leaves in the log

A move of an evaluation calls a native method, makes frames, enters a closure to force it, or does
none of this. What it does can be seen without the log: by what is handed to native methods
(`Engine.visit?`), by the frames that are there afterwards (`Engine.made`), and by what is resolved
next (`Engine.entered?`). The records that the move leaves tell exactly that (`Tells`), as long as
native methods leave none themselves (`Engine.move_does`).

A step is counted in one move and recorded in the next one. In between the log owes a record.
-/

namespace CallByNeed
set_option autoImplicit false

variable {ν σ α : Type}

/-! ## Records -/

/-- A native call and what it came to. -/
structure Visit (ν : Type) where
  method : Native ν
  arguments : List (Expr ν)
  scope : Scope ν
  result : Expr ν

/-- What the log tells of a new frame. -/
inductive Creation (ν : Type) where
  | call (body : Expr ν) (arguments : List (Expr ν))
  | closure (bindings : Nat) (body : Expr ν)

namespace Event

def isStep : Event ν → Bool
  | .resolving _ => true
  | _ => false

/-- Whether the record is one of the two that a native call leaves. -/
def isOfVisit : Event ν → Bool
  | .invoking _ _ _ | .returned _ _ => true
  | _ => false

/-- The new frame that is recorded, if it is one. -/
def creation? : Event ν → Option (Creation ν)
  | .calling body arguments => some (.call body arguments)
  | .closing bindings body => some (.closure bindings body)
  | _ => none

/-- The closure that is recorded as forced. -/
def forced? : Event ν → Option (Scope ν)
  | .forcing closure => some closure
  | _ => none

end Event

/-- What a thunk defers. -/
def Expr.deferred : Expr ν → Expr ν
  | .scope thunk => thunk.body
  | expr => expr

/-- What the log is to tell of a frame: the call with its arguments, or the closure. Nothing is told
of thunks, which come with their call, or of roots, which no evaluation makes. -/
def Scope.creation? (frame : Scope ν) : Option (Creation ν) :=
  match frame.kind with
  | .call => some (.call frame.body ((frame.arguments?.getD []).map Expr.deferred))
  | .closure => some (.closure frame.bindings.size frame.body)
  | .thunk | .root => none

/-- Each native call has its two records side by side, and there are no such records beside. -/
inductive Paired : List (Event ν) → List (Visit ν) → Prop where
  | nil : Paired [] []
  | other {event : Event ν} {told : List (Event ν)} {visits : List (Visit ν)}
      (hevent : event.isOfVisit = false) (hrest : Paired told visits) :
      Paired (event :: told) visits
  | visit (visit : Visit ν) {told : List (Event ν)} {visits : List (Visit ν)}
      (hrest : Paired told visits) :
      Paired (.invoking visit.method visit.arguments visit.scope ::
        .returned visit.method visit.result :: told) (visit :: visits)

theorem Paired.append {first second : List (Event ν)} {visits more : List (Visit ν)}
    (h : Paired first visits) (h' : Paired second more) :
    Paired (first ++ second) (visits ++ more) := by
  induction h with
  | nil => exact h'
  | other hevent hrest ih => exact .other hevent ih
  | visit visit hrest ih => exact .visit visit ih

/-- The records tell of these native calls, of the frames of calls and closures among those made,
and of the closures that were entered to force them, of each in its order and of nothing else. -/
structure Tells (told : List (Event ν)) (visits : List (Visit ν)) (made entered : List (Scope ν)) :
    Prop where
  visits : Paired told visits
  creations : told.filterMap Event.creation? = made.filterMap Scope.creation?
  forcings : told.filterMap Event.forced? = entered

namespace Tells

theorem nothing : Tells ([] : List (Event ν)) [] [] [] :=
  ⟨.nil, rfl, rfl⟩

theorem append {first second : List (Event ν)} {visits moreVisits : List (Visit ν)}
    {made moreMade entered moreEntered : List (Scope ν)} (h : Tells first visits made entered)
    (h' : Tells second moreVisits moreMade moreEntered) :
    Tells (first ++ second) (visits ++ moreVisits) (made ++ moreMade) (entered ++ moreEntered) where
  visits := h.visits.append h'.visits
  creations := by rw [List.filterMap_append, List.filterMap_append, h.creations, h'.creations]
  forcings := by rw [List.filterMap_append, h.forcings, h'.forcings]

/-- Any other record tells nothing of the kind. -/
theorem other {event : Event ν} (hvisit : event.isOfVisit = false)
    (hcreation : event.creation? = none) (hforced : event.forced? = none) :
    Tells [event] [] [] [] where
  visits := .other hvisit .nil
  creations := by rw [List.filterMap_cons_none hcreation]; rfl
  forcings := by rw [List.filterMap_cons_none hforced]; rfl

theorem visit (visit : Visit ν) :
    Tells [.invoking visit.method visit.arguments visit.scope,
      .returned visit.method visit.result] [visit] [] [] :=
  ⟨.visit visit .nil, rfl, rfl⟩

theorem forcing (closure : Scope ν) : Tells [.forcing closure] [] [] [closure] :=
  ⟨.other rfl .nil, rfl, rfl⟩

theorem closing (number : Nat) (table : Table (Expr ν)) (body : Expr ν) (parent : Scope ν) :
    Tells [.closing table.size body] [] [.closure number table body parent] [] :=
  ⟨.other rfl .nil, rfl, rfl⟩

/-- A call is told of once, although it makes a frame for each argument, too. -/
theorem calling (first number : Nat) (closure calling : Scope ν) (arguments : List (Expr ν)) :
    Tells [.calling closure.body arguments] []
      (Scope.thunks first calling arguments ++
        [.call number closure ((Scope.thunks first calling arguments).map .scope)]) [] := by
  have hthunks : (Scope.thunks first calling arguments).filterMap Scope.creation? = [] := by
    rw [List.filterMap_eq_nil_iff]
    intro thunk hm
    obtain ⟨argument, -, rfl⟩ := List.mem_map.1 hm
    rfl
  have hdeferred : ((Scope.thunks first calling arguments).map Expr.scope).map Expr.deferred =
      arguments := by
    rw [Scope.thunks, List.map_map, List.map_map]
    exact List.zipIdx_map_fst first arguments
  refine ⟨.other rfl .nil, ?_, rfl⟩
  rw [List.filterMap_append, hthunks]
  show [Creation.call closure.body arguments] = [.call closure.body
    (((Scope.thunks first calling arguments).map Expr.scope).map Expr.deferred)]
  rw [hdeferred]

end Tells

/-! ## What moves do -/

/-- Native methods leave no records themselves. -/
def Invoke.Silent (invoke : Invoke ν σ) : Prop :=
  ∀ method arguments scope world, (invoke method arguments scope world).2.events = world.events

/-- The native call that the next move makes. -/
def Engine.visit? (engine : Engine ν σ) : Moment ν σ → Option (Visit ν)
  | ⟨.hand (.native method) arguments scope _, machine⟩ =>
      some ⟨method, arguments, scope, (engine.invoke method arguments scope
        (machine.world.emit (.invoking method arguments scope))).1⟩
  | _ => none

/-- The frames that the next move makes, unless it calls a native method, which may make frames of
its own. -/
def Engine.made (engine : Engine ν σ) (moment : Moment ν σ) : List (Scope ν) :=
  match engine.visit? moment with
  | some _ => []
  | none => (engine.move moment).machine.world.frames.drop moment.machine.world.frames.length

/-- The scope in which the loop that forces closures resolves an expression next. -/
def Control.forces? : Control ν → Option (Scope ν)
  | .enter _ scope .forced | .enter _ scope .interpreted => some scope
  | _ => none

/-- The closure that the next move enters to force it. -/
def Engine.entered? (engine : Engine ν σ) (moment : Moment ν σ) : Option (Scope ν) :=
  (engine.move moment).control.forces?

/-- How many records the log owes. -/
def Control.owes : Control ν → Nat
  | .report _ _ _ => 1
  | _ => 0

/-- The same steps and the same host, with these frames and these records in addition. -/
structure Machine.Adds (before : Machine ν σ) (made : List (Scope ν)) (told : List (Event ν))
    (after : Machine ν σ) : Prop where
  steps : after.steps = before.steps
  host : after.world.host = before.world.host
  frames : after.world.frames = before.world.frames ++ made
  events : after.world.events.toList = before.world.events.toList ++ told

namespace Machine.Adds

theorem nothing (machine : Machine ν σ) : machine.Adds [] [] machine :=
  ⟨rfl, rfl, (List.append_nil _).symm, (List.append_nil _).symm⟩

theorem trans {first second third : Machine ν σ} {made more : List (Scope ν)}
    {told later : List (Event ν)} (h : first.Adds made told second)
    (h' : second.Adds more later third) : first.Adds (made ++ more) (told ++ later) third where
  steps := h'.steps.trans h.steps
  host := h'.host.trans h.host
  frames := by rw [h'.frames, h.frames, List.append_assoc]
  events := by rw [h'.events, h.events, List.append_assoc]

theorem emit (event : Event ν) (steps : Nat) (world : World ν σ) :
    Adds ⟨steps, world⟩ [] [event] ⟨steps, world.emit event⟩ :=
  ⟨rfl, rfl, (List.append_nil _).symm, Array.toList_push⟩

theorem addFrames (made : List (Scope ν)) (steps : Nat) (world : World ν σ) :
    Adds ⟨steps, world⟩ made [] ⟨steps, world.addFrames made⟩ :=
  ⟨rfl, rfl, World.frames_addFrames made world, (List.append_nil _).symm⟩

theorem memoizeAll (result : Terminal ν) (owners : List (Scope ν × String)) (steps : Nat)
    (world : World ν σ) :
    Adds ⟨steps, world⟩ [] [] ⟨steps, world.memoizeAll result owners⟩ := by
  induction owners generalizing world with
  | nil => exact nothing _
  | cons entry owners ih =>
    have hframes := World.frames_of_scopeAt (world.scopeAt_memoize entry.1 entry.2 result)
    have hfirst : Adds ⟨steps, world⟩ [] [] ⟨steps, world.memoize entry.1 entry.2 result⟩ :=
      ⟨rfl, rfl, hframes.trans (List.append_nil _).symm, (List.append_nil _).symm⟩
    exact hfirst.trans (ih _)

end Machine.Adds

/-- These closures are entered to force them, and the log owes no record. -/
structure Control.Forces (control : Control ν) (entered : List (Scope ν)) : Prop where
  forces : control.forces?.toList = entered
  owes : control.owes = 0

/-- The moment comes after such additions, with these closures entered to force them. -/
structure Moment.ComesAfter (moment : Moment ν σ) (machine : Machine ν σ)
    (told : List (Event ν)) (made entered : List (Scope ν)) : Prop where
  adds : machine.Adds made told moment.machine
  control : moment.control.Forces entered

namespace Moment.ComesAfter

variable {machine : Machine ν σ} {made : List (Scope ν)} {told : List (Event ν)} {part : Part}

theorem still {control : Control ν} (hcontrol : control.Forces []) :
    ComesAfter ⟨control, machine⟩ machine [] [] [] :=
  ⟨.nothing machine, hcontrol⟩

theorem afterRun {run : Run ν σ α} {next : α → Control ν} (rest : Rest ν part)
    (hadds : machine.Adds made told (run machine).2) (hnext : ∀ result, (next result).Forces []) :
    ComesAfter (.afterRun run next rest machine) machine told made [] := by
  rw [Moment.afterRun]
  rcases hrun : run machine with ⟨stop | result, after⟩ <;> rw [hrun] at hadds
  · exact ⟨hadds, rfl, rfl⟩
  · exact ⟨hadds, hnext result⟩

/-- After a run that only looks at the machine. -/
theorem afterLook {run : Run ν σ α} {next : α → Control ν} (rest : Rest ν part)
    (hrun : (run machine).2 = machine) (hnext : ∀ result, (next result).Forces []) :
    ComesAfter (.afterRun run next rest machine) machine [] [] [] :=
  afterRun rest (hrun.symm ▸ .nothing machine) hnext

/-- After a record, which is left without fail. -/
theorem afterEmit {event : Event ν} {next : Control ν} {entered : List (Scope ν)}
    (rest : Rest ν part) (hnext : next.Forces entered) :
    ComesAfter (.afterRun (Run.emit event) (fun _ => next) rest machine) machine [event] []
      entered :=
  ⟨.emit event machine.steps machine.world, hnext⟩

end Moment.ComesAfter

/-- What the next move does, and the records it leaves. -/
structure Engine.Does (engine : Engine ν σ) (moment : Moment ν σ) (told : List (Event ν)) :
    Prop where
  events : (engine.move moment).machine.world.events.toList =
    moment.machine.world.events.toList ++ told
  tells : Tells told (engine.visit? moment).toList (engine.made moment)
    (engine.entered? moment).toList
  frames : engine.visit? moment = none → (engine.move moment).machine.world.frames =
    moment.machine.world.frames ++ engine.made moment
  host : engine.visit? moment = none →
    (engine.move moment).machine.world.host = moment.machine.world.host
  steps : told.countP Event.isStep + (engine.move moment).control.owes +
      min moment.machine.steps engine.limits.maxSteps =
    min (engine.move moment).machine.steps engine.limits.maxSteps + moment.control.owes

namespace Engine

variable {engine : Engine ν σ} {moment : Moment ν σ}

theorem made_of_frames {made : List (Scope ν)} (hvisit : engine.visit? moment = none)
    (h : (engine.move moment).machine.world.frames = moment.machine.world.frames ++ made) :
    engine.made moment = made := by
  rw [Engine.made, hvisit]
  dsimp only
  rw [h, List.drop_left]

theorem Does.of_comesAfter {told : List (Event ν)} {made entered : List (Scope ν)}
    (hvisit : engine.visit? moment = none)
    (h : (engine.move moment).ComesAfter moment.machine told made entered)
    (htells : Tells told [] made entered)
    (howes : told.countP Event.isStep = moment.control.owes) : engine.Does moment told where
  events := h.adds.events
  tells := by
    rw [hvisit, made_of_frames hvisit h.adds.frames, entered?, h.control.forces]
    exact htells
  frames := fun _ => by rw [made_of_frames hvisit h.adds.frames, h.adds.frames]
  host := fun _ => h.adds.host
  steps := by rw [h.adds.steps, h.control.owes, howes]; omega

/-- A move that does nothing of interest. -/
theorem Does.nothing (hvisit : engine.visit? moment = none) (howes : moment.control.owes = 0)
    (h : (engine.move moment).ComesAfter moment.machine [] [] []) : engine.Does moment [] :=
  .of_comesAfter hvisit h .nothing howes.symm

/-! ## Each move -/

section Looks

variable (machine : Machine ν σ)

theorem permit_looks (engine : Engine ν σ) (depth : Nat) :
    (engine.permit depth machine).2 = machine := by
  rw [permit]
  by_cases h : engine.limits.maxDepth < depth
  · rw [if_pos h]
    rfl
  · rw [if_neg h]
    rfl

theorem ownName_looks (name : String) : ((ownName name : Run ν σ String) machine).2 = machine := by
  rw [ownName]
  cases positional? name <;> rfl

theorem stepIdentifier_looks (name : String) (scope : Scope ν) :
    (Run.stepIdentifier name scope machine).2 = machine := by
  rw [Run.stepIdentifier]
  cases scope.find name with
  | error failure => rfl
  | ok found =>
    obtain ⟨bound, owner⟩ := found
    dsimp only
    rw [Run.bind_apply, Run.memoized_apply]
    dsimp only
    cases machine.world.memoized owner name <;> rfl

end Looks

theorem ofOperator_comesAfter (head : Head ν) (arguments : List (Expr ν)) (scope : Scope ν)
    (machine : Machine ν σ) :
    (Moment.ofOperator head arguments scope machine).ComesAfter machine [] [] [] := by
  rw [Moment.ofOperator]
  cases arguments.findSome? Expr.failure? with
  | some failure => exact .still ⟨rfl, rfl⟩
  | none => rcases head with (value | method) | closure <;> exact .still ⟨rfl, rfl⟩

theorem finished_comesAfter (result : Terminal ν) (machine : Machine ν σ) :
    (Moment.finished result machine).ComesAfter machine [.finished machine.steps] [] [] := by
  have hadds := Machine.Adds.emit (.finished machine.steps) machine.steps machine.world
  cases result with
  | value value => exact ⟨hadds, rfl, rfl⟩
  | native method => exact ⟨⟨rfl, hadds.host, hadds.frames, hadds.events⟩, rfl, rfl⟩

theorem record_adds (head : Head ν) (pending : List (Scope ν × String)) (machine : Machine ν σ) :
    machine.Adds [] [] (Run.record head pending machine).2 := by
  cases head with
  | terminal result => exact .memoizeAll result pending machine.steps machine.world
  | closure closure => exact .nothing machine

theorem ofOutcome_comesAfter (outcome : Outcome ν) (rest : Rest ν .outcome)
    (machine : Machine ν σ) :
    (Moment.ofOutcome outcome rest machine).ComesAfter machine [] [] [] := by
  cases rest with
  | toHead pending rest =>
    cases outcome with
    | finished head =>
      exact .afterRun rest (record_adds head pending machine) fun _ => ⟨rfl, rfl⟩
    | further next inner => exact .still ⟨rfl, rfl⟩
    | binding name bound owner => exact .still ⟨rfl, rfl⟩
  | toName rest =>
    cases outcome with
    | finished head =>
      rw [Moment.ofOutcome]
      cases head.name? <;> exact .still ⟨rfl, rfl⟩
    | further next inner => exact .still ⟨rfl, rfl⟩
    | binding name bound owner => exact .still ⟨rfl, rfl⟩

theorem ofStep_comesAfter (expr : Expr ν) (scope : Scope ν) (rest : Rest ν .outcome)
    (machine : Machine ν σ) :
    (Moment.ofStep expr scope rest machine).ComesAfter machine [] [] [] := by
  cases expr with
  | identifier name =>
    exact .afterLook rest (stepIdentifier_looks machine name scope) fun _ => ⟨rfl, rfl⟩
  | _ => exact .still ⟨rfl, rfl⟩

/-- A program's evaluation is the only one whose end is recorded. -/
theorem raise_does (stop : Stop) {part : Part} (rest : Rest ν part) (machine : Machine ν σ) :
    ∃ told, engine.Does ⟨.raise stop rest, machine⟩ told := by
  cases rest with
  | interpreted =>
    have hadds := Machine.Adds.emit (.finished machine.steps) machine.steps machine.world
    exact ⟨_, .of_comesAfter rfl ⟨hadds, rfl, rfl⟩ (.other rfl rfl rfl) rfl⟩
  | _ => exact ⟨[], .nothing rfl rfl (.still ⟨rfl, rfl⟩)⟩

theorem head_does (head : Head ν) (rest : Rest ν .head) (machine : Machine ν σ) :
    ∃ told, engine.Does ⟨.head head rest, machine⟩ told := by
  cases rest with
  | resolved => exact ⟨[], .nothing rfl rfl (.still ⟨rfl, rfl⟩)⟩
  | forced =>
    cases head with
    | terminal result => exact ⟨[], .nothing rfl rfl (.still ⟨rfl, rfl⟩)⟩
    | closure closure =>
      exact ⟨_, .of_comesAfter rfl (.afterEmit Rest.forced ⟨rfl, rfl⟩) (.forcing closure) rfl⟩
  | interpreted =>
    cases head with
    | terminal result =>
      exact ⟨_, .of_comesAfter rfl (finished_comesAfter result machine) (.other rfl rfl rfl) rfl⟩
    | closure closure =>
      exact ⟨_, .of_comesAfter rfl (.afterEmit Rest.interpreted ⟨rfl, rfl⟩) (.forcing closure) rfl⟩
  | applied arguments scope =>
    exact ⟨[], .nothing rfl rfl (ofOperator_comesAfter head arguments scope machine)⟩
  | operator arguments scope rest =>
    rcases head with (value | method) | closure
    · exact ⟨_, .of_comesAfter rfl (.afterEmit rest ⟨rfl, rfl⟩) (.other rfl rfl rfl) rfl⟩
    · exact ⟨[], .nothing rfl rfl (.still ⟨rfl, rfl⟩)⟩
    · exact ⟨[], .nothing rfl rfl (.still ⟨rfl, rfl⟩)⟩
  | argument callee done more scope rest => exact ⟨[], .nothing rfl rfl (.still ⟨rfl, rfl⟩)⟩

/-- A step is counted once more, or it exceeds the budget, beyond which nothing is recorded. -/
theorem count_does (expr : Expr ν) (scope : Scope ν) (rest : Rest ν .outcome)
    (machine : Machine ν σ) : engine.Does ⟨.count expr scope rest, machine⟩ [] := by
  have hmove : (engine.move ⟨.count expr scope rest, machine⟩).machine.world = machine.world ∧
      engine.entered? ⟨.count expr scope rest, machine⟩ = none := by
    rw [entered?]
    by_cases hlimit : engine.limits.maxSteps < machine.steps + 1
    · rw [move_count_exhausted hlimit]
      exact ⟨rfl, rfl⟩
    · rw [move_count_allowed hlimit]
      exact ⟨rfl, rfl⟩
  obtain ⟨hworld, hentered⟩ := hmove
  have hframes : (engine.move ⟨.count expr scope rest, machine⟩).machine.world.frames =
      machine.world.frames ++ [] := by rw [hworld, List.append_nil]
  have hmade : engine.made ⟨.count expr scope rest, machine⟩ = [] := made_of_frames rfl hframes
  refine ⟨?_, ?_, fun _ => ?_, fun _ => ?_, ?_⟩
  · rw [hworld, List.append_nil]
  · rw [hmade, hentered]
    exact .nothing
  · rw [hmade]
    exact hframes
  · rw [hworld]
  · by_cases hlimit : engine.limits.maxSteps < machine.steps + 1
    · rw [move_count_exhausted hlimit]
      simp only [List.countP_nil, Control.owes]
      omega
    · rw [move_count_allowed hlimit]
      simp only [List.countP_nil, Control.owes]
      omega

theorem hand_native_does (hsilent : engine.invoke.Silent) (method : Native ν)
    (arguments : List (Expr ν)) (scope : Scope ν) (rest : Rest ν .call) (machine : Machine ν σ) :
    ∃ told, engine.Does ⟨.hand (.native method) arguments scope rest, machine⟩ told := by
  let entered := machine.world.emit (.invoking method arguments scope)
  let result := (engine.invoke method arguments scope entered).1
  let left := (engine.invoke method arguments scope entered).2
  have hmove : engine.move ⟨.hand (.native method) arguments scope rest, machine⟩ =
      ⟨rest.takeResult result scope, machine.steps, left.emit (.returned method result)⟩ := rfl
  have hleft : left.events = machine.world.events.push (.invoking method arguments scope) :=
    hsilent method arguments scope entered
  have hcontrol : (rest.takeResult result scope).Forces [] := by cases rest <;> exact ⟨rfl, rfl⟩
  refine ⟨[.invoking method arguments scope, .returned method result], ?_, ?_, nofun, nofun, ?_⟩
  · rw [hmove]
    show (left.events.push _).toList = _
    rw [hleft, Array.toList_push, Array.toList_push, List.append_assoc]
    rfl
  · rw [entered?, hmove, hcontrol.forces]
    exact .visit ⟨method, arguments, scope, result⟩
  · rw [hmove, hcontrol.owes]
    exact Nat.add_comm 0 _

theorem hand_closure_does (closure : Scope ν) (arguments : List (Expr ν)) (scope : Scope ν)
    (rest : Rest ν .call) (machine : Machine ν σ) :
    engine.Does ⟨.hand (.closure closure) arguments scope rest, machine⟩
      [.calling closure.body arguments] := by
  let thunks := Scope.thunks machine.world.size scope arguments
  let frame := Scope.call (machine.world.size + arguments.length) closure (thunks.map .scope)
  have hmove : engine.move ⟨.hand (.closure closure) arguments scope rest, machine⟩ =
      ⟨rest.takeFrame (machine.world.newCall closure arguments scope).1, machine.steps,
        (machine.world.newCall closure arguments scope).2.emit
          (.calling closure.body arguments)⟩ := rfl
  have hadds : machine.Adds (thunks ++ [frame]) [.calling closure.body arguments]
      ⟨machine.steps, (machine.world.addFrames (thunks ++ [frame])).emit
        (.calling closure.body arguments)⟩ := by
    have hframes := Machine.Adds.addFrames (thunks ++ [frame]) machine.steps machine.world
    have hrecord := Machine.Adds.emit (.calling closure.body arguments) machine.steps
      (machine.world.addFrames (thunks ++ [frame]))
    have hboth := hframes.trans hrecord
    rwa [List.append_nil] at hboth
  have hcontrol : (rest.takeFrame frame).Forces [] := by cases rest <;> exact ⟨rfl, rfl⟩
  rw [World.newCall_eq] at hmove
  refine .of_comesAfter rfl ?_ (.calling machine.world.size
    (machine.world.size + arguments.length) closure scope arguments) rfl
  rw [hmove]
  exact ⟨hadds, hcontrol⟩

theorem bind_nil_does (table : Table (Expr ν)) (body : Expr ν) (scope : Scope ν)
    (rest : Rest ν .closure) (machine : Machine ν σ) :
    engine.Does ⟨.bind [] table body scope rest, machine⟩ [.closing table.size body] := by
  let recorded := machine.world.emit (.closing table.size body)
  let frame := Scope.closure recorded.size table body scope
  have hmove : engine.move ⟨.bind [] table body scope rest, machine⟩ =
      ⟨.closure (recorded.newClosure table body scope).1 rest, machine.steps,
        (recorded.newClosure table body scope).2⟩ := rfl
  have hadds : machine.Adds [frame] [.closing table.size body]
      ⟨machine.steps, recorded.addFrames [frame]⟩ :=
    (Machine.Adds.emit _ machine.steps machine.world).trans (.addFrames _ _ _)
  rw [World.newClosure, World.newScope_eq] at hmove
  refine .of_comesAfter rfl ?_ (.closing recorded.size table body scope) rfl
  rw [hmove]
  exact ⟨hadds, rfl, rfl⟩

theorem name_does (name : String) (rest : Rest ν .name) (machine : Machine ν σ) :
    ∃ told, engine.Does ⟨.name name rest, machine⟩ told := by
  cases rest with
  | binding bound more table body scope rest =>
    cases hfind : table.find? name with
    | none =>
      refine ⟨[], .nothing rfl rfl (.afterLook rest ?_ fun _ => ⟨rfl, rfl⟩)⟩
      rw [Run.reportRebound, hfind]
      rfl
    | some dropped =>
      refine ⟨[.rebound name dropped], .of_comesAfter rfl (.afterRun rest ?_ fun _ => ⟨rfl, rfl⟩)
        (.other rfl rfl rfl) rfl⟩
      rw [Run.reportRebound, hfind]
      exact .emit _ machine.steps machine.world

/-- The records of a move tell what it does. -/
theorem move_does (hsilent : engine.invoke.Silent) (moment : Moment ν σ) :
    ∃ told, engine.Does moment told := by
  obtain ⟨control, machine⟩ := moment
  cases control with
  | enter expr scope rest =>
    have hlooks := permit_looks machine engine rest.depth
    exact ⟨[], .nothing rfl rfl (.afterLook rest hlooks fun _ => ⟨rfl, rfl⟩)⟩
  | enterName position scope rest =>
    have hlooks := permit_looks machine engine rest.depth
    exact ⟨[], .nothing rfl rfl (.afterLook rest hlooks fun _ => ⟨rfl, rfl⟩)⟩
  | position position scope rest =>
    refine ⟨[], .nothing rfl rfl ?_⟩
    rw [move]
    cases position.identifier? with
    | none => exact .still ⟨rfl, rfl⟩
    | some name => exact .afterLook rest (ownName_looks machine name) fun _ => ⟨rfl, rfl⟩
  | count expr scope rest => exact ⟨[], count_does expr scope rest machine⟩
  | report expr scope rest =>
    exact ⟨_, .of_comesAfter rfl (.afterEmit rest ⟨rfl, rfl⟩) (.other rfl rfl rfl) rfl⟩
  | reduce expr scope rest =>
    exact ⟨[], .nothing rfl rfl (ofStep_comesAfter expr scope rest machine)⟩
  | outcome outcome rest =>
    exact ⟨[], .nothing rfl rfl (ofOutcome_comesAfter outcome rest machine)⟩
  | head head rest => exact head_does head rest machine
  | name name rest => exact name_does name rest machine
  | close items scope rest =>
    refine ⟨[], .nothing rfl rfl ?_⟩
    rw [move]
    cases Lambda.parts items <;> exact .still ⟨rfl, rfl⟩
  | bind bindings table body scope rest =>
    cases bindings with
    | nil => exact ⟨_, bind_nil_does table body scope rest machine⟩
    | cons binding more => exact ⟨[], .nothing rfl rfl (.still ⟨rfl, rfl⟩)⟩
  | closure closure rest => cases rest <;> exact ⟨[], .nothing rfl rfl (.still ⟨rfl, rfl⟩)⟩
  | arguments callee done more scope rest =>
    cases more <;> exact ⟨[], .nothing rfl rfl (.still ⟨rfl, rfl⟩)⟩
  | hand callee arguments scope rest =>
    cases callee with
    | native method => exact hand_native_does hsilent method arguments scope rest machine
    | closure closure => exact ⟨_, hand_closure_does closure arguments scope rest machine⟩
  | raise stop rest => exact raise_does stop rest machine
  | ended outcome => exact ⟨[], .nothing rfl rfl (.still ⟨rfl, rfl⟩)⟩

end Engine
end CallByNeed
