import CallByNeed.Demo.Programs
import CallByNeed.Proofs.Reuse.Runs

/-! # Programs in a root that is used again

A root frame of ready-made bindings collects records from one program to the next, but no program
can tell. What a program comes to there, the steps it takes and the native calls it makes are those
in a fresh copy of the root, whatever programs ran before (`Engine.interpretAll_fresh`): the records
make no difference, and without them the two roots and all that is made in them correspond.
-/

namespace CallByNeed
set_option autoImplicit false

variable {ν σ : Type}

/-! ## Without the records of a frame -/

namespace World

/-- The world with all records of one frame lost. -/
def unrecorded (number : Nat) : World ν σ → World ν σ
  | ⟨cells, values, host, events⟩ =>
      ⟨cells.modify number fun cell => ⟨cell.scope, .empty⟩, values, host, events⟩

theorem recordAt_unrecorded (number : Nat) (world : World ν σ) (other : Nat) (name : String) :
    (world.unrecorded number).recordAt other name =
      if other = number then none else world.recordAt other name := by
  change ((world.cells.modify number fun cell => ⟨cell.scope, .empty⟩)[other]?.bind fun cell =>
    cell.records.find? name) = _
  rw [Array.getElem?_modify, recordAt]
  by_cases h : number = other
  · rw [if_pos h, if_pos h.symm]
    cases world.cells[other]? <;> rfl
  · rw [if_neg h, if_neg fun hsame => h hsame.symm]

theorem sameBut_unrecorded (number : Nat) (world : World ν σ) :
    world.SameBut number (world.unrecorded number) where
  size := Array.size_modify.symm
  scopes other := by
    change _ = (world.cells.modify number fun cell =>
      ⟨cell.scope, .empty⟩)[other]?.map Cell.scope
    rw [Array.getElem?_modify, scopeAt]
    by_cases h : number = other
    · rw [if_pos h, Option.map_map]
      rfl
    · rw [if_neg h]
  records hother name := by rw [recordAt_unrecorded, if_neg hother]
  values := rfl
  host := rfl
  events := rfl

theorem RecordsBound.interchangeable {root : Scope ν} {world : World ν σ}
    (h : world.RecordsBound root) (hmade : root.number < world.size) :
    world.Interchangeable root (world.unrecorded root.number) := by
  refine ⟨world.sameBut_unrecorded root.number, hmade, h, fun name result hrecord => ?_⟩
  rw [recordAt_unrecorded, if_pos rfl] at hrecord
  cases hrecord

theorem made_newRoot (world : World ν σ) (bindings : Table (Expr ν)) :
    world.size < (world.newRoot bindings).2.size :=
  Nat.lt_of_lt_of_eq (Nat.lt_succ_self _) (size_newScope world _).symm

theorem unrecorded_newRoot (world : World ν σ) (bindings : Table (Expr ν)) (name : String) :
    (world.newRoot bindings).2.recordAt world.size name = none :=
  (recordAt_newScope world _ world.size name).trans (recordAt_eq_none (Nat.le_refl _) name)

end World

/-! ## Programs -/

/-- The same outcome, up to the identities of values that are built, in as many steps, and native
calls that look the same. -/
structure Evaluated.LooksLike (first second : Evaluated ν σ (Value ν)) : Prop where
  outcome : first.outcome.map Value.forget = second.outcome.map Value.forget
  steps : first.steps = second.steps
  calls : first.world.seenCalls = second.world.seenCalls

theorem Evaluated.LooksLike.trans {first second third : Evaluated ν σ (Value ν)}
    (h : first.LooksLike second) (h' : second.LooksLike third) : first.LooksLike third :=
  ⟨h.outcome.trans h'.outcome, h.steps.trans h'.steps, h.calls.trans h'.calls⟩

namespace Engine

variable {engine : Engine ν σ} {code : ScopeKind → Nat → Code ν}

/-- The end of a program is indifferent, too, with an event and perhaps a value more. -/
theorem interpretRun_indifferent {root : Scope ν} (hnatives : engine.invoke.ComputesByDepth code)
    (hignores : engine.invoke.IgnoresRecords) (hready : root.ReadyMade) (program : Expr ν)
    (scope : Scope ν) :
    Run.Has (.indifferent root) (fun _ => []) (scope :: program.scopes)
      (engine.interpretRun program scope) := by
  intro hsole machine machine' hmachines
  obtain ⟨⟨houtcome, hafter⟩, -⟩ := (has_indifferent hnatives hignores hready).forceLoop
    engine.limits.maxSteps program scope hsole machine machine' hmachines
  rw [interpretRun, interpretRun]
  revert houtcome hafter
  generalize engine.forceLoop engine.limits.maxSteps program scope machine = first
  generalize engine.forceLoop engine.limits.maxSteps program scope machine' = second
  obtain ⟨outcome, ⟨steps, world⟩⟩ := first
  obtain ⟨outcome', ⟨steps', world'⟩⟩ := second
  rintro rfl ⟨rfl, hworlds⟩
  have hfinished := hworlds.emit (.finished steps)
  rcases outcome with stop | (value | method)
  · refine ⟨⟨rfl, rfl, hfinished⟩, fun value hvalue => ?_⟩
    cases hvalue
  · exact ⟨⟨rfl, rfl, hfinished⟩, fun _ _ => .nil⟩
  · obtain ⟨hvalue, hsame⟩ := hfinished.same.newValue .built (.native method)
    exact ⟨⟨congrArg Except.ok hvalue, rfl, hsame, hfinished.made, hfinished.ready,
      hfinished.ready'⟩, fun _ _ => .nil⟩

/-- Alike programs in alike roots of parallel worlds. -/
theorem interpret_alike {loose : Expr ν → Expr ν → Prop} {base : Nat}
    (hfair : (Comparison.calls loose base).Fair engine) {place : Places}
    {program program' : Expr ν} {root root' : Scope ν}
    (hprogram : program.Alike (.renewed loose) place program')
    (hroot : root.Alike (.renewed loose) place root') {world world' : World ν σ}
    (hworlds : world.Parallel (.renewed loose) base place world') :
    (engine.interpret program root world).LooksLike (engine.interpret program' root' world') := by
  have hfinished (steps : Nat) (world : World ν σ) :
      (world.emit (.finished steps)).seenCalls = world.seenCalls := by
    rw [World.seenCalls, World.calls_emit]
    simp [Event.call?, World.seenCalls]
  have hends := forceLoop_mirrors hfair engine.limits.maxSteps hprogram hroot place ⟨0, world⟩
    ⟨0, world'⟩ (.refl _) ⟨rfl, hworlds⟩
  simp only [interpret, Run.execute, interpretRun]
  revert hends
  generalize engine.forceLoop engine.limits.maxSteps program root ⟨0, world⟩ = first
  generalize engine.forceLoop engine.limits.maxSteps program' root' ⟨0, world'⟩ = second
  intro hends
  cases hends with
  | excused h => exact h.elim
  | @stopped _ _ _ machine machine' _ hstop hmachines =>
    obtain ⟨steps, after⟩ := machine
    obtain ⟨steps', after'⟩ := machine'
    cases hstop
    refine ⟨rfl, hmachines.steps, ?_⟩
    rw [hfinished, hfinished]
    exact hmachines.worlds.calls
  | @came _ _ _ machine machine' _ hresult hmachines =>
    obtain ⟨steps, after⟩ := machine
    obtain ⟨steps', after'⟩ := machine'
    have hcalls : (after.emit (.finished steps)).seenCalls =
        (after'.emit (.finished steps')).seenCalls := by
      rw [hfinished, hfinished]
      exact hmachines.worlds.calls
    cases hresult with
    | value h => exact ⟨congrArg Except.ok h, hmachines.steps, hcalls⟩
    | native method => exact ⟨rfl, hmachines.steps, hcalls⟩

end Engine

/-! ## A root and its copies -/

/-- What reduces no further holds no scopes. -/
theorem Expr.scopes_of_isTerminal {expr : Expr ν} (h : expr.isTerminal = true) :
    expr.scopes = [] := by
  cases expr with
  | value | native | failure => rfl
  | application | lambda | identifier | scope => cases h

/-- A ready-made frame without a parent leads to no other frame. -/
theorem Scope.ReadyMade.sole {root : Scope ν} (h : root.ReadyMade)
    (hparent : root.parent? = none) : root.Sole [root] := by
  intro inner hinner hnumber
  clear hnumber
  induction hinner with
  | known hm => exact List.mem_singleton.1 hm
  | parent _ hstep ih =>
    rw [ih, hparent] at hstep
    cases hstep
  | inside _ hstep ih =>
    rw [ih] at hstep
    obtain ⟨expr, hexpr, hm⟩ := mem_scopesAll.1 hstep
    rw [expr.scopes_of_isTerminal (h expr hexpr)] at hm
    cases hm

/-- Two roots without records, in worlds with the same calls to be seen. -/
theorem World.parallel_roots (like : Likeness ν) {world world' : World ν σ} {number number' : Nat}
    (hnumber : number < world.size) (hnumber' : number' < world'.size)
    (hnone : ∀ name, world.recordAt number name = none)
    (hnone' : ∀ name, world'.recordAt number' name = none)
    (hcalls : world.seenCalls = world'.seenCalls) :
    world.Parallel like 0 (fun place place' => place = number ∧ place' = number') world' := by
  refine ⟨fun _ hless => absurd hless (Nat.not_lt_zero _), ?_, ?_, ?_, hcalls⟩
  · rintro _ _ ⟨rfl, rfl⟩
    exact ⟨hnumber, hnumber'⟩
  · rintro _ _ _ _ ⟨rfl, rfl⟩ ⟨rfl, rfl⟩
    exact ⟨fun _ => rfl, fun _ => rfl⟩
  · rintro _ _ ⟨rfl, rfl⟩ name
    rw [hnone, hnone']
    exact .none

section Copies

variable {bindings : Table (Expr ν)}
  (hbindings : ∀ entry ∈ bindings.entries, entry.2.isTerminal = true)
include hbindings

theorem Scope.readyMade_root (number : Nat) : (root number bindings).ReadyMade := by
  intro expr hexpr
  rcases List.mem_cons.1 hexpr with rfl | hexpr
  · rfl
  · have hbound : expr ∈ bindings.entries.map Prod.snd :=
      (List.mem_append.1 hexpr).resolve_right List.not_mem_nil
    obtain ⟨entry, hentry, rfl⟩ := List.mem_map.1 hbound
    exact hbindings entry hentry

theorem Scope.root_alike_copy (loose : Expr ν → Expr ν → Prop) {place : Places}
    {number number' : Nat} (hnumber : place number number') :
    (root number bindings).Alike (.renewed loose) place (root number' bindings) := by
  refine .scope (.frame hnumber .root (List.forall₂_same.2 fun entry hentry => .entry ?_)
    (.failure _)) .nil
  refine entry.2.alike_self fun inner hm => ?_
  rw [entry.2.scopes_of_isTerminal (hbindings entry hentry)] at hm
  cases hm

end Copies

/-! ## One program after another -/

namespace Engine

variable {engine : Engine ν σ} {code : ScopeKind → Nat → Code ν} {bindings : Table (Expr ν)}

/-- Evaluates programs in one root, one after another. The events are taken after each. -/
def interpretAll (engine : Engine ν σ) (root : Scope ν) :
    List (Expr ν) → World ν σ → List (Evaluated ν σ (Value ν))
  | [], _ => []
  | program :: rest, world =>
      let evaluated := engine.interpret program root world
      evaluated :: interpretAll engine root rest evaluated.world.takeEvents.2

section Reuse

variable (hnatives : engine.invoke.ComputesByDepth code) (hignores : engine.invoke.IgnoresRecords)
  (hbindings : ∀ entry ∈ bindings.entries, entry.2.isTerminal = true)
include hnatives hignores hbindings

/-- A program ends the same in the root with its records and without them, and leaves ready-made
records. -/
theorem interpret_unrecorded {number : Nat} {world : World ν σ} (hmade : number < world.size)
    (hready : world.RecordsBound (.root number bindings)) {program : Expr ν}
    (hprogram : program.scopes = []) :
    let root := Scope.root number bindings
    let now := engine.interpret program root world
    let bare := engine.interpret program root (world.unrecorded number)
    now.LooksLike bare ∧ number < now.world.size ∧ now.world.RecordsBound root := by
  intro root now bare
  have hroot : root.ReadyMade := Scope.readyMade_root hbindings number
  have hsole : root.Sole (root :: program.scopes) := by
    rw [hprogram]
    exact hroot.sole rfl
  obtain ⟨⟨houtcome, hsteps, hworlds⟩, -⟩ := interpretRun_indifferent hnatives hignores hroot
    program root hsole ⟨0, world⟩ ⟨0, world.unrecorded number⟩ ⟨rfl, hready.interchangeable hmade⟩
  have hcalls : now.world.calls = bare.world.calls :=
    World.calls_of_events hworlds.same.events
  exact ⟨⟨congrArg (Except.map Value.forget) houtcome, hsteps,
    congrArg (List.map NativeCall.seen) hcalls⟩, hworlds.made, hworlds.ready⟩

/-- A program that runs in a root that is used again comes to what it comes to in a fresh copy. -/
theorem interpret_copy {number : Nat} {world : World ν σ} (hmade : number < world.size)
    (hready : world.RecordsBound (.root number bindings)) {program : Expr ν}
    (hprogram : program.scopes = []) (fresh : World ν σ)
    (hcalls : world.seenCalls = fresh.seenCalls) :
    let copy := fresh.newRoot bindings
    (engine.interpret program (.root number bindings) world).LooksLike
      (engine.interpret program copy.1 copy.2) := by
  intro copy
  refine (interpret_unrecorded hnatives hignores hbindings hmade hready hprogram).1.trans ?_
  have hfair : (Comparison.calls (fun _ _ => False) 0).Fair engine :=
    Comparison.calls_fair hnatives nofun nofun
  have hparallel : World.Parallel (.renewed fun _ _ => False) 0
      (fun place place' => place = number ∧ place' = fresh.size) (world.unrecorded number)
      copy.2 := by
    refine World.parallel_roots _ ((world.sameBut_unrecorded number).size ▸ hmade) ?_
      (fun name => ?_) (fun name => ?_) hcalls
    · exact fresh.made_newRoot bindings
    · rw [World.recordAt_unrecorded, if_pos rfl]
    · exact fresh.unrecorded_newRoot bindings name
  refine interpret_alike hfair (program.alike_self fun inner hm => ?_)
    (Scope.root_alike_copy hbindings _ ⟨rfl, rfl⟩) hparallel
  rw [hprogram] at hm
  cases hm

/-- The same for one program after another. -/
theorem interpretAll_copies {number : Nat} {programs : List (Expr ν)}
    (hprograms : ∀ program ∈ programs, program.scopes = []) {world : World ν σ}
    (hmade : number < world.size) (hready : world.RecordsBound (.root number bindings))
    (hcalls : world.seenCalls = []) :
    List.Forall₂ (fun program evaluated => ∀ fresh : World ν σ,
        let copy := fresh.newRoot bindings
        evaluated.LooksLike (engine.interpret program copy.1 copy.2.takeEvents.2))
      programs (engine.interpretAll (.root number bindings) programs world) := by
  induction programs generalizing world with
  | nil => exact .nil
  | cons program rest ih =>
    have hprogram := hprograms program List.mem_cons_self
    obtain ⟨-, hmade', hready'⟩ :=
      interpret_unrecorded hnatives hignores hbindings hmade hready hprogram
    refine .cons (fun fresh => ?_) (ih (fun other hm => hprograms other (List.mem_cons_of_mem _ hm))
      hmade' hready' rfl)
    exact interpret_copy hnatives hignores hbindings hmade hready hprogram fresh.takeEvents.2 hcalls

end Reuse

/-- A root of ready-made bindings can be used again without trace. Each of the programs that run
in it one after another comes to what it comes to in a fresh copy of the root, whatever has been
made before the copy: the same up to the identities of values that are built, or the same failure or
limit that was hit, in as many steps, and with native calls that look the same. -/
theorem interpretAll_fresh (hnatives : engine.invoke.ComputesByDepth code)
    (hignores : engine.invoke.IgnoresRecords)
    (hbindings : ∀ entry ∈ bindings.entries, entry.2.isTerminal = true)
    {programs : List (Expr ν)} (hprograms : ∀ program ∈ programs, program.scopes = [])
    (before : World ν σ) :
    let made := before.newRoot bindings
    List.Forall₂ (fun program evaluated => ∀ fresh : World ν σ,
        let copy := fresh.newRoot bindings
        evaluated.LooksLike (engine.interpret program copy.1 copy.2.takeEvents.2))
      programs (engine.interpretAll made.1 programs made.2.takeEvents.2) := by
  intro made
  refine interpretAll_copies hnatives hignores hbindings hprograms (before.made_newRoot bindings)
    (fun name result hrecord => ?_) rfl
  exact absurd ((before.unrecorded_newRoot bindings name).symm.trans hrecord) nofun

end Engine

/-- A number and two natives. -/
def addingBindings : Table (Expr StandardNative) :=
  .ofList
    [ ("x", .value ⟨.supplied 0, .integer .i64 2⟩), ("add", .native ⟨"add", .add⟩),
      ("depth", .native ⟨"depth", .depth⟩) ]

/-- Programs that add the number to itself, to the depth, and to something that is missing. -/
def addingPrograms : List (Expr StandardNative) :=
  [ .application (.identifier "add") [.identifier "x", .identifier "x"],
    .application (.identifier "add") [.identifier "x", .application (.identifier "depth") []],
    .application (.identifier "add") [.identifier "x", .identifier "y"] ]

/-- They run one after another in one root. The first one leaves records, the second one finds some
and uses up its budget, and the third one fails. -/
theorem interpretAll_fresh_adding :
    let engine := Standard.depthHost.engine 1 ⟨8, 4⟩
    let made := (World.initial .initial).newRoot addingBindings
    let all := engine.interpretAll made.1 addingPrograms made.2.takeEvents.2
    all.map (fun evaluated => (evaluated.isCut, evaluated.steps)) =
        [(false, 8), (true, 9), (false, 6)] ∧
      List.Forall₂ (fun program evaluated => ∀ fresh : World StandardNative HostState,
          let copy := fresh.newRoot addingBindings
          evaluated.LooksLike (engine.interpret program copy.1 copy.2.takeEvents.2))
        addingPrograms all := by
  intro engine made all
  have hnatives : engine.invoke.ComputesByDepth Standard.depthCode := Standard.depthHost_computes 0
  have hignores : engine.invoke.IgnoresRecords := Host.ignoresRecords Standard.depthHost_gives 0
  have hbindings : ∀ entry ∈ addingBindings.entries, entry.2.isTerminal = true := by decide
  have hprograms : ∀ program ∈ addingPrograms, program.scopes = [] := by decide
  exact ⟨by decide +kernel,
    Engine.interpretAll_fresh hnatives hignores hbindings hprograms (World.initial .initial)⟩

/-! ## The demonstration -/

/-- Reports show values without their identities. -/
theorem Evaluated.LooksLike.report {first second : Evaluated ν σ (Value ν)}
    (h : first.LooksLike second) (name : String) (program : Expr ν) (color : Bool) :
    CallByNeed.report name program first.reported color =
      CallByNeed.report name program second.reported color := by
  have houtcome := h.outcome
  unfold Evaluated.reported
  revert houtcome
  rcases first.outcome with stop | value <;> rcases second.outcome with stop' | value'
  · intro houtcome
    cases houtcome
    rfl
  · exact nofun
  · exact nofun
  · intro houtcome
    have hdisplay : value.display = value'.display :=
      congrArg (fun it => it.payload.display) (Except.ok.inj houtcome)
    simp only [CallByNeed.report, hdisplay]

/-- The demonstration reports on each program as it does on that program in a root of its own. -/
theorem Demo.reports_fresh {engine : Engine StandardNative HostState}
    {code : ScopeKind → Nat → Code StandardNative} {bindings : Table (Expr StandardNative)}
    (hnatives : engine.invoke.ComputesByDepth code) (hignores : engine.invoke.IgnoresRecords)
    (hbindings : ∀ entry ∈ bindings.entries, entry.2.isTerminal = true)
    {programs : List (String × Expr StandardNative)}
    (hprograms : ∀ entry ∈ programs, entry.2.scopes = []) (color : Bool) {number : Nat}
    {world fresh : World StandardNative HostState} (hmade : number < world.size)
    (hready : world.RecordsBound (.root number bindings)) (hcalls : world.seenCalls = [])
    (hfresh : fresh.seenCalls = []) :
    reports engine color (.root number bindings) programs world =
      programs.map fun entry =>
        let copy := fresh.newRoot bindings
        report entry.1 entry.2 (engine.interpret entry.2 copy.1 copy.2).reported color := by
  induction programs generalizing world with
  | nil => rfl
  | cons entry rest ih =>
    have hprogram := hprograms entry List.mem_cons_self
    have hcopy := Engine.interpret_copy hnatives hignores hbindings hmade hready hprogram fresh
      (hcalls.trans hfresh.symm)
    obtain ⟨-, hmade', hready'⟩ :=
      Engine.interpret_unrecorded hnatives hignores hbindings hmade hready hprogram
    let after := (engine.interpret entry.2 (.root number bindings) world).world.takeEvents.2
    have hrest : reports engine color (.root number bindings) rest after = _ :=
      ih (fun other hm => hprograms other (List.mem_cons_of_mem _ hm)) hmade' hready' rfl
    rw [List.map_cons, ← hcopy.report entry.1 entry.2 color, ← hrest]
    rfl

end CallByNeed
