import CallByNeed.Proofs.Blocks.Lockstep
import CallByNeed.Proofs.Deferral.Apply

/-! # Closures run as blocks

A closure can be forced, which runs it as a block in its own frame, or called without arguments,
which makes a frame for the call. The two frames stand for each other if no call encloses the closure:
both bind what the closure binds, and neither has arguments for a positional name. So the block and
the call are in lockstep once the operator of the call is resolved, which takes one more step
(`World.block_steps`).

That is so as long as nothing is recorded in the closure's frame. Records do not change what an
evaluation comes to, though, so they can be left out where only that matters
(`World.Reachable.block_agrees`).
-/

namespace CallByNeed
set_option autoImplicit false

open CallByName

variable {ν σ : Type} {code : Code ν}

/-! ## A frame and its call -/

/-- Stored frames before a number, each for itself. -/
def Pairing.older (world : World ν σ) (number : Nat) : Pairing ν :=
  fun scope scope' => scope = scope' ∧ world.Stores scope ∧ scope.number < number

namespace World

section Older

variable {world : World ν σ} (hconsistent : world.Consistent) {number : Nat}

theorem over_older {expr : Expr ν}
    (h : ∀ inner ∈ expr.scopes, world.Stores inner ∧ inner.number < number) :
    expr.Over (Pairing.older world number).held expr :=
  expr.alike_self fun inner hm => .loose (.scope ⟨⟨rfl, h inner hm⟩, rfl⟩)

include hconsistent

/-- What a frame holds was there before it. -/
theorem contents_older {scope : Scope ν} (hscope : world.Stores scope) (hle : scope.number ≤ number)
    {expr : Expr ν} (hexpr : expr ∈ scope.contents) :
    expr.Over (Pairing.older world number).held expr := by
  refine over_older fun inner hm => ?_
  obtain ⟨hstored, hless⟩ := (hconsistent.supports hscope).contents inner
    (mem_scopesAll.2 ⟨expr, hexpr, hm⟩)
  exact ⟨hstored, Nat.lt_of_lt_of_le hless hle⟩

theorem bindings_older {scope : Scope ν} (hscope : world.Stores scope)
    (hle : scope.number ≤ number) :
    scope.bindings.Over (Pairing.older world number).held scope.bindings := by
  refine List.forall₂_same.2 fun entry hentry => .entry ?_
  refine contents_older hconsistent hscope hle (List.mem_cons_of_mem _ (List.mem_append_left _ ?_))
  exact List.mem_map_of_mem hentry

theorem parent_older {scope : Scope ν} (hscope : world.Stores scope) (hle : scope.number ≤ number) :
    Option.Rel (Pairing.older world number) scope.parent? scope.parent? := by
  cases hparent : scope.parent? with
  | none => exact .none
  | some outer =>
    obtain ⟨hstored, hless⟩ := (hconsistent.supports hscope).parent hparent
    exact .some ⟨rfl, hstored, Nat.lt_of_lt_of_le hless hle⟩

theorem twin_older {scope scope' : Scope ν} (h : Pairing.older world number scope scope') :
    scope.Twin (.older world number) scope' := by
  obtain ⟨rfl, hscope, hless⟩ := h
  have hle := Nat.le_of_lt hless
  refine ⟨fun name => ?_, parent_older hconsistent hscope hle,
    contents_older hconsistent hscope hle List.mem_cons_self, bindings_older hconsistent hscope hle,
    fun _ => rfl⟩
  rcases hfind : scope.find name with failure | ⟨bound, owner⟩
  · exact .missing failure
  · have hup {inner outer : Scope ν} (hinner : world.Stores inner ∧ inner.number < number)
        (hparent : inner.parent? = some outer) : world.Stores outer ∧ outer.number < number := by
      obtain ⟨hstored, hlt⟩ := (hconsistent.supports hinner.1).parent hparent
      exact ⟨hstored, Nat.lt_trans hlt hinner.2⟩
    obtain ⟨howner, hbound, -⟩ := Scope.find_owner hup ⟨hscope, hless⟩ hfind
    exact .found (contents_older hconsistent howner.1 (Nat.le_of_lt howner.2) hbound) ⟨rfl, howner⟩

theorem abreast_older : world.Abreast (.older world number) world where
  consistent := ⟨hconsistent, hconsistent⟩
  stored := by
    rintro scope _ ⟨rfl, hscope, -⟩
    exact ⟨hscope, hscope⟩
  unique := by
    rintro scope _ other _ ⟨rfl, -⟩ ⟨rfl, -⟩
    exact Iff.rfl
  records := by
    rintro scope _ ⟨rfl, -⟩ name
    rfl
  twins := twin_older hconsistent

end Older

/-- Where no frame has arguments, no positional name is found. -/
theorem findArgument_none (index : Nat) {frames : List (Frame ν)}
    (h : ∀ frame ∈ frames, frame.role.kind ≠ .call) :
    Scope.findArgument index frames = .error (.positionalOutOfRange index 0) := by
  induction frames with
  | nil => rfl
  | cons frame outer ih =>
    have harguments : frame.role.arguments? = none := by
      have hkind := h frame List.mem_cons_self
      cases hrole : frame.role with
      | call arguments =>
        rw [hrole] at hkind
        exact absurd rfl hkind
      | _ => rfl
    rw [Scope.findArgument, harguments]
    exact ih fun other hm => h other (List.mem_cons_of_mem _ hm)

section Call

variable {world : World ν σ} (hconsistent : world.Consistent) {closure : Scope ν}
  (hclosure : world.Stores closure) (hkind : closure.kind = .closure)
  (houter : ∀ frame ∈ closure.outer, frame.role.kind ≠ .call)
include hconsistent hclosure hkind houter

/-- A closure that no call encloses finds what a call of it without arguments finds. -/
theorem find_call_nil {rel : Pairing ν} (hrel : (Pairing.older world closure.number).Within rel)
    {number : Nat} (hnew : rel closure (.call number closure [])) (name : String) :
    FoundOver rel (closure.find name) ((Scope.call number closure []).find name) := by
  cases hname : positional? name with
  | none =>
    have hbindings := bindings_older hconsistent hclosure (Nat.le_refl closure.number)
    refine .of_name hname hnew (hbindings.within hrel) ?_
    refine optionRel_imp (fun _ _ hparent => ?_)
      (parent_older hconsistent hclosure (Nat.le_refl closure.number))
    exact ((twin_older hconsistent hparent).find name).within hrel
  | some index =>
    have hnone : Scope.findArgument index closure.frames =
        .error (.positionalOutOfRange index 0) := by
      refine findArgument_none index (List.forall_mem_cons.2 ⟨?_, houter⟩)
      rw [show closure.frame.role.kind = .closure from hkind]
      nofun
    unfold Scope.find
    simp only [hname, hnone]
    exact .missing _

/-- Calling the closure without arguments makes a frame that stands for the closure's own. -/
theorem abreast_newCall (hrecords : ∀ name, world.recordAt closure.number name = none)
    {calling : Scope ν} (hcalling : world.Stores calling) :
    world.Abreast
      ((Pairing.older world closure.number).insert closure (world.newCall closure [] calling).1)
      (world.newCall closure [] calling).2 := by
  have hwithin := (Pairing.older world closure.number).within_insert closure
    (world.newCall closure [] calling).1
  have hnew := (Pairing.older world closure.number).insert_self closure
    (world.newCall closure [] calling).1
  obtain ⟨hcalled, hstored⟩ := hconsistent.newCall hclosure
    (show world.StoresAll (scopesAll []) from .nil) hcalling
  refine (abreast_older hconsistent).insert ⟨hconsistent, hcalled⟩
    ⟨.refl _, grows_newCall closure [] calling world⟩ (fun _ _ => rfl)
    (newCall_records closure [] calling world) ⟨hclosure, hstored⟩ ?_
    (fun name => ⟨hrecords name, recordAt_eq_none (Nat.le_refl _) name⟩) ?_
  · rintro scope _ ⟨rfl, hscope, hless⟩
    exact ⟨Nat.ne_of_lt hless, Nat.ne_of_lt hscope.lt_size⟩
  · refine ⟨find_call_nil hconsistent hclosure hkind houter hwithin hnew, ?_, ?_, ?_, ?_⟩
    · exact optionRel_imp hwithin (parent_older hconsistent hclosure (Nat.le_refl closure.number))
    · exact (contents_older hconsistent hclosure (Nat.le_refl _) List.mem_cons_self).within hwithin
    · exact (bindings_older hconsistent hclosure (Nat.le_refl _)).within hwithin
    · rw [hkind]
      nofun

end Call

end World

/-! ## The first moves -/

namespace Engine

/-- The limits refuse nothing from this moment on. -/
def Unrefused (engine : Engine ν σ) (moment : Moment ν σ) : Prop :=
  ∀ moves, ¬engine.Refuses (engine.after moves moment)

section Begins

variable {engine : Engine ν σ} {scope : Scope ν} {rest : Rest ν .head} {machine : Machine ν σ}

theorem Unrefused.after {moment : Moment ν σ} (h : engine.Unrefused moment) (moves : Nat) :
    engine.Unrefused (engine.after moves moment) := by
  intro more
  rw [← after_add]
  exact h _

/-- A resolution begins with a step. -/
theorem after_enter {expr : Expr ν} (h : engine.Unrefused ⟨.enter expr scope rest, machine⟩) :
    engine.after 4 ⟨.enter expr scope rest, machine⟩ =
      .ofStep expr scope (.toHead [] rest)
        ⟨machine.steps + 1, machine.world.emit (.resolving expr)⟩ := by
  have henter : engine.move ⟨.enter expr scope rest, machine⟩ =
      ⟨.count expr scope (.toHead [] rest), machine⟩ := by
    rw [move, permit_of_le (Nat.le_of_not_lt fun hlt => h 0 (.inr hlt))]
    rfl
  have hcount : ¬engine.limits.maxSteps < machine.steps + 1 := by
    intro hlt
    refine h 1 (.inl ?_)
    rw [after_succ]
    exact henter ▸ hlt
  show engine.move (engine.move (engine.move (engine.move _))) = _
  rw [henter, move_count_allowed hcount]
  rfl

variable {closure : Scope ν} (hkind : closure.kind = .closure)
include hkind

/-- A closure resolves to itself. -/
theorem after_enter_closure
    (h : engine.Unrefused ⟨.enter (.scope closure) scope rest, machine⟩) :
    engine.after 5 ⟨.enter (.scope closure) scope rest, machine⟩ =
      ⟨.head (.closure closure) rest, machine.steps + 1,
        machine.world.emit (.resolving (.scope closure))⟩ := by
  have henter : closure.enter = .finished (.closure closure) := by
    unfold Scope.enter
    rw [hkind]
  rw [after_succ, after_enter h, Moment.ofStep, henter]
  rfl

/-- A closure that is forced is run as a block. -/
theorem block_begins {world : World ν σ}
    (h : engine.Unrefused ((Evaluation.force (.scope closure) scope).start world)) :
    ∃ after : World ν σ, after.cells = world.cells ∧
      engine.after 7 ((Evaluation.force (.scope closure) scope).start world) =
        ⟨.count closure.body closure (.toHead [] .forced), 1, after⟩ := by
  have hpermit : engine.permit (Rest.forced : Rest ν .head).depth = (pure () : Run ν σ Unit) :=
    permit_of_le (Nat.zero_le _)
  refine ⟨(world.emit (.resolving (.scope closure))).emit (.forcing closure), rfl, ?_⟩
  rw [after_succ, after_succ]
  show engine.move (engine.move (engine.after 5 ⟨.enter (.scope closure) scope .forced, _⟩)) = _
  rw [after_enter_closure hkind h]
  show engine.move ⟨.enter closure.body closure .forced, _⟩ = _
  rw [move, hpermit]
  rfl

/-- An application of a closure to no arguments runs its body in the frame of the call. -/
theorem call_begins {world : World ν σ}
    (h : engine.Unrefused
      ((Evaluation.force (.application (.scope closure) []) scope).start world)) :
    ∃ before after : World ν σ, before.cells = world.cells ∧
      after.cells = (before.newCall closure [] scope).2.cells ∧
      engine.after 13 ((Evaluation.force (.application (.scope closure) []) scope).start world) =
        ⟨.count closure.body (before.newCall closure [] scope).1 (.toHead [] .forced), 2, after⟩ := by
  have hunrefused := h.after 4
  have hoperator : engine.after 4 ((Evaluation.force (.application (.scope closure) []) scope).start
      world) = ⟨.enter (.scope closure) scope (.operator [] scope (.toHead [] .forced)), 1,
        world.emit (.resolving (.application (.scope closure) []))⟩ := after_enter h
  rw [hoperator] at hunrefused
  have hclosure := after_enter_closure hkind hunrefused
  generalize hbefore : (world.emit (.resolving (.application (.scope closure) []))).emit
    (.resolving (.scope closure)) = before at hclosure
  refine ⟨before, (before.newCall closure [] scope).2.emit (.calling closure.body []), ?_, rfl, ?_⟩
  · rw [← hbefore]
    rfl
  · rw [show 13 = 4 + (5 + 4) from rfl, after_add, hoperator, after_add, hclosure]
    rfl

end Begins

end Engine

/-! ## The block and the call -/

theorem Evaluated.reported_forget {first second : Evaluated ν σ (Expr ν)}
    (h : first.outcome.map Expr.forget = second.outcome.map Expr.forget) :
    first.reported.map Expr.forget = second.reported.map Expr.forget := by
  unfold reported
  revert h
  cases first.outcome <;> cases second.outcome <;> intro h
  · cases h
    rfl
  · cases h
  · cases h
  · exact congrArg Except.ok (Except.ok.inj h)

section Blocks

variable {invoke : Invoke ν σ} {closure within calling : Scope ν}

/-- A closure without records in its frame comes to the same as a block and in a call without
arguments, which takes one more step. -/
theorem World.block_steps (hnatives : invoke.Computes code) {world : World ν σ}
    (hconsistent : world.Consistent) (hclosure : world.Stores closure)
    (hkind : closure.kind = .closure) (houter : ∀ frame ∈ closure.outer, frame.role.kind ≠ .call)
    (hcalling : world.Stores calling)
    (hrecords : ∀ name, world.recordAt closure.number name = none) (limits limits' : Limits) :
    let block := Engine.evaluate ⟨limits, invoke⟩ (.force (.scope closure) within) world
    let applied :=
      Engine.evaluate ⟨limits', invoke⟩ (.force (.application (.scope closure) []) calling) world
    block.isCut = false → applied.isCut = false →
      block.reported.map Expr.forget = applied.reported.map Expr.forget ∧
        applied.steps = block.steps + 1 := by
  intro block applied hblock happlied
  obtain ⟨own, hown, hfirst⟩ := Engine.block_begins hkind (Engine.not_refuses hblock)
  obtain ⟨before, called, hbefore, hcalled, hsecond⟩ :=
    Engine.call_begins hkind (Engine.not_refuses happlied)
  -- The log apart, both start from worlds in which the call stands for the closure.
  have hsame : before.Grows world ∧ world.Grows before :=
    ⟨.of_cells hbefore.symm, .of_cells hbefore⟩
  have habreast := World.abreast_newCall (hconsistent.of_cells hbefore) (hclosure.grows hsame.2) hkind
    houter (fun name => (World.recordAt_of_cells hbefore _ name).trans (hrecords name))
    (hcalling.grows hsame.2)
  have hworlds := habreast.makes (.single (.outside (hown.trans hbefore.symm)))
    (.single (.outside hcalled))
  have hpair := Pairing.insert_self (.older before closure.number) closure
    (before.newCall closure [] calling).1
  have hmoments : Moment.Abreast 1
      (Engine.after ⟨limits, invoke⟩ 7 ((Evaluation.force (.scope closure) within).start world))
      (Engine.after ⟨limits', invoke⟩ 13
        ((Evaluation.force (.application (.scope closure) []) calling).start world)) := by
    rw [hfirst, hsecond]
    exact ⟨_, .count (hworlds.twins hpair).body hpair (.toHead .nil .forced), hworlds, rfl⟩
  obtain ⟨hend, hsteps⟩ := Engine.evaluate_abreast hnatives limits limits' hmoments hblock happlied
  exact ⟨Evaluated.reported_forget hend, hsteps⟩

/-! ## Records left out -/

/-- The world with all frames and no records. -/
def World.withoutRecords : World ν σ → World ν σ
  | ⟨cells, values, host, events⟩ =>
      ⟨cells.map fun cell => ⟨cell.scope, .empty⟩, values, host, events⟩

namespace World

theorem scopeAt_withoutRecords (world : World ν σ) (number : Nat) :
    world.withoutRecords.scopeAt number = world.scopeAt number := by
  show ((world.cells.map fun cell => ⟨cell.scope, .empty⟩ : Array (Cell ν))[number]?).map
    Cell.scope = _
  rw [Array.getElem?_map, Option.map_map]
  rfl

theorem recordAt_withoutRecords (world : World ν σ) (number : Nat) (name : String) :
    world.withoutRecords.recordAt number name = none := by
  show (world.cells.map fun cell => ⟨cell.scope, .empty⟩ : Array (Cell ν))[number]?.bind _ = none
  rw [Array.getElem?_map]
  cases world.cells[number]? <;> rfl

theorem Stores.withoutRecords {world : World ν σ} {scope : Scope ν} (h : world.Stores scope) :
    world.withoutRecords.Stores scope :=
  (scopeAt_withoutRecords world _).trans h

/-- Without records there is nothing to be wrong. -/
theorem Consistent.withoutRecords {world : World ν σ} (h : world.Consistent) :
    world.withoutRecords.Sound code where
  consistent := {
    number := fun hscope => h.number ((scopeAt_withoutRecords world _).symm.trans hscope)
    supports := fun hscope => by
      have hsupports := h.supports ((scopeAt_withoutRecords world _).symm.trans hscope)
      refine ⟨fun hparent => ?_, fun inner hm => ?_, hsupports.root, hsupports.thunk⟩
      · obtain ⟨hstored, hless⟩ := hsupports.parent hparent
        exact ⟨hstored.withoutRecords, hless⟩
      · obtain ⟨hstored, hless⟩ := hsupports.contents inner hm
        exact ⟨hstored.withoutRecords, hless⟩ }
  records hrecord := by
    rw [recordAt_withoutRecords] at hrecord
    cases hrecord

end World

/-- What a forced expression comes to without hitting a limit, it comes to without records, too, if
the limits are large enough. -/
theorem World.Sound.force_withoutRecords (hnatives : invoke.Computes code) {world : World ν σ}
    (hsound : world.Sound code) {expr : Expr ν} {scope : Scope ν} (hscope : world.Stores scope)
    (hexpr : world.StoresAll expr.scopes) {limits : Limits}
    (hcut : (Engine.evaluate ⟨limits, invoke⟩ (.force expr scope) world).isCut = false) :
    ∃ maxSteps maxDepth, ∀ more : Limits, maxSteps ≤ more.maxSteps → maxDepth ≤ more.maxDepth →
      let again := Engine.evaluate ⟨more, invoke⟩ (.force expr scope) world.withoutRecords
      again.isCut = false ∧ again.reported.map Expr.forget =
        (Engine.evaluate ⟨limits, invoke⟩ (.force expr scope) world).reported.map Expr.forget := by
  have hbare : world.withoutRecords.Sound code := hsound.consistent.withoutRecords
  have hscope' := hscope.withoutRecords
  have hexpr' : world.withoutRecords.StoresAll expr.scopes :=
    fun inner hm => (hexpr inner hm).withoutRecords
  have hanswers {world : World ν σ} (hsound : world.Sound code) (hscope : world.Stores scope)
      (hexpr : world.StoresAll expr.scopes) {limits : Limits}
      (hcut : (Engine.evaluate ⟨limits, invoke⟩ (.force expr scope) world).isCut = false) :
      ∃ answer : Except Failure (Terminal ν),
        ForcesTo code expr scope (answer.map Terminal.forget) ∧
          (Engine.evaluate ⟨limits, invoke⟩ (.force expr scope) world).reported =
            answer.map Terminal.toExpr := by
    obtain ⟨answer, hanswer⟩ := Evaluated.answer_of_not_cut hcut
    have hengine : Invoke.Computes (Engine.invoke ⟨limits, invoke⟩) code := hnatives
    exact ⟨answer, forcesTo_of_answer hengine hsound hscope hexpr hanswer,
      (Evaluated.execute_of_answer Terminal.toExpr hanswer).2.1⟩
  obtain ⟨answer, hforces, hreported⟩ := hanswers hsound hscope hexpr hcut
  obtain ⟨maxSteps, maxDepth, hcomplete⟩ :=
    force_complete hnatives hbare hscope' hexpr' hforces
  refine ⟨maxSteps, maxDepth, fun more hsteps hdepth => ?_⟩
  obtain ⟨hcut', -⟩ := hcomplete more hsteps hdepth
  obtain ⟨answer', hforces', hreported'⟩ := hanswers hbare hscope' hexpr' hcut'
  refine ⟨hcut', ?_⟩
  rw [hreported, hreported', forget_reported, forget_reported, hforces.unique hforces']

/-- Running a closure as a block agrees with calling it without arguments, in every world of a
session and as far as no limit is hit, if no call encloses the closure. If nothing is recorded in the
closure's frame, the call takes one step more. -/
theorem World.Reachable.block_agrees (hnatives : invoke.Computes code) {world : World ν σ}
    (h : World.Reachable invoke world) (hclosure : world.Stores closure)
    (hkind : closure.kind = .closure) (houter : ∀ frame ∈ closure.outer, frame.role.kind ≠ .call)
    (hwithin : world.Stores within) (hcalling : world.Stores calling) (limits limits' : Limits) :
    let block := Engine.evaluate ⟨limits, invoke⟩ (.force (.scope closure) within) world
    let applied :=
      Engine.evaluate ⟨limits', invoke⟩ (.force (.application (.scope closure) []) calling) world
    block.isCut = false → applied.isCut = false →
      block.reported.map Expr.forget = applied.reported.map Expr.forget ∧
        ((∀ name, world.memoized closure name = none) → applied.steps = block.steps + 1) := by
  intro block applied hblock happlied
  have hsound := h.sound hnatives
  refine ⟨?_, fun hrecords => (World.block_steps hnatives hsound.consistent hclosure hkind houter
    hcalling hrecords limits limits' hblock happlied).2⟩
  obtain ⟨steps, depth, hagain⟩ := hsound.force_withoutRecords hnatives hwithin
    (show world.StoresAll (Expr.scope closure).scopes from .cons hclosure .nil) hblock
  obtain ⟨steps', depth', hagain'⟩ := hsound.force_withoutRecords hnatives hcalling
    (show world.StoresAll (Expr.application (.scope closure) []).scopes from .cons hclosure .nil)
    happlied
  let enough : Limits := ⟨max steps steps', max depth depth'⟩
  obtain ⟨hcut, hreported⟩ := hagain enough (Nat.le_max_left _ _) (Nat.le_max_left _ _)
  obtain ⟨hcut', hreported'⟩ := hagain' enough (Nat.le_max_right _ _) (Nat.le_max_right _ _)
  have hconsistent : world.withoutRecords.Consistent :=
    (hsound.consistent.withoutRecords : world.withoutRecords.Sound code).consistent
  rw [← hreported, ← hreported']
  exact (World.block_steps hnatives hconsistent hclosure.withoutRecords hkind houter
    hcalling.withoutRecords (recordAt_withoutRecords world _) enough enough hcut hcut').1

end Blocks

/-- A closure adds a sum and an argument that it does not have: as a block it fails like its call. -/
theorem block_agrees_noArgument :
    let engine : Engine StandardNative HostState := ⟨⟨20, 4⟩, Standard.plainHost.invokeAt 1⟩
    let body : Expr StandardNative :=
      .application (.native ⟨"add", .add⟩) [.identifier "sum", .identifier "$0"]
    let closure : Scope StandardNative := .closure 1 .empty body sumAndFailure.1
    let world := (engine.evaluate (.close [.bare body] sumAndFailure.1) sumAndFailure.2).world
    let block := engine.evaluate (.force (.scope closure) sumAndFailure.1) world
    let applied := engine.evaluate (.force (.application (.scope closure) []) sumAndFailure.1) world
    block.isCut = false ∧ applied.isCut = false ∧
      block.reported.map Expr.forget = applied.reported.map Expr.forget ∧
      applied.steps = block.steps + 1 ∧ block.result.failure? = some (.positionalOutOfRange 0 0) := by
  intro engine body closure world block applied
  have hnatives : Invoke.Computes engine.invoke Standard.plainCode := Standard.plainHost_computes 0
  have hroot : sumAndFailure.2.Stores sumAndFailure.1 := rfl
  obtain ⟨host, hmade⟩ := sumAndFailure_reachable engine.invoke
  have hreachable : World.Reachable engine.invoke world :=
    ⟨host, hmade.tail (.evaluates ⟨20, 4⟩ _ (.cons hroot .nil))⟩
  have hclosure : world.Stores closure := rfl
  have hscope : world.Stores sumAndFailure.1 := rfl
  have hblock : block.isCut = false := by decide +kernel
  have happlied : applied.isCut = false := by decide +kernel
  have hrecords : ∀ name, world.memoized closure name = none := fun _ => rfl
  have houter : ∀ frame ∈ closure.outer, frame.role.kind ≠ .call := by
    intro frame hm
    cases List.mem_singleton.1 hm
    nofun
  obtain ⟨hsame, hsteps⟩ := hreachable.block_agrees hnatives hclosure rfl houter hscope hscope
    ⟨20, 4⟩ ⟨20, 4⟩ hblock happlied
  exact ⟨hblock, happlied, hsame, hsteps hrecords, by decide +kernel⟩

end CallByNeed
