import CallByNeed.Proofs.Records.Evaluations

/-! # Runs that hit no limit

What call by name derives, the evaluator comes to if the limits allow it. For each derivation there
are a number of steps and a depth which are enough for the runs that answer its demand, in every
sound world and with every numbering (`Derives.ends`). The records of the world can only make a run
shorter: an identifier with a record takes two steps.
-/

namespace CallByNeed
set_option autoImplicit false

open CallByName

variable {ν σ α β : Type} {code : Code ν}

/-- A machine whose runs can be compared with call by name under a numbering. -/
structure Machine.Ready (code : Code ν) (number : Nat → Nat) (needs : List (Scope ν))
    (machine : Machine ν σ) : Prop where
  sound : machine.world.Sound code
  stored : machine.world.StoresAll needs
  fresh : ∀ place, machine.world.size ≤ place → number place = 0

theorem Machine.Ready.subset {number : Nat → Nat} {needs fewer : List (Scope ν)}
    {machine : Machine ν σ} (h : machine.Ready code number needs)
    (hsubset : ∀ inner ∈ fewer, inner ∈ needs) : machine.Ready code number fewer :=
  ⟨h.sound, h.stored.subset hsubset, h.fresh⟩

/-- What a machine counts and reports does not matter. -/
theorem Machine.Ready.of_cells {number : Nat → Nat} {needs : List (Scope ν)}
    {before after : Machine ν σ} (h : before.Ready code number needs)
    (hcells : after.world.cells = before.world.cells) : after.Ready code number needs := by
  have hgrows : before.world.Grows after.world := .of_cells hcells
  refine ⟨(World.Makes.outside hcells).sound h.sound, h.stored.grows hgrows, ?_⟩
  intro place hplace
  exact h.fresh place (Nat.le_trans hgrows.size hplace)

/-- A run that met its goal and came to a result has left a machine that is ready for more. -/
theorem Machine.Ready.after {number : Nat → Nat} {goal : Goal ν α}
    {scopes : α → List (Scope ν)} {needs : List (Scope ν)} {run : Run ν σ α}
    {machine after : Machine ν σ} {result : α} (h : machine.Ready code number needs)
    (hmeets : Run.Meets code goal scopes needs run) (hrun : run machine = (.ok result, after)) :
    machine.world.Grows after.world ∧ after.Ready code number (scopes result ++ needs) ∧
      ∃ trace, goal number (.ok result) trace := by
  have hreached := hmeets machine h.sound h.stored
  rw [hrun] at hreached
  obtain ⟨trace, hgoal, -⟩ := hreached.goal rfl number h.fresh
  refine ⟨hreached.grows, ⟨hreached.sound, ?_, fun place hplace => ?_⟩, trace, hgoal⟩
  · exact (hreached.stored rfl).append (h.stored.grows hreached.grows)
  · exact h.fresh place (Nat.le_trans hreached.grows.size hplace)

namespace Run

/-- The run hits no limit and takes at most so many steps. -/
structure Ends (most : Nat) (run : Run ν σ α) (machine : Machine ν σ) : Prop where
  answers : (answer? (run machine).1).isSome
  steps : (run machine).2.steps ≤ machine.steps + most

/-- A run that always has a result and takes no step. -/
def Free (run : Run ν σ α) : Prop :=
  ∀ machine, ∃ result after, run machine = (.ok result, after) ∧ after.steps = machine.steps

/-! ## Free runs -/

theorem free_pure (result : α) : Free (pure result : Run ν σ α) :=
  fun machine => ⟨result, machine, rfl, rfl⟩

theorem free_withWorld (change : World ν σ → α × World ν σ) : Free (withWorld change) :=
  fun machine => ⟨_, ⟨machine.steps, _⟩, rfl, rfl⟩

theorem free_emit (event : Event ν) : Free (emit event : Run ν σ Unit) :=
  fun machine => ⟨(), ⟨machine.steps, _⟩, rfl, rfl⟩

theorem free_memoizeAll (result : Terminal ν) (owners : List (Scope ν × String)) :
    Free (memoizeAll result owners : Run ν σ Unit) :=
  fun machine => ⟨(), ⟨machine.steps, _⟩, rfl, rfl⟩

theorem free_record (head : Head ν) (owners : List (Scope ν × String)) :
    Free (record head owners : Run ν σ Unit) := by
  cases head with
  | terminal result => exact free_memoizeAll result owners
  | closure scope => exact free_pure ()

theorem Free.bind {run : Run ν σ α} {next : α → Run ν σ β} (h : Free run)
    (hn : ∀ result, Free (next result)) : Free (run >>= next) := by
  intro machine
  obtain ⟨first, middle, hrun, hmiddle⟩ := h machine
  obtain ⟨result, after, hnext, hafter⟩ := hn first middle
  refine ⟨result, after, ?_, hafter.trans hmiddle⟩
  rw [bind_apply, hrun]
  exact hnext

/-! ## Composition -/

section Composition

variable {run : Run ν σ α} {next : α → Run ν σ β} {machine : Machine ν σ} {most more : Nat}

theorem Free.ends (h : Free run) (most : Nat) (machine : Machine ν σ) :
    run.Ends most machine := by
  obtain ⟨result, after, hrun, hsteps⟩ := h machine
  constructor
  · rw [hrun]
    rfl
  · rw [hrun, hsteps]
    exact Nat.le_add_right _ _

theorem ends_fail (failure : Failure) (most : Nat) (machine : Machine ν σ) :
    (fail failure : Run ν σ α).Ends most machine :=
  ⟨rfl, Nat.le_add_right _ _⟩

theorem Ends.mono (h : run.Ends most machine) (hle : most ≤ more) : run.Ends more machine :=
  ⟨h.answers, Nat.le_trans h.steps (Nat.add_le_add_left hle _)⟩

/-- A run that ends, followed by one that ends wherever the first one leads to. -/
theorem Ends.bind_of_ok (h : run.Ends most machine)
    (hn : ∀ result after, run machine = (.ok result, after) →
      after.steps ≤ machine.steps + most → (next result).Ends more after) :
    (run >>= next).Ends (most + more) machine := by
  obtain ⟨hanswers, hsteps⟩ := h
  obtain ⟨answer, hanswer⟩ := Option.isSome_iff_exists.1 hanswers
  cases answer with
  | error failure =>
    have hrun : (run >>= next) machine = (.error (.failed failure), (run machine).2) := by
      rw [bind_apply, eq_of_failure hanswer]
    constructor
    · rw [hrun]
      rfl
    · rw [hrun]
      exact Nat.le_trans hsteps (Nat.add_le_add_left (Nat.le_add_right _ _) _)
  | ok result =>
    obtain ⟨hlater, hmore⟩ := hn result _ (eq_of_result hanswer) hsteps
    have hrun : (run >>= next) machine = next result (run machine).2 := by
      rw [bind_apply, eq_of_result hanswer]
    constructor
    · rw [hrun]
      exact hlater
    · rw [hrun]
      omega

theorem Ends.bind_free (h : run.Ends most machine) (hn : ∀ result, Free (next result)) :
    (run >>= next).Ends most machine :=
  h.bind_of_ok fun result after _ _ => (hn result).ends 0 after

/-- A run that meets a goal, followed by a run that ends wherever the goal leads to. -/
theorem Ends.bind {first : Goal ν α} {scopes : α → List (Scope ν)} {needs : List (Scope ν)}
    {number : Nat → Nat} (h : run.Ends most machine) (hmeets : Meets code first scopes needs run)
    (hready : machine.Ready code number needs)
    (hn : ∀ result trace (after : Machine ν σ), first number (.ok result) trace →
      after.Ready code number (scopes result ++ needs) → after.steps ≤ machine.steps + most →
      (next result).Ends more after) :
    (run >>= next).Ends (most + more) machine := by
  refine h.bind_of_ok fun result after hrun hsteps => ?_
  obtain ⟨-, hafter, trace, hmet⟩ := hready.after hmeets hrun
  exact hn result trace after hmet hafter hsteps

theorem Ends.of_eq {other : Run ν σ α} {start : Machine ν σ} (h : other.Ends most start)
    (hsame : run machine = other start) (hsteps : start.steps = machine.steps) :
    run.Ends most machine := by
  obtain ⟨hanswers, hcount⟩ := h
  rw [← hsame] at hanswers hcount
  exact ⟨hanswers, hsteps ▸ hcount⟩

theorem Ends.emit_bind {event : Event ν} {next : Unit → Run ν σ β}
    (h : (next ()).Ends most ⟨machine.steps, machine.world.emit event⟩) :
    (emit event >>= next).Ends most machine := by
  obtain ⟨hanswers, hsteps⟩ := h
  exact ⟨hanswers, hsteps⟩

theorem Ends.tick_bind {limits : Limits} {next : Unit → Run ν σ β}
    (hroom : machine.steps + 1 ≤ limits.maxSteps)
    (h : (next ()).Ends most ⟨machine.steps + 1, machine.world⟩) :
    (tick limits >>= next).Ends (most + 1) machine := by
  have htick : (tick limits >>= next) machine = next () ⟨machine.steps + 1, machine.world⟩ := by
    rw [bind_apply, tick_apply, if_neg (Nat.not_lt.2 hroom)]
  obtain ⟨hanswers, hsteps⟩ := h
  constructor
  · rw [htick]
    exact hanswers
  · rw [htick]
    have hafter : (next () ⟨machine.steps + 1, machine.world⟩).2.steps ≤
        machine.steps + 1 + most := hsteps
    omega

end Composition

end Run

/-! ## The reducer -/

section Reducer

variable {invoke : Invoke ν σ}

/-- The runs that answer a demand end, if so many steps are left and so many levels allowed. -/
def CallByName.Demand.Ends (invoke : Invoke ν σ) (code : Code ν) (most depth : Nat)
    (demand : Demand ν) : Prop :=
  ∀ (limits : Limits) (levels : Nat) (number : Nat → Nat) (machine : Machine ν σ),
    depth ≤ levels → machine.steps + most ≤ limits.maxSteps →
    let engine : Engine ν σ := ⟨limits, invoke⟩
    let nested := engine.nested levels
    match demand with
    | .reduce target within => ∀ expr scope, expr.renumber number = target →
        scope.renumber number = within → expr.identifier? = none →
        machine.Ready code number (scope :: expr.scopes) →
        (engine.stepBody nested expr scope).Ends most machine
    | .evaluate target within => ∀ rounds expr scope, most ≤ rounds →
        expr.renumber number = target → scope.renumber number = within →
        machine.Ready code number (scope :: expr.scopes) →
        (engine.resolveLoop nested rounds expr scope []).Ends most machine
    | .evaluateAll targets within => ∀ exprs scope, exprs.map (Expr.renumber number) = targets →
        scope.renumber number = within → machine.Ready code number (scope :: scopesAll exprs) →
        (nested.resolveAll scope exprs).Ends most machine
    | .name target within => ∀ rounds expr scope, most ≤ rounds →
        expr.renumber number = target → scope.renumber number = within →
        machine.Ready code number (scope :: expr.scopes) →
        (engine.nameLoop nested rounds expr scope).Ends most machine
    | .bind targets within => ∀ bindings scope table,
        bindings.map (Lambda.Binding.renumber number) = targets →
        scope.renumber number = within →
        machine.Ready code number (scope :: (Lambda.bindingScopes bindings ++ table.scopes)) →
        (nested.bindAll scope bindings table).Ends most machine

namespace Engine

/-- One step of a value, a native method, a failure or a scope. -/
theorem plainStep_ends {target : Expr ν} (within : Scope ν)
    (hlambda : ∀ items, target ≠ .lambda items)
    (happlication : ∀ operator arguments, target ≠ .application operator arguments) :
    (Demand.reduce target within).Ends invoke code 0 0 := by
  intro limits levels number machine _ _ engine nested expr scope hexpr _ hidentifier _
  unfold stepBody
  refine Run.Ends.emit_bind ?_
  cases expr with
  | value it => exact (Run.free_pure _).ends 0 _
  | native method => exact (Run.free_pure _).ends 0 _
  | failure failure => exact Run.ends_fail failure 0 _
  | identifier name => cases hidentifier
  | lambda items => exact absurd hexpr.symm (hlambda _)
  | scope inner => exact (Run.free_pure _).ends 0 _
  | application operator arguments => exact absurd hexpr.symm (happlication _ _)

/-- The demand that a loop answers. -/
def Aim.demand : Aim → Expr ν → Scope ν → Demand ν
  | .head => .evaluate
  | .name => .name

theorem Aim.demand_ends_iff (aim : Aim) {target : Expr ν} {within : Scope ν} {most depth : Nat} :
    (aim.demand target within).Ends invoke code most depth ↔
      ∀ (limits : Limits) (levels : Nat) (number : Nat → Nat) (machine : Machine ν σ),
        depth ≤ levels → machine.steps + most ≤ limits.maxSteps →
        ∀ rounds expr scope, most ≤ rounds → expr.renumber number = target →
          scope.renumber number = within → machine.Ready code number (scope :: expr.scopes) →
          (loop ⟨limits, invoke⟩ (Engine.nested ⟨limits, invoke⟩ levels) rounds aim expr scope).Ends
            most machine := by
  cases aim <;> exact Iff.rfl

/-- An operator, an argument or the name of a binding is what a loop one level deeper comes to. -/
theorem nestedLoop_ends (aim : Aim) {target : Expr ν} {within : Scope ν} {most depth : Nat}
    (h : (aim.demand target within).Ends invoke code most depth) {limits : Limits}
    {levels : Nat} {number : Nat → Nat} {machine : Machine ν σ} (hdepth : depth + 1 ≤ levels)
    (hroom : machine.steps + most ≤ limits.maxSteps) {expr : Expr ν} {scope : Scope ν}
    (hexpr : expr.renumber number = target) (hscope : scope.renumber number = within)
    (hready : machine.Ready code number (scope :: expr.scopes)) :
    (nestedLoop (Engine.nested ⟨limits, invoke⟩ levels) aim expr scope).Ends most machine := by
  obtain ⟨levels, rfl⟩ : ∃ lower, levels = lower + 1 := ⟨levels - 1, by omega⟩
  have hrounds : most ≤ limits.maxSteps := by omega
  rw [nestedLoop_nested]
  exact aim.demand_ends_iff.1 h limits levels number machine (by omega) hroom limits.maxSteps expr
    scope hrounds hexpr hscope hready

theorem finish_ends (aim : Aim) (head : Head ν) (most : Nat) (machine : Machine ν σ) :
    (finish aim head : Run ν σ _).Ends most machine := by
  cases aim with
  | head => exact (Run.free_pure _).ends most machine
  | name =>
    rw [finish]
    cases head.name? with
    | some name => exact (Run.free_pure _).ends most machine
    | none => exact Run.ends_fail _ most machine

theorem free_callNative (engine : Engine ν σ) (method : Native ν) (arguments : List (Expr ν))
    (scope : Scope ν) : Run.Free (engine.callNative method arguments scope) :=
  (Run.free_emit _).bind fun _ => (Run.free_withWorld _).bind fun _ =>
    (Run.free_emit _).bind fun _ => Run.free_pure _

theorem free_call (closure : Scope ν) (arguments : List (Expr ν)) (scope : Scope ν) :
    Run.Free (Run.call closure arguments scope : Run ν σ (Scope ν)) :=
  (Run.free_withWorld _).bind fun _ => (Run.free_emit _).bind fun _ => Run.free_pure _

theorem noArguments_ends (within : Scope ν) :
    (Demand.evaluateAll [] within).Ends invoke code 0 0 := by
  intro limits levels number machine _ _ engine nested exprs scope hexprs _ _
  cases exprs with
  | nil => exact (Run.free_pure _).ends 0 _
  | cons expr rest => cases hexprs

theorem noBindings_ends (within : Scope ν) : (Demand.bind [] within).Ends invoke code 0 0 := by
  intro limits levels number machine _ _ engine nested bindings scope table hbindings _ _
  cases bindings with
  | nil => exact (Run.free_pure _).ends 0 _
  | cons binding rest => cases hbindings

section Steps

variable (hnatives : invoke.Computes code)
include hnatives

/-- An application ends if its operator does, and its arguments where the operator has a use for
them. -/
theorem application_ends {operator : Expr ν} {arguments : List (Expr ν)} {within : Scope ν}
    {most depth more deeper : Nat}
    (hoperator : (Demand.evaluate operator within).Ends invoke code most depth)
    (harguments : (∃ head trace, head.isOperator = true ∧
        Derives code (.evaluate operator within) (.head head) trace) →
      (Demand.evaluateAll arguments within).Ends invoke code more deeper) :
    (Demand.reduce (.application operator arguments) within).Ends invoke code (most + more)
      (max (depth + 1) deeper) := by
  intro limits levels number machine hdepth hroom engine nested expr scope hexpr hscope
    hidentifier hready
  unfold stepBody
  cases expr with
  | application first rest =>
    have hparts : first.renumber number = operator ∧ renumberAll number rest = arguments := by
      simpa only [Expr.renumber, Expr.application.injEq] using hexpr
    obtain ⟨hfirst, hrest⟩ := hparts
    rw [renumberAll_eq_map] at hrest
    have hevents : Machine.Ready code number (scope :: (first.scopes ++ scopesAll rest))
        ⟨machine.steps, machine.world.emit (.resolving (.application first rest))⟩ :=
      hready.of_cells rfl
    refine Run.Ends.emit_bind ?_
    unfold stepApplication
    have hnested : Nested.Meets code nested := nested_meets hnatives levels
    have hmeets := (hnested.resolve first scope).weaken (fun _ _ _ => id)
      (show ∀ inner ∈ scope :: first.scopes,
        inner ∈ scope :: (first.scopes ++ scopesAll rest) by grind)
    have hends : (nested.resolve first scope).Ends most
        ⟨machine.steps, machine.world.emit (.resolving (.application first rest))⟩ :=
      nestedLoop_ends .head hoperator (by omega) (by show machine.steps + most ≤ _; omega) hfirst hscope
        (hevents.subset (by grind))
    refine hends.bind hmeets hevents fun head trace after hhead hafter hsteps => ?_
    have hderives : Derives code (.evaluate operator within) (.head (head.renumber number))
        trace := by
      rw [← hfirst, ← hscope]
      exact hhead
    have hrests : head.isOperator = true →
        (nested.resolveAll scope rest).Ends more after := by
      intro hhead
      have hhead' : (head.renumber number).isOperator = true := by
        rcases head with (_ | _) | _ <;> exact hhead
      have hafter' : after.steps + more ≤ limits.maxSteps := by
        have hcount : after.steps ≤ machine.steps + most := hsteps
        omega
      exact harguments ⟨_, trace, hhead', hderives⟩ limits levels number after (by omega) hafter'
        rest scope hrest hscope (hafter.subset (by grind))
    rcases head with (value | method) | closure
    · exact Run.Ends.emit_bind ((Run.free_pure _).ends more _)
    · exact (hrests rfl).bind_free fun heads =>
        (free_callNative engine method heads scope).bind fun _ => Run.free_pure _
    · exact (hrests rfl).bind_free fun heads =>
        (free_call closure heads scope).bind fun _ => Run.free_pure _
  | _ => cases hexpr

/-- Arguments end if the first one does, and the others unless it fails. -/
theorem arguments_ends {argument : Expr ν} {rest : List (Expr ν)} {within : Scope ν}
    {most depth more deeper : Nat}
    (hargument : (Demand.evaluate argument within).Ends invoke code most depth)
    (hrest : (∃ head trace, Derives code (.evaluate argument within) (.head head) trace) →
      (Demand.evaluateAll rest within).Ends invoke code more deeper) :
    (Demand.evaluateAll (argument :: rest) within).Ends invoke code (most + more)
      (max (depth + 1) deeper) := by
  intro limits levels number machine hdepth hroom engine nested exprs scope hexprs hscope hready
  cases exprs with
  | nil => cases hexprs
  | cons first others =>
    have hparts : first.renumber number = argument ∧ others.map (Expr.renumber number) = rest := by
      simpa only [List.map_cons, List.cons.injEq] using hexprs
    obtain ⟨hfirst, hothers⟩ := hparts
    rw [Nested.resolveAll_cons]
    have hnested : Nested.Meets code nested := nested_meets hnatives levels
    have hends : (nested.resolve first scope).Ends most machine :=
      nestedLoop_ends .head hargument (by omega) (by omega) hfirst hscope
        (hready.subset (by grind [scopesAll]))
    have hmeets := (hnested.resolve first scope).weaken (fun _ _ _ => id)
      (show ∀ inner ∈ scope :: first.scopes, inner ∈ scope :: scopesAll (first :: others) by
        grind [scopesAll])
    refine hends.bind hmeets hready fun head trace after hhead hafter hsteps => ?_
    have hderives : Derives code (.evaluate argument within) (.head (head.renumber number))
        trace := by
      rw [← hfirst, ← hscope]
      exact hhead
    have hall : (nested.resolveAll scope others).Ends more after :=
      hrest ⟨_, trace, hderives⟩ limits levels number after (by omega) (by omega) others scope
        hothers hscope (hafter.subset (by grind [scopesAll]))
    exact hall.bind_free fun heads => Run.free_pure _

/-- Bindings end if the name of the first one does, and the others unless it fails. -/
theorem bindings_ends {position : Expr ν} (bound : Expr ν) {rest : List (Lambda.Binding ν)}
    {within : Scope ν} {most depth more deeper : Nat}
    (hname : (Demand.name position within).Ends invoke code most depth)
    (hrest : (∃ name trace, Derives code (.name position within) (.name name) trace) →
      (Demand.bind rest within).Ends invoke code more deeper) :
    (Demand.bind ((position, bound) :: rest) within).Ends invoke code (most + more)
      (max (depth + 1) deeper) := by
  intro limits levels number machine hdepth hroom engine nested bindings scope table hbindings
    hscope hready
  cases bindings with
  | nil => cases hbindings
  | cons binding others =>
    obtain ⟨expr, value⟩ := binding
    have hparts : (expr.renumber number = position ∧ value.renumber number = bound) ∧
        others.map (Lambda.Binding.renumber number) = rest := by
      simpa only [List.map_cons, List.cons.injEq, Lambda.Binding.renumber, Prod.mk.injEq]
        using hbindings
    obtain ⟨⟨hposition, -⟩, hothers⟩ := hparts
    rw [Nested.bindAll_cons]
    have hnested : Nested.Meets code nested := nested_meets hnatives levels
    have hends : (nested.bindingName expr scope).Ends most machine :=
      nestedLoop_ends .name hname (by omega) (by omega) hposition hscope
        (hready.subset (by grind [Lambda.bindingScopes]))
    have hmeets := (hnested.bindingName expr scope).weaken (fun _ _ _ => id)
      (show ∀ inner ∈ scope :: expr.scopes, inner ∈ scope ::
          (Lambda.bindingScopes ((expr, value) :: others) ++ table.scopes) by
        grind [Lambda.bindingScopes])
    refine hends.bind hmeets hready fun name trace after hnamed hafter hsteps => ?_
    have hderives : Derives code (.name position within) (.name name) trace := by
      rw [← hposition, ← hscope]
      exact hnamed
    have hall : ∀ machine : Machine ν σ, machine.steps = after.steps →
        machine.world.cells = after.world.cells →
        (nested.bindAll scope others (table.insert name value)).Ends more machine := by
      intro machine hsame hcells
      refine hrest ⟨name, trace, hderives⟩ limits levels number machine (by omega) (by omega)
        others scope (table.insert name value) hothers hscope
        ((hafter.of_cells hcells).subset fun inner hm => ?_)
      have hinsert : inner ∈ (table.insert name value).scopes →
          inner ∈ value.scopes ∨ inner ∈ table.scopes := Table.scopes_insert
      grind [Lambda.bindingScopes]
    rw [Run.reportRebound]
    cases table.find? name with
    | none => exact hall after rfl rfl
    | some dropped => exact Run.Ends.emit_bind (hall _ rfl rfl)

omit hnatives in
theorem lambda_ends {items : List (Item ν)} {within : Scope ν} {most depth : Nat}
    (hbind : ∀ bindings body, Lambda.parts items = .ok (bindings, body) →
      (Demand.bind bindings within).Ends invoke code most depth) :
    (Demand.reduce (.lambda items) within).Ends invoke code most depth := by
  intro limits levels number machine hdepth hroom engine nested expr scope hexpr hscope
    hidentifier hready
  cases expr with
  | lambda list =>
    have hlist : renumberItems number list = items := by
      simpa only [Expr.renumber, Expr.lambda.injEq] using hexpr
    unfold stepBody
    refine Run.Ends.emit_bind (Run.Ends.bind_free ?_ fun frame => Run.free_pure _)
    rw [Nested.close]
    cases hparts : Lambda.parts list with
    | error shape => exact Run.ends_fail _ most _
    | ok parts =>
      obtain ⟨bindings, body⟩ := parts
      have hparts' := Lambda.parts_renumber_ok hparts number
      rw [hlist] at hparts'
      have hscopes := Lambda.parts_scopes hparts
      have hevents : Machine.Ready code number
          (scope :: (Lambda.bindingScopes bindings ++ Table.empty.scopes))
          ⟨machine.steps, machine.world.emit (.resolving (.lambda list))⟩ := by
        refine Machine.Ready.subset (hready.of_cells rfl) ?_
        simp only [show (Table.empty : Table (Expr ν)).scopes = [] from rfl, Expr.scopes]
        grind
      have hends : (nested.bindAll scope bindings .empty).Ends most
          ⟨machine.steps, machine.world.emit (.resolving (.lambda list))⟩ :=
        hbind _ _ hparts' limits levels number
          ⟨machine.steps, machine.world.emit (.resolving (.lambda list))⟩ hdepth hroom bindings
          scope .empty rfl hscope hevents
      exact hends.bind_free fun table =>
        (Run.free_emit _).bind fun _ => Run.free_withWorld _
  | _ => cases hexpr

/-- A loop about what is no identifier ends if its reduction does, and the loop about what it is
reduced to. -/
theorem loop_ends (aim : Aim) {target : Expr ν} {within : Scope ν} {most depth more deeper : Nat}
    (htarget : target.identifier? = none)
    (hreduce : (Demand.reduce target within).Ends invoke code most depth)
    (hnext : ∀ next inner trace, Derives code (.reduce target within) (.next next inner) trace →
      (aim.demand next inner).Ends invoke code more deeper) :
    (aim.demand target within).Ends invoke code (most + more + 1) (max depth deeper) := by
  refine aim.demand_ends_iff.2 ?_
  intro limits levels number machine hdepth hroom rounds expr scope hrounds hexpr hscope hready
  let engine : Engine ν σ := ⟨limits, invoke⟩
  let nested := engine.nested levels
  have hidentifier : expr.identifier? = none := by
    rw [← Expr.identifier?_renumber number, hexpr]
    exact htarget
  obtain ⟨rounds, rfl⟩ : ∃ fewer, rounds = fewer + 1 := ⟨rounds - 1, by omega⟩
  rw [loop_succ _ _ _ _ hidentifier, step_eq, bind_assoc]
  have hnested : Nested.Meets code nested := nested_meets hnatives levels
  have hcounted : Machine.Ready code number (scope :: expr.scopes)
      ⟨machine.steps + 1, machine.world⟩ := hready.of_cells rfl
  have hbody : (engine.stepBody nested expr scope).Ends most ⟨machine.steps + 1, machine.world⟩ :=
    hreduce limits levels number _ (by omega) (by show machine.steps + 1 + most ≤ _; omega) expr
      scope hexpr hscope hidentifier hcounted
  have hmeets : Run.Meets code (.derives code (.reduce expr scope) Outcome.toResult)
      Outcome.scopes (scope :: expr.scopes) (engine.stepBody nested expr scope) :=
    stepBody_meets hnatives hnested expr hidentifier scope
  refine Run.Ends.tick_bind (show machine.steps + 1 ≤ limits.maxSteps by omega) ?_
  refine hbody.bind hmeets hcounted fun outcome trace after houtcome hafter hsteps => ?_
  have hderives : Derives code (.reduce target within) (outcome.toResult.renumber number)
      trace := by
    rw [← hexpr, ← hscope]
    exact houtcome
  cases outcome with
  | finished head =>
    rw [loopAfterStep_finished]
    exact finish_ends aim head more after
  | further next inner =>
    have hcount : after.steps ≤ machine.steps + 1 + most := hsteps
    rw [loopAfterStep_further]
    exact aim.demand_ends_iff.1 (hnext _ _ trace hderives) limits levels number after (by omega)
      (by omega) rounds next inner (by omega) rfl rfl (hafter.subset (by grind [Outcome.scopes]))
  | binding name bound owner => exact hderives.not_reduces_name.elim

/-- A loop that its first step decides. -/
theorem loop_ends_at_once (aim : Aim) {target : Expr ν} {within : Scope ν} {result : Result ν}
    {trace : Trace ν} (hreduce : Derives code (.reduce target within) result trace)
    (hresult : ∀ next inner, result ≠ .next next inner)
    (h : ∃ most depth, (Demand.reduce target within).Ends invoke code most depth) :
    ∃ most depth, (aim.demand target within).Ends invoke code most depth := by
  obtain ⟨most, depth, hends⟩ := h
  refine ⟨most + 0 + 1, max depth 0,
    loop_ends hnatives aim hreduce.identifier?_eq_none hends fun next inner trace hnext => ?_⟩
  exact absurd (hreduce.deterministic hnext).1 (hresult next inner)

/-- A loop that goes on after its first step. -/
theorem loop_ends_later (aim : Aim) {target next : Expr ν} {within inner : Scope ν}
    {trace : Trace ν} (hreduce : Derives code (.reduce target within) (.next next inner) trace)
    (h : ∃ most depth, (Demand.reduce target within).Ends invoke code most depth)
    (hnext : ∃ most depth, (aim.demand next inner).Ends invoke code most depth) :
    ∃ most depth, (aim.demand target within).Ends invoke code most depth := by
  obtain ⟨most, depth, hends⟩ := h
  obtain ⟨more, deeper, hlater⟩ := hnext
  refine ⟨most + more + 1, max depth deeper,
    loop_ends hnatives aim hreduce.identifier?_eq_none hends fun next inner trace hnext => ?_⟩
  cases (hreduce.deterministic hnext).1
  exact hlater

omit hnatives in
theorem ownName_ends (name : String) (within : Scope ν) :
    (Demand.name (.identifier name) within).Ends invoke code 0 0 := by
  intro limits levels number machine _ _ engine nested rounds expr scope _ hexpr _ _
  cases expr with
  | identifier other =>
    rw [nameLoop_identifier, ownName]
    cases positional? other with
    | some index => exact Run.ends_fail _ 0 _
    | none => exact (Run.free_pure _).ends 0 _
  | _ => cases hexpr

theorem terminal_ends (result : Terminal ν) (within : Scope ν) :
    (Demand.evaluate result.toExpr within).Ends invoke code 1 0 := by
  have hidentifier : result.toExpr.identifier? = none := by
    cases result <;> rfl
  have hreduce : (Demand.reduce result.toExpr within).Ends invoke code 0 0 := by
    cases result with
    | value it => exact plainStep_ends within nofun nofun
    | native method => exact plainStep_ends within nofun nofun
  have hnext : ∀ next inner trace,
      Derives code (.reduce result.toExpr within) (.next next inner) trace →
      (Demand.evaluate next inner).Ends invoke code 0 0 := by
    intro next inner trace hreduces
    cases result <;> cases hreduces
  exact loop_ends hnatives .head hidentifier hreduce hnext

/-- Two steps are enough for an identifier with a record, and what it is bound to is evaluated
otherwise. -/
theorem identifier_ends {name : String} {within : Scope ν} {most depth : Nat}
    (hbound : ∀ bound owner, within.find name = .ok (bound, owner) →
      (Demand.evaluate bound owner).Ends invoke code most depth) :
    (Demand.evaluate (.identifier name) within).Ends invoke code (most + 2) depth := by
  intro limits levels number machine hdepth hroom engine nested rounds expr scope hrounds hexpr
    hscope hready
  cases expr with
  | identifier other =>
    have hname : other = name := by
      simpa only [Expr.renumber, Expr.identifier.injEq] using hexpr
    subst hname
    obtain ⟨rounds, rfl⟩ : ∃ fewer, rounds = fewer + 2 := ⟨rounds - 2, by omega⟩
    rw [resolveLoop_identifier]
    refine Run.Ends.tick_bind (show machine.steps + 1 ≤ limits.maxSteps by omega)
      (Run.Ends.emit_bind ?_)
    have hevents : Machine.Ready code number [scope]
        ⟨machine.steps + 1, machine.world.emit (.resolving (.identifier other))⟩ :=
      Machine.Ready.of_cells hready rfl
    cases hfind : scope.find other with
    | error failure =>
      rw [identifierRun_missing hfind]
      exact Run.ends_fail failure _ _
    | ok found =>
      obtain ⟨bound, owner⟩ := found
      have hconsistent := hready.sound.consistent
      obtain ⟨howner, hmem, -⟩ := hready.stored.head.find hconsistent hfind
      cases hrecord :
          (machine.world.emit (.resolving (.identifier other))).memoized owner other with
      | some result =>
        have hscopes : machine.world.StoresAll result.toExpr.scopes := by
          cases result <;> exact .nil
        have hterminal := terminal_ends hnatives result.forget (owner.renumber number) limits levels
          number ⟨machine.steps + 1, machine.world.emit (.resolving (.identifier other))⟩
          (Nat.zero_le _) (by show machine.steps + 1 + 1 ≤ _; omega) (rounds + 1) result.toExpr
          owner (by omega) (result.renumber_toExpr number) rfl
          ⟨hevents.sound, .cons howner hscopes, hevents.fresh⟩
        exact (hterminal.mono (Nat.le_add_left 1 most)).of_eq
          (identifierRun_recorded hfind hrecord) rfl
      | none =>
        have hfound := Scope.find_renumber_ok number scope hfind
        rw [hscope] at hfound
        have hends := hbound _ _ hfound limits levels number
          ⟨machine.steps + 1, machine.world.emit (.resolving (.identifier other))⟩ hdepth
          (by show machine.steps + 1 + most ≤ _; omega) (rounds + 1) bound owner (by omega) rfl rfl
          ⟨hevents.sound, .cons howner (howner.contents hconsistent hmem), hevents.fresh⟩
        have hmore := (hends.mono (Nat.le_succ most)).bind_free fun head =>
          (Run.free_record head [(owner, other)]).bind fun _ => Run.free_pure head
        exact hmore.of_eq (identifierRun_unrecorded hfind hrecord) rfl
  | _ => cases hexpr

end Steps

end Engine

/-- For every derivation there are limits that allow the runs for it. -/
theorem CallByName.Derives.ends (hnatives : invoke.Computes code) {demand : Demand ν}
    {result : Result ν} {trace : Trace ν} (h : Derives code demand result trace) :
    ∃ most depth, demand.Ends invoke code most depth := by
  induction h with
  | value | native | failure | closure | thunk | call | root =>
    exact ⟨0, 0, Engine.plainStep_ends _ nofun nofun⟩
  | malformed scope hparts =>
    refine ⟨0, 0, Engine.lambda_ends fun bindings body hwell => ?_⟩
    cases hparts.symm.trans hwell
  | lambdaFails hparts _ ih | lambda hparts _ ih =>
    obtain ⟨most, depth, hends⟩ := ih
    refine ⟨most, depth, Engine.lambda_ends fun bindings body hwell => ?_⟩
    cases hparts.symm.trans hwell
    exact hends
  | operatorFails arguments hoperator ih =>
    obtain ⟨most, depth, hends⟩ := ih
    refine ⟨most + 0, max (depth + 1) 0, Engine.application_ends hnatives hends ?_⟩
    rintro ⟨head, trace, -, hhead⟩
    cases (hoperator.deterministic hhead).1
  | plainValue arguments hoperator ih =>
    obtain ⟨most, depth, hends⟩ := ih
    refine ⟨most + 0, max (depth + 1) 0, Engine.application_ends hnatives hends ?_⟩
    rintro ⟨head, trace, happlies, hhead⟩
    cases (hoperator.deterministic hhead).1
    cases happlies
  | argumentFails _ _ _ ihoperator iharguments | nativeCall _ _ ihoperator iharguments
  | closureCall _ _ ihoperator iharguments =>
    obtain ⟨most, depth, hends⟩ := ihoperator
    obtain ⟨more, deeper, hall⟩ := iharguments
    exact ⟨_, _, Engine.application_ends hnatives hends fun _ => hall⟩
  | missing hfind =>
    refine ⟨0 + 2, 0, Engine.identifier_ends hnatives fun bound owner hfound => ?_⟩
    cases hfind.symm.trans hfound
  | identifier hfind _ ih =>
    obtain ⟨most, depth, hends⟩ := ih
    refine ⟨most + 2, depth, Engine.identifier_ends hnatives fun bound owner hfound => ?_⟩
    cases hfind.symm.trans hfound
    exact hends
  | fails hreduce ih => exact Engine.loop_ends_at_once hnatives .head hreduce nofun ih
  | head hreduce ih => exact Engine.loop_ends_at_once hnatives .head hreduce nofun ih
  | next hreduce _ ihreduce ihnext =>
    exact Engine.loop_ends_later hnatives .head hreduce ihreduce ihnext
  | noArgument scope => exact ⟨0, 0, Engine.noArguments_ends scope⟩
  | firstFails rest hargument ih =>
    obtain ⟨most, depth, hends⟩ := ih
    refine ⟨most + 0, max (depth + 1) 0, Engine.arguments_ends hnatives hends ?_⟩
    rintro ⟨head, trace, hhead⟩
    cases (hargument.deterministic hhead).1
  | laterFails _ _ ihargument ihrest | arguments _ _ ihargument ihrest =>
    obtain ⟨most, depth, hends⟩ := ihargument
    obtain ⟨more, deeper, hall⟩ := ihrest
    exact ⟨_, _, Engine.arguments_ends hnatives hends fun _ => hall⟩
  | ownName scope _ | positional scope _ => exact ⟨0, 0, Engine.ownName_ends _ scope⟩
  | nameFails hreduce ih => exact Engine.loop_ends_at_once hnatives .name hreduce nofun ih
  | name hreduce _ ih => exact Engine.loop_ends_at_once hnatives .name hreduce nofun ih
  | noName hreduce _ ih => exact Engine.loop_ends_at_once hnatives .name hreduce nofun ih
  | nextName hreduce _ ihreduce ihnext =>
    exact Engine.loop_ends_later hnatives .name hreduce ihreduce ihnext
  | noBinding scope => exact ⟨0, 0, Engine.noBindings_ends scope⟩
  | bindingFails bound rest hname ih =>
    obtain ⟨most, depth, hends⟩ := ih
    refine ⟨most + 0, max (depth + 1) 0, Engine.bindings_ends hnatives bound hends ?_⟩
    rintro ⟨name, trace, hnamed⟩
    cases (hname.deterministic hnamed).1
  | laterBindingFails bound _ _ ihname ihrest | binding bound _ _ ihname ihrest =>
    obtain ⟨most, depth, hends⟩ := ihname
    obtain ⟨more, deeper, hall⟩ := ihrest
    exact ⟨_, _, Engine.bindings_ends hnatives bound hends fun _ => hall⟩

/-- Forcing ends, if so many steps and rounds are left and so many levels allowed. -/
def ForceEnds (invoke : Invoke ν σ) (code : Code ν) (most depth : Nat) (target : Expr ν)
    (within : Scope ν) : Prop :=
  ∀ (limits : Limits) (rounds : Nat) (number : Nat → Nat) (machine : Machine ν σ)
    (expr : Expr ν) (scope : Scope ν), depth ≤ limits.maxDepth → most ≤ rounds →
    machine.steps + most ≤ limits.maxSteps → expr.renumber number = target →
    scope.renumber number = within → machine.Ready code number (scope :: expr.scopes) →
    (Engine.forceLoop ⟨limits, invoke⟩ rounds expr scope).Ends most machine

/-- Forcing ends if the evaluation does, and the forcing of the body of a closure. -/
theorem Engine.force_ends (hnatives : invoke.Computes code) {target : Expr ν} {within : Scope ν}
    {most depth more deeper : Nat}
    (heval : (Demand.evaluate target within).Ends invoke code most depth)
    (hbody : ∀ closure trace,
      Derives code (.evaluate target within) (.head (.closure closure)) trace →
      ForceEnds invoke code more deeper closure.body closure) :
    ForceEnds invoke code (most + more + 1) (max depth deeper) target within := by
  intro limits rounds number machine expr scope hdepth hrounds hroom hexpr hscope hready
  obtain ⟨rounds, rfl⟩ : ∃ fewer, rounds = fewer + 1 := ⟨rounds - 1, by omega⟩
  rw [forceLoop_succ]
  have hends : (Engine.resolveTop ⟨limits, invoke⟩ expr scope).Ends most machine :=
    nestedLoop_ends .head heval (show depth + 1 ≤ limits.maxDepth + 1 by omega) (by omega) hexpr hscope
      hready
  have hmeets : Run.Meets code (.derives code (.evaluate expr scope) .head) Head.scopes
      (scope :: expr.scopes) (Engine.resolveTop ⟨limits, invoke⟩ expr scope) :=
    resolveTop_meets hnatives expr scope
  refine (hends.bind hmeets hready fun head trace after hhead hafter hsteps => ?_).mono
    (show most + more ≤ most + more + 1 by omega)
  have hderives : Derives code (.evaluate target within) (.head (head.renumber number)) trace := by
    rw [← hexpr, ← hscope]
    exact hhead
  cases head with
  | terminal result => exact (Run.free_pure _).ends more _
  | closure closure =>
    refine Run.Ends.emit_bind ?_
    have hstored : after.world.Stores closure := hafter.stored.head
    have hframe : after.Ready code number (closure :: closure.body.scopes) :=
      ⟨hafter.sound, .cons hstored (hstored.body hafter.sound.consistent), hafter.fresh⟩
    exact hbody _ trace hderives limits rounds number ⟨after.steps, _⟩ closure.body closure
      (by omega) (by omega) (by show after.steps + more ≤ _; omega)
      (closure.renumber_body number).symm rfl (hframe.of_cells rfl)

/-- For every derivation of a forced result there are limits that allow the run for it. -/
theorem CallByName.Forces.ends (hnatives : invoke.Computes code) {target : Expr ν}
    {within : Scope ν} {answer : Except Failure (Terminal ν)} {trace : Trace ν}
    (h : Forces code target within answer trace) :
    ∃ most depth, ForceEnds invoke code most depth target within := by
  induction h with
  | fails heval | terminal heval =>
    obtain ⟨most, depth, hends⟩ := heval.ends hnatives
    refine ⟨most + 0 + 1, max depth 0, Engine.force_ends hnatives hends ?_⟩
    intro closure trace hclosure
    cases (heval.deterministic hclosure).1
  | closure heval _ ih =>
    obtain ⟨most, depth, hends⟩ := heval.ends hnatives
    obtain ⟨more, deeper, hlater⟩ := ih
    refine ⟨most + more + 1, max depth deeper, Engine.force_ends hnatives hends ?_⟩
    intro closure trace hclosure
    cases (heval.deterministic hclosure).1
    exact hlater

end Reducer
end CallByNeed
