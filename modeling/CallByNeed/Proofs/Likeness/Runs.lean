import CallByNeed.Proofs.Likeness.Basic
import CallByNeed.Proofs.Runs.Equations
import CallByNeed.Proofs.Worlds.History

/-! # Runs that mirror each other

Two runs of one engine start abreast, with alike expressions in worlds whose frames correspond. A
comparison says when worlds correspond, which stops count as the same, and which stops of the first
run excuse whatever the second one does. If it is fair (`Comparison.Fair`), the runs stay abreast:
they take the same steps and come to alike results, unless the first one is excused
(`Engine.forceLoop_mirrors`).
-/

namespace CallByNeed
set_option autoImplicit false

variable {ν σ α β : Type}

/-! ## Comparisons -/

structure Comparison (ν σ : Type) where
  like : Likeness ν
  /-- Worlds whose frames correspond at these places. -/
  worlds : Places → World ν σ → World ν σ → Prop
  /-- Stops of the first run after which the second one may do anything. -/
  excused : Stop → Prop
  stops : Stop → Stop → Prop

/-- Events that are alike: native calls on alike heads in alike scopes, or no native calls. -/
inductive Event.Alike (like : Likeness ν) (place : Places) : Event ν → Event ν → Prop where
  | quiet {event event' : Event ν} (h : event.call? = none) (h' : event'.call? = none) :
      Event.Alike like place event event'
  | invoking (method : Native ν) {heads heads' : List (Head ν)} {scope scope' : Scope ν}
      (hheads : List.Forall₂ (Head.Alike like place) heads heads')
      (hscope : scope.Alike like place scope') :
      Event.Alike like place (.invoking method (heads.map Head.toExpr) scope)
        (.invoking method (heads'.map Head.toExpr) scope')

/-- The comparison holds on to what the reducer and the native methods of the engine do. -/
structure Comparison.Fair (c : Comparison ν σ) (engine : Engine ν σ) : Prop where
  stops : ∀ stop, c.stops stop stop
  /-- If the failures of what is evaluated may be excused, so are budgets that are used up. -/
  cut : ∀ {failure}, c.excused (.failed failure) → ∀ maxSteps, c.excused (.outOfSteps maxSteps)
  name : ∀ {value value'}, c.like.value value value' → value.name? = value'.name?
  /-- Heads that are no names are shown as the same text, unless the text is an excuse. -/
  misnamed : ∀ {place} {head head' : Head ν}, head.Alike c.like place head' →
    c.excused (.failed (.invalidBindingName head.toExpr.display)) ∨
      c.stops (.failed (.invalidBindingName head.toExpr.display))
        (.failed (.invalidBindingName head'.toExpr.display))
  /-- What is loosely alike is an excused failure, or it is a pair of thunks of alike heads, which
  no scope matters to. -/
  loose : ∀ {place world world'} {expr expr' : Expr ν}, c.worlds place world world' →
    c.like.loose expr expr' →
    (∃ failure, expr = .failure failure ∧ c.excused (.failed failure)) ∨
      ∃ number number' scope scope', ∃ head head' : Head ν,
        expr = .scope (.thunk number head.toExpr scope) ∧
        expr' = .scope (.thunk number' head'.toExpr scope') ∧ head.Alike c.like place head'
  emit : ∀ {place world world' event event'}, c.worlds place world world' →
    Event.Alike c.like place event event' →
    c.worlds place (world.emit event) (world'.emit event')
  newScope : ∀ {place world world'} (make make' : Nat → Scope ν), c.worlds place world world' →
    ∃ later : Places, place.Extends later ∧ later world.size world'.size ∧
      c.worlds later (world.newScope make).2 (world'.newScope make').2
  record : ∀ {place world world' number number'}, c.worlds place world world' →
    place number number' → ∀ name, Option.Rel (Terminal.Alike c.like)
      (world.recordAt number name) (world'.recordAt number' name)
  memoize : ∀ {place world world'} {scope scope' : Scope ν} {result result'} (name : String),
    c.worlds place world world' → place scope.number scope'.number →
    result.Alike c.like result' →
    c.worlds place (world.memoize scope name result) (world'.memoize scope' name result')
  /-- A native method gives an excused failure, or alike things on both sides. -/
  native : ∀ {place world world'} {heads heads' : List (Head ν)} {scope scope' : Scope ν}
    (method : Native ν), c.worlds place world world' →
    List.Forall₂ (Head.Alike c.like place) heads heads' → scope.Alike c.like place scope' →
    let after := engine.invoke method (heads.map Head.toExpr) scope world
    let after' := engine.invoke method (heads'.map Head.toExpr) scope' world'
    (∃ failure, after.1 = .failure failure ∧ c.excused (.failed failure)) ∨
      ∃ later : Places, place.Extends later ∧ after.1.Alike c.like later after'.1 ∧
        c.worlds later after.2 after'.2

namespace Comparison

/-- Machines with the same count of steps in corresponding worlds. -/
structure Machines (c : Comparison ν σ) (place : Places) (machine machine' : Machine ν σ) :
    Prop where
  steps : machine.steps = machine'.steps
  worlds : c.worlds place machine.world machine'.world

/-- How two runs end: the first one is excused, or both stop for the same reason, or both come to
related results. -/
inductive Ends (c : Comparison ν σ) (related : Places → α → α → Prop) (place : Places) :
    Except Stop α × Machine ν σ → Except Stop α × Machine ν σ → Prop where
  | excused {stop : Stop} {machine : Machine ν σ} {other : Except Stop α × Machine ν σ}
      (h : c.excused stop) : Ends c related place (.error stop, machine) other
  | stopped {later : Places} {stop stop' : Stop} {machine machine' : Machine ν σ}
      (hlater : place.Extends later) (hstop : c.stops stop stop')
      (hmachines : c.Machines later machine machine') :
      Ends c related place (.error stop, machine) (.error stop', machine')
  | came {later : Places} {result result' : α} {machine machine' : Machine ν σ}
      (hlater : place.Extends later) (hresult : related later result result')
      (hmachines : c.Machines later machine machine') :
      Ends c related place (.ok result, machine) (.ok result', machine')

/-- The same reason to stop, or alike results of forcing. -/
inductive OutcomesAlike (c : Comparison ν σ) :
    Except Stop (Expr ν) → Except Stop (Expr ν) → Prop where
  | stopped {stop stop' : Stop} (h : c.stops stop stop') :
      OutcomesAlike c (.error stop) (.error stop')
  | came {result result' : Terminal ν} (h : result.Alike c.like result') :
      OutcomesAlike c (.ok result.toExpr) (.ok result'.toExpr)

theorem Ends.before {c : Comparison ν σ} {related : Places → α → α → Prop} {place later : Places}
    {first second : Except Stop α × Machine ν σ} (h : c.Ends related later first second)
    (hlater : place.Extends later) : c.Ends related place first second := by
  cases h with
  | excused hexcused => exact .excused hexcused
  | stopped hmore hstop hmachines => exact .stopped (hlater.trans hmore) hstop hmachines
  | came hmore hresult hmachines => exact .came (hlater.trans hmore) hresult hmachines

end Comparison

/-- From machines that are abreast, now or later, the runs end alike. -/
def Run.Mirrors (c : Comparison ν σ) (related : Places → α → α → Prop) (place : Places)
    (run run' : Run ν σ α) : Prop :=
  ∀ (now : Places) (machine machine' : Machine ν σ), place.Extends now →
    c.Machines now machine machine' → c.Ends related now (run machine) (run' machine')

namespace Run

variable {c : Comparison ν σ} {place later : Places} {related : Places → β → β → Prop}

/-! ## Composition -/

theorem Mirrors.mono {run run' : Run ν σ β} (h : Mirrors c related place run run')
    (hlater : place.Extends later) : Mirrors c related later run run' :=
  fun now machine machine' hnow hmachines =>
    h now machine machine' (hlater.trans hnow) hmachines

/-- The first run ends with an excuse from wherever it starts. -/
def Excused (c : Comparison ν σ) (run : Run ν σ β) : Prop :=
  ∀ machine, ∃ stop, (run machine).1 = .error stop ∧ c.excused stop

theorem Excused.ends {run : Run ν σ β} (h : Excused c run) (machine : Machine ν σ)
    (other : Except Stop β × Machine ν σ) : c.Ends related place (run machine) other := by
  obtain ⟨stop, hstop, hexcused⟩ := h machine
  rcases hrun : run machine with ⟨outcome, after⟩
  rw [hrun] at hstop
  cases hstop
  exact .excused hexcused

/-- After runs that end alike, or of which the first one leads to an excuse, the rest has to go on
from related results only. -/
theorem mirrors_bind {between : Places → α → α → Prop} {run run' : Run ν σ α}
    {next next' : α → Run ν σ β}
    (h : ∀ now machine machine', place.Extends now → c.Machines now machine machine' →
      (∃ result after, run machine = (.ok result, after) ∧ Excused c (next result)) ∨
        c.Ends between now (run machine) (run' machine'))
    (hn : ∀ {later : Places} {result result' : α}, place.Extends later →
      between later result result' →
      Mirrors c related later (next result) (next' result')) :
    Mirrors c related place (run >>= next) (run' >>= next') := by
  intro now machine machine' hnow hmachines
  rw [bind_apply, bind_apply]
  rcases h now machine machine' hnow hmachines with ⟨result, after, hrun, hexcused⟩ | hends
  · rw [hrun]
    exact hexcused.ends after _
  · revert hends
    generalize run machine = first
    generalize run' machine' = second
    intro hends
    cases hends with
    | excused hexcused => exact .excused hexcused
    | stopped hlater hstop hafter => exact .stopped hlater hstop hafter
    | @came later result result' after after' hlater hresult hafter =>
      exact (hn (hnow.trans hlater) hresult later after after' (.refl later) hafter).before hlater

theorem Mirrors.bind {between : Places → α → α → Prop} {run run' : Run ν σ α}
    {next next' : α → Run ν σ β} (h : Mirrors c between place run run')
    (hn : ∀ {later : Places} {result result' : α}, place.Extends later →
      between later result result' →
      Mirrors c related later (next result) (next' result')) :
    Mirrors c related place (run >>= next) (run' >>= next') :=
  mirrors_bind (fun now machine machine' hnow hmachines =>
    .inr (h now machine machine' hnow hmachines)) hn

theorem mirrors_pure {result result' : β}
    (h : ∀ {later : Places}, place.Extends later → related later result result') :
    Mirrors c related place (pure result : Run ν σ β) (pure result') :=
  fun _ _ _ hnow hmachines => .came (.refl _) (h hnow) hmachines

theorem mirrors_throw {stop stop' : Stop} (h : c.stops stop stop') :
    Mirrors c related place (throw stop : Run ν σ β) (throw stop') :=
  fun _ _ _ _ hmachines => .stopped (.refl _) h hmachines

theorem Excused.bind {run : Run ν σ α} {next : α → Run ν σ β} (h : Excused c run) :
    Excused c (run >>= next) := by
  intro machine
  obtain ⟨stop, hstop, hexcused⟩ := h machine
  rw [bind_apply]
  rcases hrun : run machine with ⟨outcome, after⟩
  rw [hrun] at hstop
  cases hstop
  exact ⟨stop, rfl, hexcused⟩

theorem excused_throw {stop : Stop} (h : c.excused stop) :
    Excused c (throw stop : Run ν σ β) :=
  fun _ => ⟨stop, rfl, h⟩

/-- A step that may be one too many, followed by what is excused. -/
theorem excused_tick_bind {limits : Limits} {next : Unit → Run ν σ β}
    (hcut : c.excused (.outOfSteps limits.maxSteps)) (hn : Excused c (next ())) :
    Excused c (tick limits >>= next) := by
  intro machine
  rw [bind_apply, tick_apply]
  by_cases hlimit : limits.maxSteps < machine.steps + 1
  · rw [if_pos hlimit]
    exact ⟨_, rfl, hcut⟩
  · rw [if_neg hlimit]
    exact hn _

theorem excused_emit_bind {event : Event ν} {next : Unit → Run ν σ β}
    (hn : Excused c (next ())) : Excused c (emit event >>= next) := by
  intro machine
  rw [bind_apply, emit_apply]
  exact hn _

/-! ## Primitive runs -/

section Primitives

variable {engine : Engine ν σ} (fair : c.Fair engine)
include fair

theorem mirrors_fail (failure : Failure) :
    Mirrors c related place (fail failure : Run ν σ β) (fail failure) :=
  mirrors_throw (fair.stops _)

theorem mirrors_tick (limits : Limits) :
    Mirrors c (fun _ _ _ => True) place (tick limits : Run ν σ Unit) (tick limits) := by
  intro now machine machine' _ hmachines
  have hsteps := hmachines.steps
  rw [tick_apply, tick_apply, hsteps]
  by_cases hlimit : limits.maxSteps < machine'.steps + 1
  · rw [if_pos hlimit, if_pos hlimit]
    exact .stopped (.refl _) (fair.stops _) ⟨rfl, hmachines.worlds⟩
  · rw [if_neg hlimit, if_neg hlimit]
    exact .came (.refl _) trivial ⟨rfl, hmachines.worlds⟩

theorem mirrors_exhaust (limits : Limits) :
    Mirrors c related place (exhaust limits : Run ν σ β) (exhaust limits) :=
  (mirrors_tick fair limits).bind fun _ _ => mirrors_throw (fair.stops _)

theorem mirrors_emit {event event' : Event ν} (h : event.call? = none)
    (h' : event'.call? = none) :
    Mirrors c (fun _ _ _ => True) place (emit event : Run ν σ Unit) (emit event') :=
  fun _ _ _ _ hmachines =>
    .came (.refl _) trivial ⟨hmachines.steps, fair.emit hmachines.worlds (.quiet h h')⟩

theorem mirrors_invoking (method : Native ν) {heads heads' : List (Head ν)}
    {scope scope' : Scope ν} (hheads : List.Forall₂ (Head.Alike c.like place) heads heads')
    (hscope : scope.Alike c.like place scope') :
    Mirrors c (fun _ _ _ => True) place
      (emit (.invoking method (heads.map Head.toExpr) scope) : Run ν σ Unit)
      (emit (.invoking method (heads'.map Head.toExpr) scope')) := by
  intro now machine machine' hnow hmachines
  refine .came (.refl _) trivial ⟨hmachines.steps, fair.emit hmachines.worlds ?_⟩
  exact .invoking method (hheads.imp fun _ _ h => h.mono hnow) (hscope.mono hnow)

theorem mirrors_reportRebound (name : String) {table table' : Table (Expr ν)}
    (h : table.Alike c.like place table') :
    Mirrors c (fun _ _ _ => True) place (reportRebound name table : Run ν σ Unit)
      (reportRebound name table') := by
  rw [reportRebound, reportRebound]
  have hfind := h.find? name
  revert hfind
  generalize table.find? name = first
  generalize table'.find? name = second
  intro hfind
  cases hfind with
  | none => exact mirrors_pure fun _ => trivial
  | some _ => exact mirrors_emit fair rfl rfl

/-- Records of the same name in frames that correspond. -/
theorem mirrors_record (name : String) {head head' : Head ν} {owner owner' : Scope ν}
    (hhead : head.Alike c.like place head') (howner : owner.Alike c.like place owner') :
    Mirrors c (fun _ _ _ => True) place (record head [(owner, name)] : Run ν σ Unit)
      (record head' [(owner', name)]) := by
  cases hhead with
  | closure _ _ => exact mirrors_pure fun _ => trivial
  | terminal hresult =>
    intro now machine machine' hnow hmachines
    refine .came (.refl _) trivial ⟨hmachines.steps, ?_⟩
    exact fair.memoize name hmachines.worlds (hnow _ _ howner.number) hresult

theorem mirrors_memoized (name : String) {owner owner' : Scope ν}
    (howner : owner.Alike c.like place owner') :
    Mirrors c (fun _ => Option.Rel (Terminal.Alike c.like)) place
      (memoized owner name : Run ν σ (Option (Terminal ν))) (memoized owner' name) := by
  intro now machine machine' hnow hmachines
  exact .came (.refl _) (fair.record hmachines.worlds (hnow _ _ howner.number) name) hmachines

/-- New frames correspond to each other from now on. -/
theorem mirrors_newScope {make make' : Nat → Scope ν} {holds : Scope ν → Prop}
    (hmake : ∀ {later : Places} {number number'}, place.Extends later → later number number' →
      (make number).Alike c.like later (make' number'))
    (hholds : ∀ number, holds (make number)) :
    Mirrors c (fun now frame frame' => frame.Alike c.like now frame' ∧ holds frame) place
      (withWorld (World.newScope make) : Run ν σ (Scope ν))
      (withWorld (World.newScope make')) := by
  intro now machine machine' hnow hmachines
  obtain ⟨later, hlater, hnumber, hworlds⟩ := fair.newScope make make' hmachines.worlds
  exact .came hlater ⟨hmake (hnow.trans hlater) hnumber, hholds _⟩ ⟨hmachines.steps, hworlds⟩

/-- New thunks are alike one by one. -/
theorem newThunks_alike {exprs exprs' : List (Expr ν)} {calling calling' : Scope ν}
    (hexprs : AllAlike c.like place exprs exprs')
    (hcalling : calling.Alike c.like place calling') {now : Places} (hnow : place.Extends now)
    {world world' : World ν σ} (hworlds : c.worlds now world world') :
    ∃ later : Places, now.Extends later ∧
      AllAlike c.like later (world.newThunks calling exprs).1 (world'.newThunks calling' exprs').1 ∧
      c.worlds later (world.newThunks calling exprs).2 (world'.newThunks calling' exprs').2 := by
  induction hexprs generalizing now world world' with
  | nil => exact ⟨now, .refl _, .nil, hworlds⟩
  | @cons expr expr' rest rest' hexpr _ ih =>
    obtain ⟨middle, hmiddle, hnumber, hthunk⟩ := fair.newScope
      (fun number => .thunk number expr calling)
      (fun number => .thunk number expr' calling') hworlds
    obtain ⟨later, hlater, hrest, hall⟩ := ih (hnow.trans hmiddle) hthunk
    have hscope := (hcalling.mono (hnow.trans hmiddle)).newThunk hnumber
      (hexpr.mono (hnow.trans hmiddle))
    exact ⟨later, hmiddle.trans hlater, .cons (.scope (hscope.mono hlater)) hrest, hall⟩

/-- A call of alike closures on alike arguments. -/
theorem mirrors_call {closure closure' scope scope' : Scope ν}
    {arguments arguments' : List (Expr ν)}
    (hclosure : closure.Alike c.like place closure')
    (harguments : AllAlike c.like place arguments arguments')
    (hscope : scope.Alike c.like place scope') :
    Mirrors c (Scope.Alike c.like) place (call closure arguments scope : Run ν σ (Scope ν))
      (call closure' arguments' scope') := by
  have hnew : Mirrors c (Scope.Alike c.like) place
      (withWorld (World.newCall closure arguments scope) : Run ν σ (Scope ν))
      (withWorld (World.newCall closure' arguments' scope')) := by
    intro now machine machine' hnow hmachines
    obtain ⟨middle, hmiddle, hthunks, hworlds⟩ :=
      newThunks_alike fair harguments hscope hnow hmachines.worlds
    obtain ⟨later, hlater, hnumber, hcall⟩ := fair.newScope
      (fun number => .call number closure (machine.world.newThunks scope arguments).1)
      (fun number => .call number closure' (machine'.world.newThunks scope' arguments').1) hworlds
    refine .came (hmiddle.trans hlater) ?_ ⟨hmachines.steps, hcall⟩
    exact (hclosure.mono (hnow.trans (hmiddle.trans hlater))).newCall hnumber
      (allAlike_mono hlater hthunks)
  refine hnew.bind fun _ hframe => (mirrors_emit fair rfl rfl).bind fun hlater _ => mirrors_pure ?_
  exact fun hmore => hframe.mono (hlater.trans hmore)

end Primitives

end Run

/-! ## Arguments and lambdas -/

/-- The resolutions one level deeper mirror each other. -/
structure Nested.Mirrors (c : Comparison ν σ) (nested : Nested ν σ) : Prop where
  resolve : ∀ {place : Places} {expr expr' : Expr ν} {scope scope' : Scope ν},
    expr.Alike c.like place expr' → scope.Alike c.like place scope' →
    Run.Mirrors c (Head.Alike c.like) place (nested.resolve expr scope)
      (nested.resolve expr' scope')
  bindingName : ∀ {place : Places} {position position' : Expr ν} {scope scope' : Scope ν},
    position.Alike c.like place position' → scope.Alike c.like place scope' →
    Run.Mirrors c (fun _ name name' => name = name') place (nested.bindingName position scope)
      (nested.bindingName position' scope')

/-- Lists of heads that are alike, as expressions. -/
def HeadsAlike (like : Likeness ν) (place : Places) (exprs exprs' : List (Expr ν)) : Prop :=
  ∃ heads heads' : List (Head ν), exprs = heads.map Head.toExpr ∧
    exprs' = heads'.map Head.toExpr ∧ List.Forall₂ (Head.Alike like place) heads heads'

theorem HeadsAlike.allAlike {like : Likeness ν} {place : Places} {exprs exprs' : List (Expr ν)}
    (h : HeadsAlike like place exprs exprs') : AllAlike like place exprs exprs' := by
  obtain ⟨heads, heads', rfl, rfl, hheads⟩ := h
  induction hheads with
  | nil => exact .nil
  | cons hhead _ ih => exact .cons hhead.toExpr ih

namespace Nested.Mirrors

variable {c : Comparison ν σ} {engine : Engine ν σ} {nested : Nested ν σ} {place : Places}

theorem resolveAll (h : nested.Mirrors c) {arguments arguments' : List (Expr ν)}
    {scope scope' : Scope ν} (harguments : AllAlike c.like place arguments arguments')
    (hscope : scope.Alike c.like place scope') :
    Run.Mirrors c (HeadsAlike c.like) place (nested.resolveAll scope arguments)
      (nested.resolveAll scope' arguments') := by
  induction harguments with
  | nil => exact Run.mirrors_pure fun _ => ⟨[], [], rfl, rfl, .nil⟩
  | cons hargument _ ih =>
    rw [Nested.resolveAll_cons, Nested.resolveAll_cons]
    refine (h.resolve hargument hscope).bind fun hlater hhead => (ih.mono hlater).bind ?_
    rintro later _ _ hmore ⟨heads, heads', rfl, rfl, hheads⟩
    refine Run.mirrors_pure fun hend => ⟨_ :: heads, _ :: heads', rfl, rfl, .cons ?_ ?_⟩
    · exact hhead.mono (hmore.trans hend)
    · exact hheads.imp fun _ _ h => h.mono hend

section Lambdas

variable (fair : c.Fair engine) (h : nested.Mirrors c)
include fair h

theorem bindAll {bindings bindings' : List (Lambda.Binding ν)} {scope scope' : Scope ν}
    (hbindings : Lambda.BindingsAlike c.like place bindings bindings')
    (hscope : scope.Alike c.like place scope') {table table' : Table (Expr ν)} {now : Places}
    (hnow : place.Extends now) (htable : table.Alike c.like now table') :
    Run.Mirrors c (Table.Alike c.like) now (nested.bindAll scope bindings table)
      (nested.bindAll scope' bindings' table') := by
  induction hbindings generalizing now table table' with
  | nil => exact Run.mirrors_pure fun hlater => htable.mono hlater
  | @cons binding binding' rest rest' hbinding _ ih =>
    obtain ⟨position, bound⟩ := binding
    obtain ⟨position', bound'⟩ := binding'
    rw [Nested.bindAll_cons, Nested.bindAll_cons]
    refine (h.bindingName (hbinding.1.mono hnow) (hscope.mono hnow)).bind ?_
    rintro middle name _ hmiddle rfl
    refine (Run.mirrors_reportRebound fair name (htable.mono hmiddle)).bind fun hlater _ => ?_
    refine ih (hnow.trans (hmiddle.trans hlater)) ?_
    exact (htable.mono (hmiddle.trans hlater)).insert name
      (hbinding.2.mono (hnow.trans (hmiddle.trans hlater)))

theorem close {items items' : List (Item ν)} {scope scope' : Scope ν}
    (hitems : List.Forall₂ (Item.Alike c.like place) items items')
    (hscope : scope.Alike c.like place scope') :
    Run.Mirrors c (fun now frame frame' => frame.Alike c.like now frame' ∧ frame.kind = .closure)
      place (nested.close items scope) (nested.close items' scope') := by
  rw [Nested.close, Nested.close]
  have hparts := Lambda.parts_alike hitems
  revert hparts
  generalize Lambda.parts items = first
  generalize Lambda.parts items' = second
  intro hparts
  cases hparts with
  | defect shape => exact Run.mirrors_fail fair _
  | parts hbindings hbody =>
    refine (bindAll fair h hbindings hscope (.refl _) Table.alike_empty).bind
      fun hmiddle htable => ?_
    refine (Run.mirrors_emit fair rfl rfl).bind fun hlater _ => ?_
    refine Run.mirrors_newScope fair (fun hmore hnumber => ?_) fun _ => rfl
    have hall := hmiddle.trans (hlater.trans hmore)
    exact (hscope.mono hall).newClosure hnumber (htable.mono (hlater.trans hmore))
      (hbody.mono hall)

end Lambdas

end Nested.Mirrors
end CallByNeed
