import CallByNeed.Proofs.Appliers.Enclosed
import CallByNeed.Proofs.Appliers.Unlogged
import CallByNeed.Proofs.Names.LastWins

/-! # Closing looks at names only

Two lambdas with the same name positions are closed by the same searches for names, whatever is
bound there and returned: the values bound get into tables and warnings, and neither is looked at
while names are searched for. So from one world both closings take the same steps, make the same
native calls and leave the same records, and both fail alike or make closures of the same names
(`Host.close_names_only`).
-/

namespace CallByNeed
set_option autoImplicit false

variable {ν σ : Type}

/-! ## Lambdas with the same names -/

/-- Both bind under the same name position, or both return. -/
inductive Item.SameName : Item ν → Item ν → Prop where
  | binding (position bound bound' : Expr ν) :
      SameName (.binding position bound) (.binding position bound')
  | bare (body body' : Expr ν) : SameName (.bare body) (.bare body')

/-- The tables list the same names. -/
def Table.SameNames (table table' : Table (Expr ν)) : Prop :=
  List.Forall₂ (fun entry entry' => entry.1 = entry'.1) table.entries table'.entries

namespace Table.SameNames

variable {table table' : Table (Expr ν)} (h : table.SameNames table')
include h

theorem names : table.names = table'.names := by
  obtain ⟨entries⟩ := table
  obtain ⟨entries'⟩ := table'
  show entries.map Prod.fst = entries'.map Prod.fst
  replace h : List.Forall₂ _ entries entries' := h
  induction h with
  | nil => rfl
  | cons hentry _ ih => rw [List.map_cons, List.map_cons, hentry, ih]

theorem find?_iff (name : String) :
    (∃ bound, table.find? name = some bound) ↔ ∃ bound, table'.find? name = some bound := by
  rw [← mem_names_iff, ← mem_names_iff, h.names]

theorem insert (name : String) (bound bound' : Expr ν) :
    (table.insert name bound).SameNames (table'.insert name bound') := by
  obtain ⟨entries⟩ := table
  obtain ⟨entries'⟩ := table'
  show List.Forall₂ _ (insertEntry name bound entries) (insertEntry name bound' entries')
  replace h : List.Forall₂ _ entries entries' := h
  induction h with
  | nil => exact .cons rfl .nil
  | @cons entry entry' rest rest' hentry hrest ih =>
    obtain ⟨other, old⟩ := entry
    obtain ⟨_, old'⟩ := entry'
    obtain rfl : other = _ := hentry
    rw [insertEntry, insertEntry]
    by_cases hname : name = other
    · rw [if_pos hname, if_pos hname]
      exact .cons rfl hrest
    · rw [if_neg hname, if_neg hname]
      by_cases hless : name < other
      · rw [if_pos hless, if_pos hless]
        exact .cons rfl (.cons rfl hrest)
      · rw [if_neg hless, if_neg hless]
        exact .cons rfl ih

end Table.SameNames

namespace Lambda

/-- The same defect, or the same name positions. -/
inductive PartsNamed : Except LambdaShape (List (Binding ν) × Expr ν) →
    Except LambdaShape (List (Binding ν) × Expr ν) → Prop where
  | defect (shape : LambdaShape) : PartsNamed (.error shape) (.error shape)
  | parts {bindings bindings' : List (Binding ν)} (body body' : Expr ν)
      (h : List.Forall₂ (fun binding binding' => binding.1 = binding'.1) bindings bindings') :
      PartsNamed (.ok (bindings, body)) (.ok (bindings', body'))

variable {items items' : List (Item ν)} (h : List.Forall₂ Item.SameName items items')
include h

theorem countP_named : items.countP isBare = items'.countP isBare := by
  induction h with
  | nil => rfl
  | cons hitem _ ih =>
    rw [List.countP_cons, List.countP_cons, ih]
    cases hitem <;> rfl

theorem split_named : PartsNamed (split items) (split items') := by
  induction h with
  | nil => exact .defect _
  | cons hitem hrest ih =>
    cases hitem with
    | bare body body' =>
      cases hrest with
      | nil => exact .parts body body' .nil
      | cons hnext hlater => exact .defect _
    | binding position bound bound' =>
      rw [split, split]
      revert ih
      generalize split _ = first
      generalize split _ = second
      rintro (_ | ⟨body, body', hbindings⟩)
      · exact .defect _
      · exact .parts body body' (.cons rfl hbindings)

theorem parts_named : PartsNamed (parts items) (parts items') := by
  unfold parts
  rw [countP_named h]
  dsimp only
  split
  · exact .defect _
  · exact split_named h

end Lambda

/-! ## Two closings -/

/-- Events beside the native calls differ in the log only. -/
theorem Run.corresponds_emit {event event' : Event ν} (h : event.call? = none)
    (h' : event'.call? = none) :
    Run.Corresponds Eq (Run.emit event : Run ν σ Unit) (Run.emit event') := by
  intro machine machine' hmachines
  have hworld := (machine.world.matches_emit h).symm.trans
    (hmachines.world.trans (machine'.world.matches_emit h'))
  exact ⟨.came rfl, hmachines.steps, hworld⟩

theorem Run.corresponds_reportRebound (name : String) {table table' : Table (Expr ν)}
    (h : table.SameNames table') :
    Run.Corresponds Eq (Run.reportRebound name table : Run ν σ Unit)
      (Run.reportRebound name table') := by
  have hboth := h.find?_iff name
  rw [Run.reportRebound, Run.reportRebound]
  cases hfirst : table.find? name with
  | none =>
    cases hsecond : table'.find? name with
    | none => exact Run.corresponds_pure rfl
    | some dropped =>
      obtain ⟨bound, hbound⟩ := hboth.2 ⟨dropped, hsecond⟩
      cases hfirst.symm.trans hbound
  | some dropped =>
    obtain ⟨bound, hbound⟩ := hboth.1 ⟨dropped, hfirst⟩
    rw [hbound]
    exact Run.corresponds_emit rfl rfl

theorem Nested.Has.bindAll_named {nested : Nested ν σ} (hnested : nested.Has .unlogged)
    (scope : Scope ν) {bindings bindings' : List (Lambda.Binding ν)} {table table' : Table (Expr ν)}
    (h : List.Forall₂ (fun binding binding' => binding.1 = binding'.1) bindings bindings')
    (htable : table.SameNames table') :
    Run.Corresponds Table.SameNames (nested.bindAll scope bindings table)
      (nested.bindAll scope bindings' table') := by
  induction h generalizing table table' with
  | nil => exact Run.corresponds_pure htable
  | @cons binding binding' rest rest' hposition hrest ih =>
    obtain ⟨position, bound⟩ := binding
    obtain ⟨_, bound'⟩ := binding'
    obtain rfl : position = _ := hposition
    rw [bindAll_cons, bindAll_cons]
    refine Run.Corresponds.bind (hnested.bindingName position scope) fun name _ hname => ?_
    subst hname
    exact (Run.corresponds_reportRebound name htable).bind fun _ _ _ =>
      ih (htable.insert name bound bound')

/-- Both frames are closures over the scope, of the same names. -/
structure Scope.SameClosure (scope closure closure' : Scope ν) : Prop where
  kind : closure.kind = .closure ∧ closure'.kind = .closure
  parent : closure.parent? = some scope ∧ closure'.parent? = some scope
  names : closure.bindings.names = closure'.bindings.names

/-- The machines have taken the same steps, have called the same native methods and have the same
host and the same records. -/
structure Machine.SameEffects (machine machine' : Machine ν σ) : Prop where
  steps : machine.steps = machine'.steps
  calls : machine.world.calls = machine'.world.calls
  host : machine.world.host = machine'.world.host
  records : ∀ number name,
    machine.world.recordAt number name = machine'.world.recordAt number name

theorem Machine.Ahead.sameEffects {machine machine' : Machine ν σ} (h : machine.Ahead 0 machine') :
    machine.SameEffects machine' where
  steps := h.steps.symm
  calls := h.world.calls.symm
  host := h.world.host.symm
  records number name := (World.recordAt_of_cells h.world.cells number name).symm

/-- Closures of different tables and bodies are made with the same effects. -/
theorem Machine.SameEffects.newClosure {machine machine' : Machine ν σ}
    (h : machine.SameEffects machine') (table table' : Table (Expr ν)) (body body' : Expr ν)
    (scope : Scope ν) :
    Machine.SameEffects ⟨machine.steps, (machine.world.newClosure table body scope).2⟩
      ⟨machine'.steps, (machine'.world.newClosure table' body' scope).2⟩ where
  steps := h.steps
  calls := h.calls
  host := h.host
  records number name := by
    rw [World.newClosure, World.newClosure, World.recordAt_newScope, World.recordAt_newScope,
      h.records]

/-- Lambdas with the same name positions are closed with the same effects. -/
theorem Nested.Has.close_named {nested : Nested ν σ} (hnested : nested.Has .unlogged)
    {items items' : List (Item ν)} (h : List.Forall₂ Item.SameName items items')
    (scope : Scope ν) (machine : Machine ν σ) :
    EndsAlike scope.SameClosure (nested.close items scope machine).1
        (nested.close items' scope machine).1 ∧
      (nested.close items scope machine).2.SameEffects (nested.close items' scope machine).2 := by
  have hstart : machine.Ahead 0 machine := ⟨rfl, .refl _⟩
  have hparts := Lambda.parts_named h
  rw [Nested.close, Nested.close]
  revert hparts
  generalize Lambda.parts items = first
  generalize Lambda.parts items' = second
  rintro (shape | ⟨body, body', hbindings⟩)
  · exact ⟨.stopped _, hstart.sameEffects⟩
  · rename_i bindings bindings'
    have hempty : (.empty : Table (Expr ν)).SameNames .empty := .nil
    obtain ⟨hends, hafter⟩ := hnested.bindAll_named scope hbindings hempty machine machine hstart
    dsimp only
    rw [Run.bind_apply, Run.bind_apply]
    rcases hrun : nested.bindAll scope bindings .empty machine with ⟨outcome, after⟩
    rcases hrun' : nested.bindAll scope bindings' .empty machine with ⟨outcome', after'⟩
    rw [hrun, hrun'] at hends hafter
    cases hends with
    | stopped stop => exact ⟨.stopped stop, hafter.sameEffects⟩
    | @came table table' htable =>
      have hemit : Run.Corresponds Eq (Run.emit (.closing table.size body) : Run ν σ Unit)
          (Run.emit (.closing table'.size body')) := Run.corresponds_emit rfl rfl
      obtain ⟨-, hclosing⟩ := hemit after after' hafter
      refine ⟨.came ⟨⟨rfl, rfl⟩, ⟨Scope.parent?_closure _ _ _ _, Scope.parent?_closure _ _ _ _⟩,
        htable.names⟩, hclosing.sameEffects.newClosure table table' body body' scope⟩

/-- What the values and the returned expressions of a lambda are makes no difference to closing it:
the same steps are taken, the same native methods called and the same results recorded, and it fails
alike or gives a closure of the same names. The native methods are programs of a host. They may keep
state, read frames and records and start evaluations, but they cannot read the log, in which the
warnings about overwritten bindings and the report of the closure show the expressions. -/
theorem Host.close_names_only (host : Host ν σ) (levels : Nat) (limits : Limits)
    {items items' : List (Item ν)} (hitems : List.Forall₂ Item.SameName items items')
    (scope : Scope ν) (world : World ν σ) :
    let first := (host.engine levels limits).evaluate (.close items scope) world
    let second := (host.engine levels limits).evaluate (.close items' scope) world
    Machine.SameEffects ⟨first.steps, first.world⟩ ⟨second.steps, second.world⟩ ∧
      EndsAlike (fun result result' => ∃ closure closure', result = .scope closure ∧
        result' = .scope closure' ∧ scope.SameClosure closure closure')
        first.outcome second.outcome := by
  intro first second
  have hnested : ((host.engine levels limits).nested limits.maxDepth).Has .unlogged :=
    (Engine.has_unlogged (host.invokeAt_blind levels)).nested limits.maxDepth
  obtain ⟨hends, heffects⟩ := hnested.close_named hitems scope ⟨0, world⟩
  have hfirst : first = _ := (host.engine levels limits).evaluate_close_eq items scope world
  have hsecond : second = _ := (host.engine levels limits).evaluate_close_eq items' scope world
  rcases hrun : ((host.engine levels limits).nested limits.maxDepth).close items scope ⟨0, world⟩
    with ⟨outcome, after⟩
  rcases hrun' : ((host.engine levels limits).nested limits.maxDepth).close items' scope ⟨0, world⟩
    with ⟨outcome', after'⟩
  rw [hrun, hrun'] at hends heffects
  rw [show (host.engine levels limits).limits.maxDepth = limits.maxDepth from rfl, hrun] at hfirst
  rw [show (host.engine levels limits).limits.maxDepth = limits.maxDepth from rfl, hrun'] at hsecond
  rw [hfirst, hsecond]
  refine ⟨heffects, ?_⟩
  cases hends with
  | stopped stop => exact .stopped stop
  | came hclosures => exact .came ⟨_, _, rfl, rfl, hclosures⟩

/-- A lambda that binds the same under a name that is put together and under that name itself. -/
def boundTwice (bound returning : Expr StandardNative) : List (Item StandardNative) :=
  [.binding (.application (.native ⟨"concat", .concat⟩)
      [.value ⟨.supplied 0, .text "a"⟩, .value ⟨.supplied 1, .text "b"⟩]) bound,
    .binding (.identifier "ab") bound, .bare returning]

def closeTwice (bound returning : Expr StandardNative) :
    Evaluated StandardNative HostState (Expr StandardNative) :=
  (standardHost.engine 1 ⟨20, 4⟩).evaluate (.close (boundTwice bound returning) (.root 0 .empty))
    ((World.initial .initial).newRoot .empty).2

/-- Warnings and closures of a number and of a failing expression, with the same effects. -/
theorem close_names_only_boundTwice :
    ∃ closure closure',
      (closeTwice Engine.five (.identifier "ab")).outcome = .ok (.scope closure) ∧
      (closeTwice (.failure .rootScopeMisuse) (.lambda [])).outcome = .ok (.scope closure') ∧
      closure.bindings.names = ["ab"] ∧ closure'.bindings.names = ["ab"] ∧
      (closeTwice Engine.five (.identifier "ab")).steps =
        (closeTwice (.failure .rootScopeMisuse) (.lambda [])).steps := by
  have hitems : List.Forall₂ Item.SameName (boundTwice Engine.five (.identifier "ab"))
      (boundTwice (.failure .rootScopeMisuse) (.lambda [])) :=
    .cons (.binding _ _ _) (.cons (.binding _ _ _) (.cons (.bare _ _) .nil))
  obtain ⟨heffects, hends⟩ := standardHost.close_names_only 1 ⟨20, 4⟩ hitems (.root 0 .empty)
    ((World.initial .initial).newRoot .empty).2
  have hclosed : (closeTwice Engine.five (.identifier "ab")).outcome = .ok (.scope
      (.closure 1 (.ofList [("ab", Engine.five)]) (.identifier "ab") (.root 0 .empty))) := rfl
  change EndsAlike _ (closeTwice _ _).outcome (closeTwice _ _).outcome at hends
  rw [hclosed] at hends
  generalize hother : (closeTwice (.failure .rootScopeMisuse) (.lambda [])).outcome = other at hends
  cases hends with
  | came hclosures =>
    obtain ⟨closure, closure', hclosure, rfl, hsame⟩ := hclosures
    cases hclosure
    exact ⟨_, closure', hclosed, rfl, rfl, hsame.names.symm.trans rfl, heffects.steps⟩

end CallByNeed
