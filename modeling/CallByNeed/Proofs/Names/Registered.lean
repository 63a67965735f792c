import CallByNeed.Host.Natives
import CallByNeed.Proofs.Worlds.Consistency

/-! # Names that are registered and names that are found

Lookup goes two ways: a positional name asks for an argument, any other name for a binding. So a
closure finds what it binds under all names but the positional ones, and so does the frame of each
call of it (`Scope.find_closure_iff`, `World.find_newCall_iff`).

The search for the name of a binding refuses a positional identifier, but it takes any text that a
name position comes to as a value. Positional names are registered in this way and in no other one
(`Engine.close_registers`).
-/

namespace CallByNeed
set_option autoImplicit false

variable {ν σ : Type}

/-! ## Lookup of own bindings -/

namespace Scope

theorem depth_parent {scope outer : Scope ν} (h : scope.parent? = some outer) :
    outer.depth < scope.depth := by
  obtain ⟨frame, _ | ⟨next, rest⟩⟩ := scope
  · cases h
  · cases h
    exact Nat.lt_succ_self _

theorem find_own {scope : Scope ν} {name : String} {bound : Expr ν}
    (hbound : scope.bindings.find? name = some bound) (hname : positional? name = none) :
    scope.find name = .ok (bound, scope) := by
  obtain ⟨frame, outer⟩ := scope
  simp only [find, hname, frames, findBinding]
  rw [show frame.bindings.find? name = some bound from hbound]

/-- A closure finds the bindings of its own but those with positional names. -/
theorem find_closure_iff {number : Nat} {table : Table (Expr ν)} {body : Expr ν}
    {parent : Scope ν} {name : String} {bound : Expr ν} (hbound : table.find? name = some bound) :
    (closure number table body parent).find name =
      .ok (bound, closure number table body parent) ↔ positional? name = none := by
  refine ⟨fun hfind => ?_, find_own hbound⟩
  cases hname : positional? name with
  | none => rfl
  | some index =>
    -- An argument belongs to a frame around the closure, as the closure has no arguments itself.
    simp only [find, hname] at hfind
    have houter : findArgument index parent.frames =
        .ok (bound, closure number table body parent) := hfind
    have hup {scope outer : Scope ν} (hscope : scope.depth ≤ parent.depth)
        (hparent : scope.parent? = some outer) : outer.depth ≤ parent.depth :=
      Nat.le_trans (Nat.le_of_lt (depth_parent hparent)) hscope
    obtain ⟨howner, -⟩ := findArgument_owner hup parent.outer parent.frame (Nat.le_refl _) houter
    exact absurd howner (Nat.not_succ_le_self _)

end Scope

namespace World

/-- The new thunks have numbers that were not given before. -/
theorem newThunks_new {calling : Scope ν} {exprs : List (Expr ν)} {world : World ν σ}
    {thunk : Expr ν} (h : thunk ∈ (world.newThunks calling exprs).1) :
    ∃ number deferred, thunk = .scope (.thunk number deferred calling) ∧ world.size ≤ number := by
  induction exprs generalizing world with
  | nil => exact absurd h List.not_mem_nil
  | cons expr rest ih =>
    rcases List.mem_cons.1 h with rfl | hrest
    · exact ⟨world.size, expr, rfl, Nat.le_refl _⟩
    · obtain ⟨number, deferred, rfl, hnew⟩ := ih hrest
      have hgrows : world.Grows (world.newThunk expr calling).2 := grows_newScope world _
      exact ⟨number, deferred, rfl, Nat.le_trans hgrows.size hnew⟩

/-- The frame of a call finds the bindings of the closure but those with positional names. -/
theorem find_newCall_iff {world : World ν σ} (hconsistent : world.Consistent) {closure : Scope ν}
    (hstored : world.Stores closure) (arguments : List (Expr ν)) (calling : Scope ν)
    {name : String} {bound : Expr ν} (hbound : closure.bindings.find? name = some bound) :
    (world.newCall closure arguments calling).1.find name =
      .ok (bound, (world.newCall closure arguments calling).1) ↔ positional? name = none := by
  refine ⟨fun hfind => ?_, Scope.find_own hbound⟩
  cases hname : positional? name with
  | none => rfl
  | some index =>
    simp only [Scope.find, hname] at hfind
    obtain ⟨-, thunks, hthunks, hfound⟩ :=
      @Scope.findArgument_here ν (fun _ => True) _ _ index _ _ _ trivial rfl hfind
    cases Option.some.inj hthunks
    -- What the call defers is new, and what the closure binds was there before.
    obtain ⟨number, deferred, rfl, hnew⟩ := newThunks_new (List.mem_of_getElem? hfound)
    have hentry : Expr.scope (.thunk number deferred calling) ∈
        closure.bindings.entries.map Prod.snd :=
      List.mem_map.2 ⟨_, Table.mem_of_find? hbound, rfl⟩
    have hbefore := hstored.contents hconsistent
      (List.mem_cons_of_mem _ (List.mem_append_left _ hentry)) _ (List.mem_singleton.2 rfl)
    exact absurd hbefore.lt_size (Nat.not_lt.2 hnew)

end World

/-! ## Names given to bindings -/

namespace Nested

variable {nested : Nested ν σ} {scope : Scope ν} {bindings rest : List (Lambda.Binding ν)}
  {start result : Table (Expr ν)} {machine after : Machine ν σ} {name : String}

/-- Binding the rest after the first one. -/
theorem bindAll_cons_iff {position bound : Expr ν} :
    nested.bindAll scope ((position, bound) :: rest) start machine = (.ok result, after) ↔
      ∃ own named reported, nested.bindingName position scope machine = (.ok own, named) ∧
        Run.reportRebound own start named = (.ok (), reported) ∧
        nested.bindAll scope rest (start.insert own bound) reported = (.ok result, after) := by
  rw [bindAll_cons]
  constructor
  · intro h
    obtain ⟨own, named, hown, hreport⟩ := Run.ok_of_bind h
    obtain ⟨_, reported, hreported, hrest⟩ := Run.ok_of_bind hreport
    exact ⟨own, named, reported, hown, hreported, hrest⟩
  · rintro ⟨own, named, reported, hown, hreported, hrest⟩
    rw [Run.bind_apply, hown]
    show (Run.reportRebound own start >>= _) named = _
    rw [Run.bind_apply, hreported]
    exact hrest

/-- What is in the table stays there, or is bound again. -/
theorem bindAll_keeps (h : nested.bindAll scope bindings start machine = (.ok result, after))
    (hname : ∃ bound, start.find? name = some bound) : ∃ bound, result.find? name = some bound := by
  induction bindings generalizing start machine with
  | nil =>
    cases h
    exact hname
  | cons binding rest ih =>
    obtain ⟨position, bound⟩ := binding
    obtain ⟨own, named, reported, -, -, hrest⟩ := bindAll_cons_iff.1 h
    refine ih hrest ?_
    rw [Table.find?_insert]
    by_cases hown : name = own
    · exact ⟨bound, if_pos hown⟩
    · rw [if_neg hown]
      exact hname

/-- A binding of the list is given the name when its turn comes. -/
inductive Names (nested : Nested ν σ) (scope : Scope ν) (start : Table (Expr ν))
    (machine : Machine ν σ) (name : String) (position : Expr ν) (turn after : Machine ν σ) :
    List (Lambda.Binding ν) → Prop where
  | turn {before rest : List (Lambda.Binding ν)} {bound : Expr ν} {table : Table (Expr ν)}
      (hbefore : nested.bindAll scope before start machine = (.ok table, turn))
      (hname : nested.bindingName position scope turn = (.ok name, after)) :
      Names nested scope start machine name position turn after
        (before ++ (position, bound) :: rest)

theorem Names.named {position : Expr ν} {turn named : Machine ν σ}
    (h : nested.Names scope start machine name position turn named bindings) :
    nested.bindingName position scope turn = (.ok name, named) := by
  obtain ⟨-, hname⟩ := h
  exact hname

/-- What is in the table at the end was there before, or a binding was given the name. -/
theorem names_of_registered {bound : Expr ν}
    (h : nested.bindAll scope bindings start machine = (.ok result, after))
    (hbound : result.find? name = some bound) : start.find? name = some bound ∨
      ∃ position turn named, nested.Names scope start machine name position turn named bindings := by
  induction bindings generalizing start machine with
  | nil =>
    cases h
    exact .inl hbound
  | cons binding rest ih =>
    obtain ⟨position, deferred⟩ := binding
    obtain ⟨own, named, reported, hown, hreported, hrest⟩ := bindAll_cons_iff.1 h
    rcases ih hrest with hold | ⟨target, turn, last, ⟨hbefore, hname⟩⟩
    · rw [Table.find?_insert] at hold
      by_cases hsame : name = own
      · subst hsame
        have hfirst : nested.Names scope start machine name position machine named
            ([] ++ (position, deferred) :: rest) := .turn rfl hown
        exact .inr ⟨position, machine, named, hfirst⟩
      · rw [if_neg hsame] at hold
        exact .inl hold
    · refine .inr ⟨target, turn, last, ?_⟩
      rw [← List.cons_append]
      exact .turn (bindAll_cons_iff.2 ⟨own, named, reported, hown, hreported, hbefore⟩) hname

/-- The name that a binding is given is in the table at the end. -/
theorem Names.registered {position : Expr ν} {turn named : Machine ν σ}
    (hnames : nested.Names scope start machine name position turn named bindings)
    (h : nested.bindAll scope bindings start machine = (.ok result, after)) :
    ∃ bound, result.find? name = some bound := by
  obtain ⟨hbefore, hname⟩ := hnames
  rename_i before rest bound table
  induction before generalizing start machine with
  | nil =>
    cases hbefore
    obtain ⟨own, middle, reported, hown, -, hrest⟩ := bindAll_cons_iff.1 h
    cases hown.symm.trans hname
    exact bindAll_keeps hrest ⟨bound, by rw [Table.find?_insert, if_pos rfl]⟩
  | cons first before ih =>
    obtain ⟨other, deferred⟩ := first
    obtain ⟨own, middle, reported, hown, hreported, hrest⟩ := bindAll_cons_iff.1 hbefore
    obtain ⟨own', middle', reported', hown', hreported', hall⟩ := bindAll_cons_iff.1 h
    cases hown.symm.trans hown'
    cases hreported.symm.trans hreported'
    exact ih hrest hall

/-- A binding is given a name by a value: its name position resolves to text that spells it. -/
def Spelled (nested : Nested ν σ) (scope : Scope ν) (machine : Machine ν σ)
    (bindings : List (Lambda.Binding ν)) (name : String) : Prop :=
  ∃ position turn after value,
    nested.Names scope .empty machine name position turn after bindings ∧
      nested.resolve position scope turn = (.ok (.terminal (.value value)), after) ∧
      value.name? = some name

end Nested

/-! ## Where names come from -/

theorem Head.of_name? {head : Head ν} {name : String} (h : head.name? = some name) :
    ∃ value : Value ν, head = .terminal (.value value) ∧ value.name? = some name := by
  rcases head with (value | method) | closure
  · exact ⟨value, rfl, h⟩
  · cases h
  · cases h

namespace Engine

variable {engine : Engine ν σ} {scope closure : Scope ν} {world : World ν σ}
  {machine after : Machine ν σ} {name : String}

theorem not_positional_of_ownName {own : String}
    (h : (ownName own : Run ν σ String) machine = (.ok name, after)) : positional? name = none := by
  rw [ownName] at h
  cases hown : positional? own with
  | some index =>
    rw [hown] at h
    cases h
  | none =>
    rw [hown] at h
    cases h
    exact hown

/-- The search for a name takes the steps of a resolution as long as it meets no identifier. So the
name is that of an identifier, or it is spelt by the value that the position resolves to. -/
theorem nameLoop_ok {nested : Nested ν σ} {rounds : Nat} {position : Expr ν}
    (h : engine.nameLoop nested rounds position scope machine = (.ok name, after)) :
    positional? name = none ∨ ∃ value : Value ν, value.name? = some name ∧
      engine.resolveLoop nested rounds position scope [] machine =
        (.ok (.terminal (.value value)), after) := by
  induction rounds generalizing position scope machine with
  | zero =>
    cases hposition : position.identifier? with
    | some own =>
      rw [nameLoop, hposition] at h
      exact .inl (not_positional_of_ownName h)
    | none =>
      rw [nameLoop_zero engine nested position scope hposition, Run.exhaust_apply] at h
      cases h
  | succ rounds ih =>
    cases hposition : position.identifier? with
    | some own =>
      rw [nameLoop, hposition] at h
      exact .inl (not_positional_of_ownName h)
    | none =>
      rw [nameLoop_succ engine nested rounds position scope hposition] at h
      obtain ⟨outcome, middle, hstep, hafter⟩ := Run.ok_of_bind h
      rw [resolveLoop_succ, Run.bind_apply, hstep]
      cases outcome with
      | finished head =>
        rw [nameAfterStep] at hafter
        cases hhead : head.name? with
        | none =>
          rw [hhead] at hafter
          cases hafter
        | some own =>
          rw [hhead] at hafter
          cases hafter
          obtain ⟨value, rfl, hvalue⟩ := Head.of_name? hhead
          exact .inr ⟨value, hvalue, rfl⟩
      | further next inner => exact ih hafter
      | binding own bound owner =>
        exact (step_entersNothing engine nested hposition scope machine _ _ hstep).elim

theorem bindingName_ok {levels : Nat} {position : Expr ν}
    (h : (engine.nested levels).bindingName position scope machine = (.ok name, after)) :
    positional? name = none ∨ ∃ value : Value ν, value.name? = some name ∧
      (engine.nested levels).resolve position scope machine =
        (.ok (.terminal (.value value)), after) := by
  cases levels with
  | zero => cases h
  | succ levels => exact nameLoop_ok h

/-! ## Closures of lambdas -/

/-- A lambda that is closed is well formed, and the closure binds what its bindings are given. -/
theorem close_ok {nested : Nested ν σ} {items : List (Item ν)}
    (h : nested.close items scope machine = (.ok closure, after)) :
    ∃ bindings body table middle number, Lambda.parts items = .ok (bindings, body) ∧
      nested.bindAll scope bindings .empty machine = (.ok table, middle) ∧
      closure = .closure number table body scope := by
  rw [Nested.close] at h
  cases hparts : Lambda.parts items with
  | error shape =>
    rw [hparts] at h
    cases h
  | ok parts =>
    obtain ⟨bindings, body⟩ := parts
    rw [hparts] at h
    obtain ⟨table, middle, hbind, hnew⟩ := Run.ok_of_bind h
    obtain ⟨_, reported, -, hmade⟩ := Run.ok_of_bind hnew
    rw [Run.withWorld_apply] at hmade
    cases hmade
    exact ⟨bindings, body, table, middle, reported.world.size, rfl, hbind, rfl⟩

theorem close_of_reported {items : List (Item ν)}
    (h : (engine.evaluate (.close items scope) world).reported = .ok (.scope closure)) :
    ∃ after, (engine.nested engine.limits.maxDepth).close items scope ⟨0, world⟩ =
      (.ok closure, after) := by
  rw [evaluate, run, map_eq_pure_bind] at h
  unfold Run.execute at h
  rw [Run.bind_apply] at h
  rcases hrun : (engine.nested engine.limits.maxDepth).close items scope ⟨0, world⟩ with
    ⟨stop | frame, after⟩
  · rw [hrun] at h
    cases h
  · rw [hrun] at h
    cases h
    exact ⟨after, rfl⟩

/-- A closed lambda finds each of its bindings unless the name is positional, and so do the frames of
its calls. A positional name is registered exactly if a name position resolves to text that spells
it. -/
theorem close_registers {items : List (Item ν)}
    (h : (engine.evaluate (.close items scope) world).reported = .ok (.scope closure)) :
    (∀ {name bound}, closure.bindings.find? name = some bound →
      (closure.find name = .ok (bound, closure) ↔ positional? name = none) ∧
      ∀ {later : World ν σ}, later.Consistent → later.Stores closure → ∀ arguments calling,
        let frame := (later.newCall closure arguments calling).1
        frame.find name = .ok (bound, frame) ↔ positional? name = none) ∧
    ∃ bindings body, Lambda.parts items = .ok (bindings, body) ∧
      ∀ {name index}, positional? name = some index →
        ((∃ bound, closure.bindings.find? name = some bound) ↔
          (engine.nested engine.limits.maxDepth).Spelled scope ⟨0, world⟩ bindings name) := by
  obtain ⟨after, hclose⟩ := close_of_reported h
  obtain ⟨bindings, body, table, middle, number, hparts, hbind, rfl⟩ := close_ok hclose
  refine ⟨fun hbound => ⟨Scope.find_closure_iff hbound, fun hconsistent hstored arguments calling =>
    World.find_newCall_iff hconsistent hstored arguments calling hbound⟩,
    bindings, body, hparts, fun {name index} hname => ⟨?_, ?_⟩⟩
  · rintro ⟨bound, hbound⟩
    rcases Nested.names_of_registered hbind hbound with hold | ⟨position, turn, named, hnames⟩
    · cases hold
    · rcases bindingName_ok hnames.named with hplain | ⟨value, hvalue, hresolve⟩
      · rw [hname] at hplain
        cases hplain
      · exact ⟨position, turn, named, value, hnames, hresolve, hvalue⟩
  · rintro ⟨position, turn, named, value, hnames, -, -⟩
    exact hnames.registered hbind

def five : Expr StandardNative :=
  .value ⟨.supplied 1, .integer .i64 5⟩

/-- The closure of a lambda that binds five under the name that a text spells. -/
def closeUnder (text : String) : Evaluated StandardNative HostState (Expr StandardNative) :=
  (standardHost.engine 1 ⟨20, 4⟩).evaluate
    (.close [.binding (.value ⟨.supplied 0, .text text⟩) five, .bare (.identifier text)]
      (.root 0 .empty))
    ((World.initial .initial).newRoot .empty).2

theorem close_registers_own : ∃ closure, (closeUnder "own").reported = .ok (.scope closure) ∧
    closure.bindings.find? "own" = some five ∧ closure.find "own" = .ok (five, closure) := by
  have hclosed : (closeUnder "own").reported = .ok (.scope
      (.closure 1 (.ofList [("own", five)]) (.identifier "own") (.root 0 .empty))) := rfl
  have hbound := (close_registers hclosed).1 (show Table.find? _ "own" = some five from rfl)
  exact ⟨_, hclosed, rfl, hbound.1.2 (by decide)⟩

/-- A text of positional form is taken for a name, under which nothing is found. -/
theorem close_registers_positional : ∃ closure, (closeUnder "$0").reported = .ok (.scope closure) ∧
    closure.bindings.find? "$0" = some five ∧
    closure.find "$0" = .error (.positionalOutOfRange 0 0) := by
  refine ⟨.closure 1 (.ofList [("$0", five)]) (.identifier "$0") (.root 0 .empty), rfl, rfl, ?_⟩
  have hname : positional? "$0" = some 0 := by decide +kernel
  simp only [Scope.find, hname]
  rfl

end Engine
end CallByNeed
