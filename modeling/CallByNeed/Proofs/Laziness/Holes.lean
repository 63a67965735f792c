import CallByNeed.Proofs.Likeness.Loops

/-! # Programs with a hole

What stands in a place of a program that is not evaluated does not matter. A failure in the hole
is the probe: either it is evaluated and ends the run, or any other expression in the hole gives the
same result in the same number of steps (`Engine.force_lazy`). Native methods may do with closures
what they like as long as they do not look at the code inside (`Invoke.Oblivious`).
-/

namespace CallByNeed
set_option autoImplicit false

variable {ν σ : Type}

/-- An expression with one hole, as an operator, an argument, or the name, the value or the return
expression of a lambda, however deep. -/
inductive Context (ν : Type) where
  | hole
  | operator (context : Context ν) (arguments : List (Expr ν))
  | argument (called : Expr ν) (before : List (Expr ν)) (context : Context ν)
      (after : List (Expr ν))
  | bindingName (before : List (Item ν)) (context : Context ν) (bound : Expr ν)
      (after : List (Item ν))
  | bindingValue (before : List (Item ν)) (name : Expr ν) (context : Context ν)
      (after : List (Item ν))
  | bare (before : List (Item ν)) (context : Context ν) (after : List (Item ν))

/-- The expression with this one in its hole. -/
def Context.fill (filling : Expr ν) : Context ν → Expr ν
  | .hole => filling
  | .operator context arguments => .application (context.fill filling) arguments
  | .argument called before context after =>
      .application called (before ++ context.fill filling :: after)
  | .bindingName before context bound after =>
      .lambda (before ++ .binding (context.fill filling) bound :: after)
  | .bindingValue before name context after =>
      .lambda (before ++ .binding name (context.fill filling) :: after)
  | .bare before context after => .lambda (before ++ .bare (context.fill filling) :: after)

/-! ## The same up to what is in a hole -/

/-- The same, except that something else may stand where the first one has a failure. -/
def Likeness.filled (failure : Failure) (filling : Expr ν) : Likeness ν :=
  ⟨Eq, fun expr expr' => expr = .failure failure ∧ expr' = filling⟩

section Reflexivity

variable {failure : Failure} {filling : Expr ν}

mutual

theorem Expr.alike_refl : ∀ expr : Expr ν, expr.Alike (.filled failure filling) Eq expr
  | .value _ => .value rfl
  | .native method => .native method
  | .application operator arguments => .application operator.alike_refl (allAlike_refl arguments)
  | .lambda items => .lambda (itemsAlike_refl items)
  | .identifier name => .identifier name
  | .failure failure => .failure failure
  | .scope inner => .scope inner.alike_refl

theorem allAlike_refl : ∀ exprs : List (Expr ν), AllAlike (.filled failure filling) Eq exprs exprs
  | [] => .nil
  | expr :: rest => .cons expr.alike_refl (allAlike_refl rest)

theorem Item.alike_refl : ∀ item : Item ν, item.Alike (.filled failure filling) Eq item
  | .binding name bound => .binding name.alike_refl bound.alike_refl
  | .bare body => .bare body.alike_refl

theorem itemsAlike_refl : ∀ items : List (Item ν),
    List.Forall₂ (Item.Alike (.filled failure filling) Eq) items items
  | [] => .nil
  | item :: rest => .cons item.alike_refl (itemsAlike_refl rest)

theorem Role.alike_refl : ∀ role : Role ν, role.Alike (.filled failure filling) Eq role
  | .root => .root
  | .closure => .closure
  | .call arguments => .call (allAlike_refl arguments)
  | .thunk => .thunk

theorem entriesAlike_refl : ∀ entries : List (String × Expr ν),
    List.Forall₂ (Entry.Alike (.filled failure filling) Eq) entries entries
  | [] => .nil
  | (_, bound) :: rest => .cons (.entry bound.alike_refl) (entriesAlike_refl rest)

theorem Frame.alike_refl : ∀ frame : Frame ν, frame.Alike (.filled failure filling) Eq frame
  | ⟨_, role, ⟨entries⟩, body⟩ =>
      .frame rfl role.alike_refl (entriesAlike_refl entries) body.alike_refl

theorem framesAlike_refl : ∀ frames : List (Frame ν),
    List.Forall₂ (Frame.Alike (.filled failure filling) Eq) frames frames
  | [] => .nil
  | frame :: rest => .cons frame.alike_refl (framesAlike_refl rest)

theorem Scope.alike_refl : ∀ scope : Scope ν, scope.Alike (.filled failure filling) Eq scope
  | ⟨frame, outer⟩ => .scope frame.alike_refl (framesAlike_refl outer)

end

/-- A program with the failure in its hole is like the program with anything else in it. -/
theorem Context.fill_alike (context : Context ν) :
    (context.fill (.failure failure)).Alike (.filled failure filling) Eq
      (context.fill filling) := by
  induction context with
  | hole => exact .loose ⟨rfl, rfl⟩
  | operator context arguments ih => exact .application ih (allAlike_refl arguments)
  | argument called before context after ih =>
    exact .application (Expr.alike_refl called)
      (List.rel_append (allAlike_refl before) (.cons ih (allAlike_refl after)))
  | bindingName before context bound after ih =>
    exact .lambda (List.rel_append (itemsAlike_refl before)
      (.cons (.binding ih (Expr.alike_refl bound)) (itemsAlike_refl after)))
  | bindingValue before name context after ih =>
    exact .lambda (List.rel_append (itemsAlike_refl before)
      (.cons (.binding (Expr.alike_refl name) ih) (itemsAlike_refl after)))
  | bare before context after ih =>
    exact .lambda (List.rel_append (itemsAlike_refl before)
      (.cons (.bare ih) (itemsAlike_refl after)))

end Reflexivity

/-! ## Native methods that do not look into closures -/

/-- Failures that may come of the failure in the hole: this one itself, a limit that was hit, and
the complaint about a binding's name, which shows the culprit's code as text. -/
inductive Failure.Reveals (failure : Failure) : Failure → Prop where
  | itself : Reveals failure failure
  | steps (steps : Nat) : Reveals failure (.stepBudgetExhausted steps)
  | levels (levels : Nat) : Reveals failure (.recursionLimit levels)
  | name (culprit : String) : Reveals failure (.invalidBindingName culprit)

/-- Worlds with the same frames made, the same records and related states of the host. What is in
the frames is not compared here, as scopes hold their frames themselves. -/
structure World.Twin (hosts : σ → σ → Prop) (world world' : World ν σ) : Prop where
  size : world.size = world'.size
  values : world.values = world'.values
  records : ∀ number name, world.recordAt number name = world'.recordAt number name
  host : hosts world.host world'.host

/-- The natives do not look at the code inside the closures and the scope they are handed: where
that code differs in what is in a hole only, they give the same and do the same, up to what is in
the hole. They may run the code, and hand on the failure that comes of it. The states of the host
may differ in the hole as well, as it may put closures away. -/
def Invoke.Oblivious (hosts : Failure → Expr ν → σ → σ → Prop) (invoke : Invoke ν σ) : Prop :=
  ∀ failure filling method {heads heads' : List (Head ν)} {scope scope' : Scope ν}
    {world world' : World ν σ},
    List.Forall₂ (Head.Alike (.filled failure filling) Eq) heads heads' →
    scope.Alike (.filled failure filling) Eq scope' → world.Twin (hosts failure filling) world' →
    let after := invoke method (heads.map Head.toExpr) scope world
    let after' := invoke method (heads'.map Head.toExpr) scope' world'
    (∃ other, after.1 = .failure other ∧ failure.Reveals other) ∨
      after.1.Alike (.filled failure filling) Eq after'.1 ∧
        after.2.Twin (hosts failure filling) after'.2

/-! ## The comparison -/

/-- Runs of a program with a failure in its hole and of one with something else there. The first
one is excused when the failure in the hole comes up. -/
def Comparison.filled (hosts : Failure → Expr ν → σ → σ → Prop) (failure : Failure)
    (filling : Expr ν) : Comparison ν σ where
  like := .filled failure filling
  worlds place world world' := place = Eq ∧ world.Twin (hosts failure filling) world'
  excused stop := failure.Reveals stop.failure
  stops := Eq

namespace World.Twin

variable {hosts : σ → σ → Prop} {world world' : World ν σ} (h : world.Twin hosts world')
include h

theorem newScope (make make' : Nat → Scope ν) :
    (world.newScope make).2.Twin hosts (world'.newScope make').2 where
  size := by rw [size_newScope, size_newScope, h.size]
  values := h.values
  records number name := by rw [recordAt_newScope, recordAt_newScope, h.records]
  host := h.host

theorem memoize {scope scope' : Scope ν} (hnumber : scope.number = scope'.number)
    (name : String) (result : Terminal ν) :
    (world.memoize scope name result).Twin hosts (world'.memoize scope' name result) where
  size := by rw [size_memoize, size_memoize, h.size]
  values := h.values
  records number other := by
    rw [recordAt_memoize, recordAt_memoize, hnumber, h.size, h.records]
  host := h.host

end World.Twin

theorem Likeness.terminal_eq {failure : Failure} {filling : Expr ν} {result result' : Terminal ν}
    (h : result.Alike (.filled failure filling) result') : result = result' := by
  cases h with
  | value h => exact congrArg Terminal.value h
  | native method => rfl

theorem Likeness.terminal_refl (failure : Failure) (filling : Expr ν) (result : Terminal ν) :
    result.Alike (.filled failure filling) result := by
  cases result with
  | value it => exact .value rfl
  | native method => exact .native method

theorem Comparison.filled_fair {engine : Engine ν σ} {hosts : Failure → Expr ν → σ → σ → Prop}
    (hnatives : engine.invoke.Oblivious hosts) (failure : Failure) (filling : Expr ν) :
    (Comparison.filled hosts failure filling).Fair engine where
  stops _ := rfl
  cut _ maxSteps := .steps maxSteps
  name h := congrArg Value.name? h
  misnamed _ := .inl (.name _)
  loose _ h := .inl ⟨failure, h.1, .itself⟩
  emit h _ := ⟨h.1, h.2.size, h.2.values, h.2.records, h.2.host⟩
  newScope make make' h := by
    obtain ⟨rfl, htwin⟩ := h
    exact ⟨Eq, .refl _, htwin.size, rfl, htwin.newScope make make'⟩
  record {_ world world' number number'} h hnumber name := by
    obtain ⟨rfl, htwin⟩ := h
    rw [htwin.records, hnumber]
    cases world'.recordAt number' name with
    | none => exact .none
    | some result => exact .some (Likeness.terminal_refl failure filling result)
  memoize name h hnumber hresult := by
    obtain ⟨rfl, htwin⟩ := h
    cases Likeness.terminal_eq hresult
    exact ⟨rfl, htwin.memoize hnumber name _⟩
  native method h hheads hscope := by
    obtain ⟨rfl, htwin⟩ := h
    rcases hnatives failure filling method hheads hscope htwin with hfails | ⟨hresult, hafter⟩
    · exact .inl hfails
    · exact .inr ⟨Eq, .refl _, hresult, rfl, hafter⟩

/-! ## Laziness -/

/-- Either the failure in the hole comes up, or what is in the hole does not matter. -/
theorem Engine.force_filled {engine : Engine ν σ} {hosts : Failure → Expr ν → σ → σ → Prop}
    (hnatives : engine.invoke.Oblivious hosts)
    (hhosts : ∀ failure filling state, hosts failure filling state state)
    (context : Context ν) (failure : Failure) (filling : Expr ν) (scope : Scope ν)
    (world : World ν σ) :
    let probe := engine.evaluate (.force (context.fill (.failure failure)) scope) world
    let other := engine.evaluate (.force (context.fill filling) scope) world
    (∃ stop, probe.outcome = .error stop ∧ failure.Reveals stop.failure) ∨
      other.outcome = probe.outcome ∧ other.steps = probe.steps := by
  have htwin : world.Twin (hosts failure filling) world :=
    ⟨rfl, rfl, fun _ _ => rfl, hhosts failure filling world.host⟩
  intro probe other
  rcases Engine.evaluate_force_mirrors (Comparison.filled_fair hnatives failure filling)
      context.fill_alike (Scope.alike_refl scope) ⟨rfl, htwin⟩ with
    hexcused | ⟨_, -, -, hsteps, houtcomes⟩
  · exact .inl hexcused
  · refine .inr ⟨?_, hsteps.symm⟩
    revert houtcomes
    generalize probe.outcome = first
    generalize other.outcome = second
    rintro (hstop | hresult)
    · exact congrArg Except.error (Eq.symm hstop)
    · rw [Likeness.terminal_eq hresult]

/-- What forcing comes to does not depend on a hole that is not evaluated. If a program with a
failure in its hole comes to a value or a native method, then with anything else in the hole it
comes to the same in the same number of steps. If it fails, then for the failure in the hole, or
with anything else in the hole it fails alike. -/
theorem Engine.force_lazy {engine : Engine ν σ} {hosts : Failure → Expr ν → σ → σ → Prop}
    (hnatives : engine.invoke.Oblivious hosts)
    (hhosts : ∀ failure filling state, hosts failure filling state state)
    (context : Context ν) (failure : Failure) (scope : Scope ν) (world : World ν σ) :
    let probe := engine.evaluate (.force (context.fill (.failure failure)) scope) world
    let other := fun expr => engine.evaluate (.force (context.fill expr) scope) world
    (∀ result, probe.outcome = .ok result →
      ∀ expr, (other expr).outcome = .ok result ∧ (other expr).steps = probe.steps) ∧
    (∀ stop, probe.outcome = .error stop → failure.Reveals stop.failure ∨
      ∀ expr, (other expr).outcome = .error stop ∧ (other expr).steps = probe.steps) := by
  intro probe other
  have hsame := fun expr => force_filled hnatives hhosts context failure expr scope world
  constructor
  · intro result hresult expr
    rcases hsame expr with ⟨stop, hstop, -⟩ | ⟨houtcome, hsteps⟩
    · rw [show _ = Except.ok result from hresult] at hstop
      cases hstop
    · exact ⟨houtcome.trans hresult, hsteps⟩
  · intro stop hstop
    by_cases hreveals : failure.Reveals stop.failure
    · exact .inl hreveals
    · refine .inr fun expr => ?_
      rcases hsame expr with ⟨other, hother, hexcused⟩ | ⟨houtcome, hsteps⟩
      · rw [show _ = Except.error stop from hstop] at hother
        cases hother
        exact absurd hexcused hreveals
      · exact ⟨houtcome.trans hstop, hsteps⟩

end CallByNeed
