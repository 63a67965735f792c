import CallByNeed.Proofs.CallByName.Basic

/-! # Derivations read backwards

A demand asks for other demands, one after another, and has its result from theirs. For each kind of
demand one statement says where a result can come from: either the first demand that it asks for
settles it, or the result is put together from those of the first one and of the rest.
-/

namespace CallByNeed
set_option autoImplicit false

namespace CallByName

variable {ν : Type} {code : Code ν}

/-! ## Results put together -/

/-- What a scope is reduced to. A thunk needs a scope around it. -/
def reduct? (inner : Scope ν) : Option (Result ν) :=
  match inner.kind with
  | .closure => some (.head (.closure inner))
  | .thunk => inner.parent?.map (.next inner.body)
  | .call => some (.next inner.body inner)
  | .root => some (.next (.failure .rootScopeMisuse) inner)

/-- The result of a lambda, from that of its bindings. -/
def Result.closed (body : Expr ν) (scope : Scope ν) : Result ν → Result ν
  | .bound entries => .head (.closure (.closure 0 (.ofList entries) body scope))
  | result => result

/-- The result of an application of the head, from that of its arguments. -/
def Result.called (code : Code ν) (head : Head ν) (scope : Scope ν) : Result ν → Result ν
  | .heads all =>
      match head with
      | .terminal (.value it) => .head (.terminal (.value it))
      | .terminal (.native method) => .next (code method all) scope
      | .closure closure => .next closure.body (calledFrame closure all scope)
  | result => result

/-- The result of all arguments, from the head of the first and the result of the others. -/
def Result.after (head : Head ν) : Result ν → Result ν
  | .heads others => .heads (head.toExpr :: others)
  | result => result

/-- The result of a name position, from what it is reduced to. -/
def Result.named : Result ν → Result ν
  | .head reduced =>
      match reduced.name? with
      | some text => .name text
      | none => .failed (.invalidBindingName reduced.toExpr.display)
  | result => result

/-- The result of all bindings, from the first one and the result of the others. -/
def Result.binding (name : String) (bound : Expr ν) : Result ν → Result ν
  | .bound entries => .bound ((name, bound) :: entries)
  | result => result

/-! ## Where results come from -/

namespace Derives

variable {expr operator argument position bound : Expr ν} {arguments : List (Expr ν)}
  {items : List (Item ν)} {bindings : List (Lambda.Binding ν)} {name : String}
  {scope inner : Scope ν} {result : Result ν} {trace : Trace ν}

/-- Identifiers are not reduced. -/
theorem identifier?_eq_none (h : Derives code (.reduce expr scope) result trace) :
    expr.identifier? = none := by
  cases h <;> rfl

theorem not_reduces_name (h : Derives code (.reduce expr scope) (.name name) trace) : False := by
  cases h

theorem of_scope (h : Derives code (.reduce (.scope inner) scope) result trace) :
    reduct? inner = some result ∧ trace = [] := by
  cases h with
  | closure _ hkind => simp [reduct?, hkind]
  | thunk _ hkind hparent => simp [reduct?, hkind, hparent]
  | call _ hkind => simp [reduct?, hkind]
  | root _ hkind => simp [reduct?, hkind]

theorem of_reduct? (h : reduct? inner = some result) (scope : Scope ν) :
    Derives code (.reduce (.scope inner) scope) result [] := by
  unfold reduct? at h
  split at h
  case h_1 hkind =>
    cases h
    exact .closure scope hkind
  case h_2 hkind =>
    obtain ⟨parent, hparent, rfl⟩ := Option.map_eq_some_iff.1 h
    exact .thunk scope hkind hparent
  case h_3 hkind =>
    cases h
    exact .call scope hkind
  case h_4 hkind =>
    cases h
    exact .root scope hkind

theorem of_lambda (h : Derives code (.reduce (.lambda items) scope) result trace) :
    (∃ shape, Lambda.parts items = .error shape ∧ result = .failed (.malformedLambda shape) ∧
      trace = []) ∨
    ∃ bindings body found, Lambda.parts items = .ok (bindings, body) ∧
      Derives code (.bind bindings scope) found trace ∧ result = found.closed body scope := by
  cases h with
  | malformed _ hparts => exact .inl ⟨_, hparts, rfl, rfl⟩
  | lambdaFails hparts hbind => exact .inr ⟨_, _, _, hparts, hbind, rfl⟩
  | lambda hparts hbind => exact .inr ⟨_, _, _, hparts, hbind, rfl⟩

theorem of_application
    (h : Derives code (.reduce (.application operator arguments) scope) result trace) :
    (Derives code (.evaluate operator scope) result trace ∧
      ∀ head, result = .head head → head.isOperator = false) ∨
    ∃ head found before more, Derives code (.evaluate operator scope) (.head head) before ∧
      head.isOperator = true ∧ Derives code (.evaluateAll arguments scope) found more ∧
      result = found.called code head scope ∧ trace = before ++ more := by
  cases h with
  | operatorFails _ hoperator => exact .inl ⟨hoperator, nofun⟩
  | plainValue _ hoperator => exact .inl ⟨hoperator, fun _ hhead => by cases hhead; rfl⟩
  | argumentFails hoperator hhead harguments =>
    exact .inr ⟨_, _, _, _, hoperator, hhead, harguments, rfl, rfl⟩
  | nativeCall hoperator harguments =>
    exact .inr ⟨_, _, _, _, hoperator, rfl, harguments, rfl, rfl⟩
  | closureCall hoperator harguments =>
    exact .inr ⟨_, _, _, _, hoperator, rfl, harguments, rfl, rfl⟩

theorem of_identifier (h : Derives code (.evaluate (.identifier name) scope) result trace) :
    (∃ failure, scope.find name = .error failure ∧ result = .failed failure ∧ trace = []) ∨
    ∃ bound owner more, scope.find name = .ok (bound, owner) ∧
      Derives code (.evaluate bound owner) result more ∧
      trace = entries owner name result ++ more := by
  cases h with
  | missing hfind => exact .inl ⟨_, hfind, rfl, rfl⟩
  | identifier hfind hbound => exact .inr ⟨_, _, _, hfind, hbound, rfl⟩
  | fails hreduce => cases hreduce
  | head hreduce => cases hreduce
  | next hreduce _ => cases hreduce

theorem of_evaluate (hexpr : expr.identifier? = none)
    (h : Derives code (.evaluate expr scope) result trace) :
    (Derives code (.reduce expr scope) result trace ∧ ∀ next inner, result ≠ .next next inner) ∨
    ∃ next inner before more, Derives code (.reduce expr scope) (.next next inner) before ∧
      Derives code (.evaluate next inner) result more ∧ trace = before ++ more := by
  cases h with
  | missing _ => cases hexpr
  | identifier _ _ => cases hexpr
  | fails hreduce => exact .inl ⟨hreduce, nofun⟩
  | head hreduce => exact .inl ⟨hreduce, nofun⟩
  | next hreduce hnext => exact .inr ⟨_, _, _, _, hreduce, hnext, rfl⟩

theorem of_arguments
    (h : Derives code (.evaluateAll (argument :: arguments) scope) result trace) :
    (∃ failure, Derives code (.evaluate argument scope) (.failed failure) trace ∧
      result = .failed failure) ∨
    ∃ head found before more, Derives code (.evaluate argument scope) (.head head) before ∧
      Derives code (.evaluateAll arguments scope) found more ∧ result = found.after head ∧
      trace = before ++ more := by
  cases h with
  | firstFails _ hargument => exact .inl ⟨_, hargument, rfl⟩
  | laterFails hargument hrest => exact .inr ⟨_, _, _, _, hargument, hrest, rfl, rfl⟩
  | arguments hargument hrest => exact .inr ⟨_, _, _, _, hargument, hrest, rfl, rfl⟩

theorem of_position (hposition : position.identifier? = none)
    (h : Derives code (.name position scope) result trace) :
    (∃ found, Derives code (.reduce position scope) found trace ∧
      (∀ next inner, found ≠ .next next inner) ∧ result = found.named) ∨
    ∃ next inner before more, Derives code (.reduce position scope) (.next next inner) before ∧
      Derives code (.name next inner) result more ∧ trace = before ++ more := by
  cases h with
  | ownName _ _ => cases hposition
  | positional _ _ => cases hposition
  | nameFails hreduce => exact .inl ⟨_, hreduce, nofun, rfl⟩
  | name hreduce hname => exact .inl ⟨_, hreduce, nofun, by rw [Result.named, hname]⟩
  | noName hreduce hname => exact .inl ⟨_, hreduce, nofun, by rw [Result.named, hname]⟩
  | nextName hreduce hnext => exact .inr ⟨_, _, _, _, hreduce, hnext, rfl⟩

theorem of_bindings
    (h : Derives code (.bind ((position, bound) :: bindings) scope) result trace) :
    (∃ failure, Derives code (.name position scope) (.failed failure) trace ∧
      result = .failed failure) ∨
    ∃ name found before more, Derives code (.name position scope) (.name name) before ∧
      Derives code (.bind bindings scope) found more ∧ result = found.binding name bound ∧
      trace = before ++ more := by
  cases h with
  | bindingFails _ _ hname => exact .inl ⟨_, hname, rfl⟩
  | laterBindingFails _ hname hrest => exact .inr ⟨_, _, _, _, hname, hrest, rfl, rfl⟩
  | binding _ hname hrest => exact .inr ⟨_, _, _, _, hname, hrest, rfl, rfl⟩

/-- What a scope is reduced to is evaluated in its place. -/
theorem of_next {next : Expr ν} {owner : Scope ν}
    (hreduct : reduct? inner = some (.next next owner))
    (h : Derives code (.evaluate (.scope inner) scope) result trace) :
    Derives code (.evaluate next owner) result trace := by
  rcases h.of_evaluate rfl with ⟨hreduce, hstops⟩ | ⟨_, _, _, _, hreduce, hnext, rfl⟩
  · cases hreduct.symm.trans hreduce.of_scope.1
    exact absurd rfl (hstops next owner)
  · obtain ⟨hfound, rfl⟩ := hreduce.of_scope
    cases hreduct.symm.trans hfound
    exact hnext

end Derives
end CallByName
end CallByNeed
