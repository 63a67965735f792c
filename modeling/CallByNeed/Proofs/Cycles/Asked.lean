import CallByNeed.Proofs.CallByName.Determinism
import Mathlib.Logic.Relation

/-! # What a demand asks for

By the rules of call by name a demand asks for other demands, one after another: an application for
its operator, for its arguments once the operator came to something that can be applied, and for
what it reduces to. A demand with a result asks for nothing without end (`Derives.acc`), so it does
not ask for itself on the way (`Derives.not_asked`).
-/

namespace CallByNeed
set_option autoImplicit false

open Relation

namespace CallByName

variable {ν : Type} {code : Code ν}

/-- The first demand is one that the second one asks for directly. -/
inductive Asked (code : Code ν) : Demand ν → Demand ν → Prop where
  | reduction {expr : Expr ν} (scope : Scope ν) (hexpr : expr.identifier? = none) :
      Asked code (.reduce expr scope) (.evaluate expr scope)
  | next {expr next : Expr ν} {scope inner : Scope ν} {trace : Trace ν}
      (hreduce : Derives code (.reduce expr scope) (.next next inner) trace) :
      Asked code (.evaluate next inner) (.evaluate expr scope)
  | bound {name : String} {scope owner : Scope ν} {bound : Expr ν}
      (hfind : scope.find name = .ok (bound, owner)) :
      Asked code (.evaluate bound owner) (.evaluate (.identifier name) scope)
  /-- Instead of what an identifier is bound to, a result may be evaluated again. -/
  | recorded (name : String) (scope owner : Scope ν) (result : Terminal ν) :
      Asked code (.evaluate result.toExpr owner) (.evaluate (.identifier name) scope)
  | operator (operator : Expr ν) (arguments : List (Expr ν)) (scope : Scope ν) :
      Asked code (.evaluate operator scope) (.reduce (.application operator arguments) scope)
  | arguments {operator : Expr ν} {scope : Scope ν} {head : Head ν} {trace : Trace ν}
      (arguments : List (Expr ν))
      (hoperator : Derives code (.evaluate operator scope) (.head head) trace)
      (hhead : head.isOperator = true) :
      Asked code (.evaluateAll arguments scope) (.reduce (.application operator arguments) scope)
  | argument (argument : Expr ν) (rest : List (Expr ν)) (scope : Scope ν) :
      Asked code (.evaluate argument scope) (.evaluateAll (argument :: rest) scope)
  | rest {argument : Expr ν} {scope : Scope ν} {head : Head ν} {trace : Trace ν}
      (rest : List (Expr ν))
      (hargument : Derives code (.evaluate argument scope) (.head head) trace) :
      Asked code (.evaluateAll rest scope) (.evaluateAll (argument :: rest) scope)
  | bindings {items : List (Item ν)} {bindings : List (Lambda.Binding ν)} {body : Expr ν}
      (scope : Scope ν) (hparts : Lambda.parts items = .ok (bindings, body)) :
      Asked code (.bind bindings scope) (.reduce (.lambda items) scope)
  | name (position bound : Expr ν) (rest : List (Lambda.Binding ν)) (scope : Scope ν) :
      Asked code (.name position scope) (.bind ((position, bound) :: rest) scope)
  | names {position : Expr ν} {scope : Scope ν} {name : String} {trace : Trace ν} (bound : Expr ν)
      (rest : List (Lambda.Binding ν))
      (hname : Derives code (.name position scope) (.name name) trace) :
      Asked code (.bind rest scope) (.bind ((position, bound) :: rest) scope)
  | position {position : Expr ν} (scope : Scope ν) (hposition : position.identifier? = none) :
      Asked code (.reduce position scope) (.name position scope)
  | nextName {position next : Expr ν} {scope inner : Scope ν} {trace : Trace ν}
      (hreduce : Derives code (.reduce position scope) (.next next inner) trace) :
      Asked code (.name next inner) (.name position scope)

/-! ## Demands with a result

One lemma for each kind of demand says which of the demands that it asks for have to be accessible.
-/

section Accessible

variable {expr operator position bound : Expr ν} {arguments : List (Expr ν)} {scope : Scope ν}
  {rest : List (Lambda.Binding ν)} {trace : Trace ν}

theorem acc_evaluate (hexpr : expr.identifier? = none)
    (hreduction : Acc (Asked code) (.reduce expr scope))
    (hnext : ∀ next inner trace, Derives code (.reduce expr scope) (.next next inner) trace →
      Acc (Asked code) (.evaluate next inner)) : Acc (Asked code) (.evaluate expr scope) := by
  refine .intro _ fun demand hasked => ?_
  cases hasked with
  | reduction => exact hreduction
  | next hreduce => exact hnext _ _ _ hreduce
  | bound => cases hexpr
  | recorded => cases hexpr

theorem acc_name (hreduction : Acc (Asked code) (.reduce position scope))
    (hnext : ∀ next inner trace, Derives code (.reduce position scope) (.next next inner) trace →
      Acc (Asked code) (.name next inner)) : Acc (Asked code) (.name position scope) := by
  refine .intro _ fun demand hasked => ?_
  cases hasked with
  | position => exact hreduction
  | nextName hreduce => exact hnext _ _ _ hreduce

theorem acc_terminal (result : Terminal ν) (scope : Scope ν) :
    Acc (Asked code) (.evaluate result.toExpr scope) := by
  cases result with
  | value it => exact acc_evaluate rfl (.intro _ nofun) nofun
  | native method => exact acc_evaluate rfl (.intro _ nofun) nofun

/-- An identifier asks for what it is bound to. -/
theorem acc_identifier {name : String}
    (hbound : ∀ bound owner, scope.find name = .ok (bound, owner) →
      Acc (Asked code) (.evaluate bound owner)) :
    Acc (Asked code) (.evaluate (.identifier name) scope) := by
  refine .intro _ fun demand hasked => ?_
  cases hasked with
  | reduction _ hexpr => cases hexpr
  | next hreduce => cases hreduce
  | bound hfind => exact hbound _ _ hfind
  | recorded _ _ owner result => exact acc_terminal result owner

theorem acc_application (hoperator : Acc (Asked code) (.evaluate operator scope))
    (harguments : ∀ head trace, Derives code (.evaluate operator scope) (.head head) trace →
      head.isOperator = true → Acc (Asked code) (.evaluateAll arguments scope)) :
    Acc (Asked code) (.reduce (.application operator arguments) scope) := by
  refine .intro _ fun demand hasked => ?_
  cases hasked with
  | operator => exact hoperator
  | arguments _ hderived hhead => exact harguments _ _ hderived hhead

theorem acc_arguments {argument : Expr ν} (hargument : Acc (Asked code) (.evaluate argument scope))
    (hrest : ∀ head trace, Derives code (.evaluate argument scope) (.head head) trace →
      Acc (Asked code) (.evaluateAll arguments scope)) :
    Acc (Asked code) (.evaluateAll (argument :: arguments) scope) := by
  refine .intro _ fun demand hasked => ?_
  cases hasked with
  | argument => exact hargument
  | rest _ hderived => exact hrest _ _ hderived

theorem acc_lambda {items : List (Item ν)} {bindings : List (Lambda.Binding ν)} {body : Expr ν}
    (hparts : Lambda.parts items = .ok (bindings, body))
    (hbind : Acc (Asked code) (.bind bindings scope)) :
    Acc (Asked code) (.reduce (.lambda items) scope) := by
  refine .intro _ fun demand hasked => ?_
  cases hasked with
  | bindings _ hfound =>
    cases hparts.symm.trans hfound
    exact hbind

theorem acc_bind (hname : Acc (Asked code) (.name position scope))
    (hrest : ∀ name trace, Derives code (.name position scope) (.name name) trace →
      Acc (Asked code) (.bind rest scope)) :
    Acc (Asked code) (.bind ((position, bound) :: rest) scope) := by
  refine .intro _ fun demand hasked => ?_
  cases hasked with
  | name => exact hname
  | names _ _ hderived => exact hrest _ _ hderived

end Accessible

/-- A demand with a result asks for nothing without end. -/
theorem Derives.acc {demand : Demand ν} {result : Result ν} {trace : Trace ν}
    (h : Derives code demand result trace) : Acc (Asked code) demand := by
  induction h with
  | value | native | failure | closure | thunk | call | root => exact .intro _ nofun
  | malformed scope hparts =>
    refine .intro _ fun demand hasked => ?_
    cases hasked with
    | bindings _ hfound => cases hparts.symm.trans hfound
  | lambdaFails hparts _ ih | lambda hparts _ ih => exact acc_lambda hparts ih
  | operatorFails arguments hoperator ih =>
    refine acc_application ih fun head trace hderived _ => ?_
    cases (hoperator.deterministic hderived).1
  | plainValue arguments hoperator ih =>
    refine acc_application ih fun head trace hderived hhead => ?_
    cases (hoperator.deterministic hderived).1
    cases hhead
  | argumentFails _ _ _ ihoperator iharguments | nativeCall _ _ ihoperator iharguments
  | closureCall _ _ ihoperator iharguments =>
    exact acc_application ihoperator fun _ _ _ _ => iharguments
  | missing hfind =>
    refine acc_identifier fun bound owner hfound => ?_
    cases hfind.symm.trans hfound
  | identifier hfind _ ih =>
    refine acc_identifier fun bound owner hfound => ?_
    cases hfind.symm.trans hfound
    exact ih
  | fails hreduce ih | head hreduce ih =>
    refine acc_evaluate hreduce.identifier?_eq_none ih fun next inner trace hderived => ?_
    cases (hreduce.deterministic hderived).1
  | next hreduce _ ihreduce ihnext =>
    refine acc_evaluate hreduce.identifier?_eq_none ihreduce fun next inner trace hderived => ?_
    cases (hreduce.deterministic hderived).1
    exact ihnext
  | noArgument scope => exact .intro _ nofun
  | firstFails rest hargument ih =>
    refine acc_arguments ih fun head trace hderived => ?_
    cases (hargument.deterministic hderived).1
  | laterFails _ _ ihargument ihrest | arguments _ _ ihargument ihrest =>
    exact acc_arguments ihargument fun _ _ _ => ihrest
  | ownName | positional =>
    refine .intro _ fun demand hasked => ?_
    cases hasked with
    | position _ hposition => cases hposition
    | nextName hreduce => cases hreduce
  | nameFails hreduce ih | name hreduce _ ih | noName hreduce _ ih =>
    refine acc_name ih fun next inner trace hderived => ?_
    cases (hreduce.deterministic hderived).1
  | nextName hreduce _ ihreduce ihnext =>
    refine acc_name ihreduce fun next inner trace hderived => ?_
    cases (hreduce.deterministic hderived).1
    exact ihnext
  | noBinding scope => exact .intro _ nofun
  | bindingFails bound rest hname ih =>
    refine acc_bind ih fun name trace hderived => ?_
    cases (hname.deterministic hderived).1
  | laterBindingFails bound _ _ ihname ihrest | binding bound _ _ ihname ihrest =>
    exact acc_bind ihname fun _ _ _ => ihrest

/-- A demand that asks for itself in its own course has no result. -/
theorem Derives.not_asked {demand : Demand ν} {result : Result ν} {trace : Trace ν}
    (h : Derives code demand result trace) : ¬TransGen (Asked code) demand demand := by
  have hacc := h.acc.transGen
  clear h
  induction hacc with
  | intro demand _ ih => exact fun hcycle => ih demand hcycle hcycle

/-! ## Parts of a demand -/

section Parts

variable {scope : Scope ν} {trace : Trace ν} {heads : List (Expr ν)}

/-- After the arguments before it, each argument is asked for. -/
theorem asked_of_arguments {before : List (Expr ν)} (target : Expr ν) (rest : List (Expr ν))
    (h : Derives code (.evaluateAll before scope) (.heads heads) trace) :
    ReflTransGen (Asked code) (.evaluate target scope)
      (.evaluateAll (before ++ target :: rest) scope) := by
  induction before generalizing heads trace with
  | nil => exact .single (.argument target rest scope)
  | cons first before ih =>
    cases h with
    | arguments hfirst hbefore => exact (ih hbefore).tail (.rest _ hfirst)

/-- After the names before it, each name is asked for. -/
theorem asked_of_bindings {before : List (Lambda.Binding ν)} {entries : List (String × Expr ν)}
    (position bound : Expr ν) (rest : List (Lambda.Binding ν))
    (h : Derives code (.bind before scope) (.bound entries) trace) :
    ReflTransGen (Asked code) (.name position scope)
      (.bind (before ++ (position, bound) :: rest) scope) := by
  induction before generalizing entries trace with
  | nil => exact .single (.name position bound rest scope)
  | cons first before ih =>
    cases h with
    | binding _ hfirst hbefore => exact (ih hbefore).tail (.names _ _ hfirst)

/-- An application asks for its operator and then, unless it came to a value, for each argument. -/
theorem asked_of_parts {operator target : Expr ν} {arguments before rest : List (Expr ν)}
    (hparts : operator :: arguments = before ++ target :: rest)
    (h : Derives code (.evaluateAll before scope) (.heads heads) trace)
    (hoperator : ∀ value, heads.head? ≠ some (.value value)) :
    ReflTransGen (Asked code) (.evaluate target scope)
      (.reduce (.application operator arguments) scope) := by
  cases before with
  | nil =>
    cases hparts
    exact .single (.operator _ _ scope)
  | cons first before =>
    cases hparts
    cases h with
    | @arguments _ _ others _ head _ _ hfirst hbefore =>
      have hhead : head.isOperator = true := by
        rcases head with (value | method) | closure
        · exact absurd rfl (hoperator value)
        · rfl
        · rfl
      exact (asked_of_arguments target rest hbefore).tail (.arguments _ hfirst hhead)

end Parts

end CallByName
end CallByNeed
