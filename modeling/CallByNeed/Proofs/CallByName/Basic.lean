import CallByNeed.Proofs.Renumbering.Lookup

/-! # Call by name

The plain semantics of the language as big step rules: no records, no loop and no limits. An
identifier is evaluated anew wherever it is met. Frames that are made on the way have the number 0,
as nothing here tells frames apart.

Each derivation lists the identifiers that came to a terminal result on the way, as entries of a
trace. No rule reads a trace; it is what an evaluation with records may have recorded.
-/

namespace CallByNeed
set_option autoImplicit false

variable {ν : Type}

/-- Natives as functions of their arguments. -/
abbrev Code (ν : Type) := Native ν → List (Expr ν) → Expr ν

/-- Whether a head can be applied. Plain values only stand for themselves. -/
def Head.isOperator : Head ν → Bool
  | .terminal (.value _) => false
  | .terminal (.native _) | .closure _ => true

/-- What a resolution may come to, as an expression. -/
def Expr.IsWeakHead : Expr ν → Prop
  | .value _ | .native _ => True
  | .scope frame => frame.kind = .closure
  | .application _ _ | .lambda _ | .identifier _ | .failure _ => False

/-- The closure of a head is a closure. -/
def Head.Fits : Head ν → Prop
  | .terminal _ => True
  | .closure scope => scope.kind = .closure

theorem Head.Fits.toExpr {head : Head ν} (h : head.Fits) : head.toExpr.IsWeakHead := by
  rcases head with (value | method) | closure
  · trivial
  · trivial
  · exact h

theorem Expr.IsWeakHead.head {expr : Expr ν} (h : expr.IsWeakHead) :
    ∃ head : Head ν, expr = head.toExpr ∧ head.Fits := by
  cases expr with
  | value value => exact ⟨.terminal (.value value), rfl, trivial⟩
  | native method => exact ⟨.terminal (.native method), rfl, trivial⟩
  | scope frame => exact ⟨.closure frame, rfl, h⟩
  | _ => exact absurd h not_false

namespace CallByName

/-- An identifier of a frame that came to a terminal result. -/
structure Entry (ν : Type) where
  owner : Nat
  name : String
  result : Terminal ν

abbrev Trace (ν : Type) := List (Entry ν)

inductive Demand (ν : Type) where
  /-- One reduction of an expression that is no identifier. -/
  | reduce (expr : Expr ν) (scope : Scope ν)
  | evaluate (expr : Expr ν) (scope : Scope ν)
  /-- The weak head forms of arguments, from left to right. -/
  | evaluateAll (exprs : List (Expr ν)) (scope : Scope ν)
  /-- The name that a name position comes to. An identifier is the name itself. -/
  | name (position : Expr ν) (scope : Scope ν)
  /-- What bindings bind, with their names worked out in order. -/
  | bind (bindings : List (Lambda.Binding ν)) (scope : Scope ν)

inductive Result (ν : Type) where
  | failed (failure : Failure)
  | head (head : Head ν)
  /-- The expression to evaluate in place of the one that was reduced. -/
  | next (expr : Expr ν) (scope : Scope ν)
  | heads (heads : List (Expr ν))
  | name (name : String)
  | bound (entries : List (String × Expr ν))

/-- The entry for an identifier with this result: closures and failures have none. -/
def entries (owner : Scope ν) (name : String) : Result ν → Trace ν
  | .head (.terminal result) => [⟨owner.number, name, result⟩]
  | _ => []

/-- The frame of a call, with the arguments deferred in the calling scope. -/
def calledFrame (closure : Scope ν) (arguments : List (Expr ν)) (calling : Scope ν) : Scope ν :=
  .call 0 closure (arguments.map fun argument => .scope (.thunk 0 argument calling))

/-- The rules of call by name. -/
inductive Derives (code : Code ν) : Demand ν → Result ν → Trace ν → Prop where
  -- Reductions.
  | value (it : Value ν) (scope : Scope ν) :
      Derives code (.reduce (.value it) scope) (.head (.terminal (.value it))) []
  | native (method : Native ν) (scope : Scope ν) :
      Derives code (.reduce (.native method) scope) (.head (.terminal (.native method))) []
  | failure (failure : Failure) (scope : Scope ν) :
      Derives code (.reduce (.failure failure) scope) (.failed failure) []
  | closure {inner : Scope ν} (scope : Scope ν) (hkind : inner.kind = .closure) :
      Derives code (.reduce (.scope inner) scope) (.head (.closure inner)) []
  | thunk {inner parent : Scope ν} (scope : Scope ν) (hkind : inner.kind = .thunk)
      (hparent : inner.parent? = some parent) :
      Derives code (.reduce (.scope inner) scope) (.next inner.body parent) []
  | call {inner : Scope ν} (scope : Scope ν) (hkind : inner.kind = .call) :
      Derives code (.reduce (.scope inner) scope) (.next inner.body inner) []
  | root {inner : Scope ν} (scope : Scope ν) (hkind : inner.kind = .root) :
      Derives code (.reduce (.scope inner) scope) (.next (.failure .rootScopeMisuse) inner) []
  | malformed {items : List (Item ν)} {shape : LambdaShape} (scope : Scope ν)
      (hparts : Lambda.parts items = .error shape) :
      Derives code (.reduce (.lambda items) scope) (.failed (.malformedLambda shape)) []
  | lambdaFails {items : List (Item ν)} {bindings : List (Lambda.Binding ν)} {body : Expr ν}
      {scope : Scope ν} {failure : Failure} {trace : Trace ν}
      (hparts : Lambda.parts items = .ok (bindings, body))
      (hbind : Derives code (.bind bindings scope) (.failed failure) trace) :
      Derives code (.reduce (.lambda items) scope) (.failed failure) trace
  | lambda {items : List (Item ν)} {bindings : List (Lambda.Binding ν)} {body : Expr ν}
      {scope : Scope ν} {bound : List (String × Expr ν)} {trace : Trace ν}
      (hparts : Lambda.parts items = .ok (bindings, body))
      (hbind : Derives code (.bind bindings scope) (.bound bound) trace) :
      Derives code (.reduce (.lambda items) scope)
        (.head (.closure (.closure 0 (.ofList bound) body scope))) trace
  | operatorFails {operator : Expr ν} (arguments : List (Expr ν)) {scope : Scope ν}
      {failure : Failure} {trace : Trace ν}
      (hoperator : Derives code (.evaluate operator scope) (.failed failure) trace) :
      Derives code (.reduce (.application operator arguments) scope) (.failed failure) trace
  | plainValue {operator : Expr ν} (arguments : List (Expr ν)) {scope : Scope ν}
      {it : Value ν} {trace : Trace ν}
      (hoperator : Derives code (.evaluate operator scope) (.head (.terminal (.value it))) trace) :
      Derives code (.reduce (.application operator arguments) scope)
        (.head (.terminal (.value it))) trace
  | argumentFails {operator : Expr ν} {arguments : List (Expr ν)} {scope : Scope ν}
      {head : Head ν} {failure : Failure} {trace more : Trace ν}
      (hoperator : Derives code (.evaluate operator scope) (.head head) trace)
      (hhead : head.isOperator = true)
      (harguments : Derives code (.evaluateAll arguments scope) (.failed failure) more) :
      Derives code (.reduce (.application operator arguments) scope) (.failed failure)
        (trace ++ more)
  | nativeCall {operator : Expr ν} {arguments heads : List (Expr ν)} {scope : Scope ν}
      {method : Native ν} {trace more : Trace ν}
      (hoperator :
        Derives code (.evaluate operator scope) (.head (.terminal (.native method))) trace)
      (harguments : Derives code (.evaluateAll arguments scope) (.heads heads) more) :
      Derives code (.reduce (.application operator arguments) scope)
        (.next (code method heads) scope) (trace ++ more)
  | closureCall {operator : Expr ν} {arguments heads : List (Expr ν)} {scope closure : Scope ν}
      {trace more : Trace ν}
      (hoperator : Derives code (.evaluate operator scope) (.head (.closure closure)) trace)
      (harguments : Derives code (.evaluateAll arguments scope) (.heads heads) more) :
      Derives code (.reduce (.application operator arguments) scope)
        (.next closure.body (calledFrame closure heads scope)) (trace ++ more)
  -- Evaluation to weak head form.
  | missing {name : String} {scope : Scope ν} {failure : Failure}
      (hfind : scope.find name = .error failure) :
      Derives code (.evaluate (.identifier name) scope) (.failed failure) []
  | identifier {name : String} {scope owner : Scope ν} {bound : Expr ν} {result : Result ν}
      {trace : Trace ν} (hfind : scope.find name = .ok (bound, owner))
      (hbound : Derives code (.evaluate bound owner) result trace) :
      Derives code (.evaluate (.identifier name) scope) result
        (entries owner name result ++ trace)
  | fails {expr : Expr ν} {scope : Scope ν} {failure : Failure} {trace : Trace ν}
      (hreduce : Derives code (.reduce expr scope) (.failed failure) trace) :
      Derives code (.evaluate expr scope) (.failed failure) trace
  | head {expr : Expr ν} {scope : Scope ν} {head : Head ν} {trace : Trace ν}
      (hreduce : Derives code (.reduce expr scope) (.head head) trace) :
      Derives code (.evaluate expr scope) (.head head) trace
  | next {expr next : Expr ν} {scope inner : Scope ν} {result : Result ν}
      {trace more : Trace ν} (hreduce : Derives code (.reduce expr scope) (.next next inner) trace)
      (hnext : Derives code (.evaluate next inner) result more) :
      Derives code (.evaluate expr scope) result (trace ++ more)
  -- Arguments.
  | noArgument (scope : Scope ν) : Derives code (.evaluateAll [] scope) (.heads []) []
  | firstFails {argument : Expr ν} (rest : List (Expr ν)) {scope : Scope ν}
      {failure : Failure} {trace : Trace ν}
      (hargument : Derives code (.evaluate argument scope) (.failed failure) trace) :
      Derives code (.evaluateAll (argument :: rest) scope) (.failed failure) trace
  | laterFails {argument : Expr ν} {rest : List (Expr ν)} {scope : Scope ν} {head : Head ν}
      {failure : Failure} {trace more : Trace ν}
      (hargument : Derives code (.evaluate argument scope) (.head head) trace)
      (hrest : Derives code (.evaluateAll rest scope) (.failed failure) more) :
      Derives code (.evaluateAll (argument :: rest) scope) (.failed failure) (trace ++ more)
  | arguments {argument : Expr ν} {rest heads : List (Expr ν)} {scope : Scope ν}
      {head : Head ν} {trace more : Trace ν}
      (hargument : Derives code (.evaluate argument scope) (.head head) trace)
      (hrest : Derives code (.evaluateAll rest scope) (.heads heads) more) :
      Derives code (.evaluateAll (argument :: rest) scope) (.heads (head.toExpr :: heads))
        (trace ++ more)
  -- Names of bindings.
  | ownName {name : String} (scope : Scope ν) (hname : positional? name = none) :
      Derives code (.name (.identifier name) scope) (.name name) []
  | positional {name : String} {index : Nat} (scope : Scope ν)
      (hname : positional? name = some index) :
      Derives code (.name (.identifier name) scope) (.failed (.invalidBindingName name)) []
  | nameFails {position : Expr ν} {scope : Scope ν} {failure : Failure} {trace : Trace ν}
      (hreduce : Derives code (.reduce position scope) (.failed failure) trace) :
      Derives code (.name position scope) (.failed failure) trace
  | name {position : Expr ν} {scope : Scope ν} {head : Head ν} {name : String} {trace : Trace ν}
      (hreduce : Derives code (.reduce position scope) (.head head) trace)
      (hname : head.name? = some name) : Derives code (.name position scope) (.name name) trace
  | noName {position : Expr ν} {scope : Scope ν} {head : Head ν} {trace : Trace ν}
      (hreduce : Derives code (.reduce position scope) (.head head) trace)
      (hname : head.name? = none) :
      Derives code (.name position scope) (.failed (.invalidBindingName head.toExpr.display)) trace
  | nextName {position next : Expr ν} {scope inner : Scope ν} {result : Result ν}
      {trace more : Trace ν}
      (hreduce : Derives code (.reduce position scope) (.next next inner) trace)
      (hnext : Derives code (.name next inner) result more) :
      Derives code (.name position scope) result (trace ++ more)
  -- Bindings.
  | noBinding (scope : Scope ν) : Derives code (.bind [] scope) (.bound []) []
  | bindingFails {position : Expr ν} (bound : Expr ν) (rest : List (Lambda.Binding ν))
      {scope : Scope ν} {failure : Failure} {trace : Trace ν}
      (hname : Derives code (.name position scope) (.failed failure) trace) :
      Derives code (.bind ((position, bound) :: rest) scope) (.failed failure) trace
  | laterBindingFails {position : Expr ν} (bound : Expr ν) {rest : List (Lambda.Binding ν)}
      {scope : Scope ν} {name : String} {failure : Failure} {trace more : Trace ν}
      (hname : Derives code (.name position scope) (.name name) trace)
      (hrest : Derives code (.bind rest scope) (.failed failure) more) :
      Derives code (.bind ((position, bound) :: rest) scope) (.failed failure) (trace ++ more)
  | binding {position : Expr ν} (bound : Expr ν) {rest : List (Lambda.Binding ν)}
      {scope : Scope ν} {name : String} {others : List (String × Expr ν)}
      {trace more : Trace ν} (hname : Derives code (.name position scope) (.name name) trace)
      (hrest : Derives code (.bind rest scope) (.bound others) more) :
      Derives code (.bind ((position, bound) :: rest) scope) (.bound ((name, bound) :: others))
        (trace ++ more)

/-- Evaluation to a value or a native method: closures are run as blocks. -/
inductive Forces (code : Code ν) : Expr ν → Scope ν → Except Failure (Terminal ν) → Trace ν → Prop
    where
  | fails {expr : Expr ν} {scope : Scope ν} {failure : Failure} {trace : Trace ν}
      (heval : Derives code (.evaluate expr scope) (.failed failure) trace) :
      Forces code expr scope (.error failure) trace
  | terminal {expr : Expr ν} {scope : Scope ν} {result : Terminal ν} {trace : Trace ν}
      (heval : Derives code (.evaluate expr scope) (.head (.terminal result)) trace) :
      Forces code expr scope (.ok result) trace
  | closure {expr : Expr ν} {scope closure : Scope ν} {answer : Except Failure (Terminal ν)}
      {trace more : Trace ν}
      (heval : Derives code (.evaluate expr scope) (.head (.closure closure)) trace)
      (hbody : Forces code closure.body closure answer more) :
      Forces code expr scope answer (trace ++ more)

/-- An operator applied to arguments as they are. The frame of a call is not run. -/
inductive Applies (code : Code ν) (operator : Expr ν) (arguments : List (Expr ν)) (scope : Scope ν) :
    Except Failure (Expr ν) → Prop where
  | operatorFails {failure : Failure} {trace : Trace ν}
      (hoperator : Derives code (.evaluate operator scope) (.failed failure) trace) :
      Applies code operator arguments scope (.error failure)
  | argumentFails {head : Head ν} {failure : Failure} {trace : Trace ν}
      (hoperator : Derives code (.evaluate operator scope) (.head head) trace)
      (harguments : arguments.findSome? Expr.failure? = some failure) :
      Applies code operator arguments scope (.error failure)
  | plainValue {it : Value ν} {trace : Trace ν}
      (hoperator : Derives code (.evaluate operator scope) (.head (.terminal (.value it))) trace)
      (harguments : arguments.findSome? Expr.failure? = none) :
      Applies code operator arguments scope (.ok (.value it))
  | nativeCall {method : Native ν} {trace : Trace ν}
      (hoperator :
        Derives code (.evaluate operator scope) (.head (.terminal (.native method))) trace)
      (harguments : arguments.findSome? Expr.failure? = none) :
      Applies code operator arguments scope (.ok (code method arguments))
  | closureCall {closure : Scope ν} {trace : Trace ν}
      (hoperator : Derives code (.evaluate operator scope) (.head (.closure closure)) trace)
      (harguments : arguments.findSome? Expr.failure? = none) :
      Applies code operator arguments scope (.ok (.scope (calledFrame closure arguments scope)))

end CallByName
end CallByNeed
