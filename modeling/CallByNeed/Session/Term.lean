import CallByNeed.Host.Natives

/-! # Terms

Written expressions of a session. A term becomes an expression when it is built: values get their
identity then, and registers are replaced by the expressions they hold.
-/

namespace CallByNeed.Session
set_option autoImplicit false

mutual

inductive Term where
  | identifier (name : String)
  | payload (payload : Payload StandardNative)
  | native (method : Native StandardNative)
  /-- A native of this name that gives back an expression whatever its arguments. -/
  | constant (name : String) (result : Term)
  | application (operator : Term) (arguments : List Term)
  | lambda (items : List TermItem)
  | failure (failure : Failure)
  | register (name : String)

inductive TermItem where
  | binding (name value : Term)
  | bare (body : Term)

end

/-- Why an operation of a session makes no sense. -/
inductive SessionError where
  | unknownRegister (name : String)
  | notAScope (name : String)
  | notAnOutcome

def SessionError.message : SessionError → String
  | .unknownRegister name => "unknown register " ++ name
  | .notAScope name => "register " ++ name ++ " holds no scope"
  | .notAnOutcome => "an outcome is a value or a failure"

abbrev HostWorld := World StandardNative HostState

/-- Building expressions with the help of registers. -/
abbrev Build := ReaderT (Table Standard.HostExpr) (ExceptT SessionError (StateM HostWorld))

def Build.withWorld {α : Type} (change : HostWorld → α × HostWorld) : Build α :=
  fun _ world =>
    let (result, world) := change world
    (.ok result, world)

def newConstant (name : String) (result : Standard.HostExpr) :
    HostWorld → Standard.HostExpr × HostWorld :=
  World.updateHost fun state =>
    (.native ⟨name, .constant state.constants.size⟩,
      { state with constants := state.constants.push result })

mutual

def Term.build : Term → Build Standard.HostExpr
  | .identifier name => pure (.identifier name)
  | .payload payload => do
      let value ← Build.withWorld (World.supplyValue payload)
      pure (.value value)
  | .native method => pure (.native method)
  | .constant name result => do
      let result ← result.build
      Build.withWorld (newConstant name result)
  | .application operator arguments => do
      let operator ← operator.build
      let arguments ← buildAll arguments
      pure (.application operator arguments)
  | .lambda items => do
      let items ← buildItems items
      pure (.lambda items)
  | .failure failure => pure (.failure failure)
  | .register name => do
      match (← read).find? name with
      | some expr => pure expr
      | none => throw (.unknownRegister name)

def buildAll : List Term → Build (List Standard.HostExpr)
  | [] => pure []
  | term :: rest => do
      let expr ← term.build
      let exprs ← buildAll rest
      pure (expr :: exprs)

def buildItems : List TermItem → Build (List (Item StandardNative))
  | [] => pure []
  | .binding name value :: rest => do
      let name ← name.build
      let value ← value.build
      let items ← buildItems rest
      pure (.binding name value :: items)
  | .bare body :: rest => do
      let body ← body.build
      let items ← buildItems rest
      pure (.bare body :: items)

end

def buildEntries (entries : List (String × Term)) :
    Build (List (String × Standard.HostExpr)) :=
  entries.mapM fun (name, term) => do
    let expr ← term.build
    pure (name, expr)

end CallByNeed.Session
