import CallByNeed.Report
import CallByNeed.Expr.Debug
import CallByNeed.Session.Basic

/-! # Operations of a session

Everything a session can be asked: evaluations, frames made by hand, and questions about
expressions and frames. `State.perform` answers one operation.
-/

namespace CallByNeed.Session
set_option autoImplicit false

open Standard (HostExpr)

abbrev HostScope := Scope StandardNative

/-- Evaluations of written expressions. A scope is the register that holds it. -/
inductive Request where
  | resolve (expr : Term) (scope : Option String)
  | force (expr : Term) (scope : Option String)
  | apply (operator : Term) (arguments : List Term) (scope : Option String)
  | close (items : List TermItem) (scope : Option String)
  | interpretIn (program : Term) (root : Option String)
  /-- A program in an empty root frame of its own. -/
  | interpret (program : Term)

/-- Questions that need no register of their own for the answer. -/
inductive Query where
  | limits
  /-- A program in an empty root frame, with the limits an engine has by default. -/
  | interpretDefault (program : Term)
  | debug (expr : Term)
  | inspect (scope : Option String)
  | isSame (first second : Term)
  | positional (name : String)
  | nameOf (expr : Term)
  | ofElements (elements : List Term)
  | parts (items : List TermItem)
  | report (name : String) (program : Term) (color : Bool) (outcome : Option Term)
      (scope : Option String)

/-- Operations whose result is an expression that can be kept in a register. -/
inductive Construction where
  | expr (expr : Term)
  | root (natives : Bool) (bindings : List (String × Term))
  | call (closure : Option String) (arguments : List Term) (scope : Option String)
  | thunk (deferred : Term) (scope : Option String)
  | parent (scope : Option String)
  | body (scope : Option String)
  | argument (scope : Option String) (index : Nat)
  | lookup (scope : Option String) (name : String)
  | memoized (scope : Option String) (name : String)
  | lambda (bindings : List (Term × Term)) (returning : Term)

/-- An operation, with the register that receives its result. -/
inductive Operation where
  | evaluate (request : Request) (target : Option String)
  | construct (construction : Construction) (target : Option String)
  | find (scope : Option String) (name : String) (target ownerTarget : Option String)
  | query (query : Query)

/-- What is to be seen of a frame. -/
structure Inspection where
  scope : HostScope
  /-- The bindings but for natives under their own names, with their texts. -/
  bindings : List (String × String)
  /-- Those of these names that have a record. -/
  memoized : List String
  /-- The registers that hold this very frame. -/
  same : List String

inductive Answer where
  | expr (expr : HostExpr)
  | none
  | limits (limits : Limits)
  | text (text : String)
  | truth (truth : Bool)
  | index (index : Nat)
  | found (expr : HostExpr) (owner : HostScope) (same : List String)
  | inspection (inspection : Inspection)
  | application (operator : HostExpr) (arguments : List HostExpr)
  | parts (bindings : List (HostExpr × HostExpr)) (body : HostExpr) (text : String)

/-- An answer with the steps of an evaluation and what happened during the operation. -/
structure Reply where
  answer : Except SessionError Answer
  steps : Option Nat
  events : Array (Event StandardNative)

/-! ## Evaluations -/

def Request.evaluation : Request → SessionM (Evaluation StandardNative)
  | .resolve expr scope => do pure (.resolve (← build expr.build) (← scopeOf scope))
  | .force expr scope => do pure (.force (← build expr.build) (← scopeOf scope))
  | .apply operator arguments scope => do
      pure (.apply (← build operator.build) (← build (buildAll arguments)) (← scopeOf scope))
  | .close items scope => do pure (.close (← build (buildItems items)) (← scopeOf scope))
  | .interpretIn program root => do pure (.interpret (← build program.build) (← scopeOf root))
  | .interpret program => do
      let program ← build program.build
      pure (.interpret program (← withWorld (World.newRoot .empty)))

def evaluateWith (engine : Engine StandardNative HostState)
    (request : Evaluation StandardNative) : SessionM (HostExpr × Nat) :=
  withWorld fun world =>
    let evaluated := engine.evaluate request world
    ((evaluated.result, evaluated.steps), evaluated.world)

/-! ## Frames and expressions -/

def registersOf (scope : HostScope) : SessionM (List String) := do
  let holds (entry : String × HostExpr) : Bool :=
    match entry.2 with
    | .scope held => held.isSame scope
    | _ => false
  pure (((← get).registers.entries.filter holds).map Prod.fst)

/-- Whether a binding is a native method under its own name. -/
def isOwnNative (entry : String × HostExpr) : Bool :=
  match entry.2 with
  | .native method => method.name == entry.1
  | _ => false

def inspectScope (scope : HostScope) : SessionM Inspection := do
  let shown := scope.bindings.entries.filter fun entry => !isOwnNative entry
  let world := (← get).world
  let recorded := shown.filter fun entry => (world.memoized scope entry.1).isSome
  pure
    { scope := scope
      bindings := shown.map fun entry => (entry.1, entry.2.display)
      memoized := recorded.map Prod.fst
      same := ← registersOf scope }

def Construction.result : Construction → SessionM (Option HostExpr)
  | .expr term => do pure (some (← build term.build))
  | .root natives bindings => do pure (some (.scope (← newRoot natives bindings)))
  | .call closure arguments scope => do
      let arguments ← build (buildAll arguments)
      let closure ← scopeOf closure
      let calling ← scopeOf scope
      pure (some (.scope (← withWorld (World.newCall closure arguments calling))))
  | .thunk deferred scope => do
      let deferred ← build deferred.build
      let calling ← scopeOf scope
      pure (some (.scope (← withWorld (World.newThunk deferred calling))))
  | .parent scope => do pure ((← scopeOf scope).parent?.map .scope)
  | .body scope => do pure (some (← scopeOf scope).body)
  | .argument scope index => do
      pure ((← scopeOf scope).arguments?.bind fun arguments => arguments[index]?)
  | .lookup scope name => do pure (some ((← scopeOf scope).lookup name))
  | .memoized scope name => do
      let scope ← scopeOf scope
      pure (((← get).world.memoized scope name).map Terminal.toExpr)
  | .lambda bindings returning => do
      let bindings ← bindings.mapM fun (name, value) => do
        pure (← build name.build, ← build value.build)
      let builder := Lambda.builder.bindAll bindings
      pure (some (.lambda (builder.returning (← build returning.build))))

/-- Whether two expressions are the same object, if they can be compared. -/
def sameness : HostExpr → HostExpr → Answer
  | .value first, .value second => .truth (first.isSame second)
  | .scope first, .scope second => .truth (first.isSame second)
  | _, _ => .none

/-- The outcome that an expression stands for. -/
def outcomeOf : HostExpr → SessionM (Except Failure (Value StandardNative))
  | .value value => pure (.ok value)
  | .failure failure => pure (.error failure)
  | _ => throw .notAnOutcome

def Query.answer : Query → SessionM Answer
  | .limits => do pure (.limits (← get).limits)
  | .interpretDefault program => do
      let program ← build program.build
      let root ← withWorld (World.newRoot .empty)
      let (result, _) ← evaluateWith (standardEngine {}) (.interpret program root)
      pure (.expr result)
  | .debug expr => do pure (.text (← build expr.build).debug)
  | .inspect scope => do pure (.inspection (← inspectScope (← scopeOf scope)))
  | .isSame first second => do
      let first ← build first.build
      let second ← build second.build
      pure (sameness first second)
  | .positional name =>
      match positional? name with
      | some index => pure (.index index)
      | none => pure .none
  | .nameOf expr => do
      match (← build expr.build).name? with
      | some name => pure (.text name)
      | none => pure .none
  | .ofElements elements => do
      match Expr.ofElements? (← build (buildAll elements)) with
      | some (.application operator arguments) => pure (.application operator arguments)
      | _ => pure .none
  | .parts items => do
      let items ← build (buildItems items)
      match Lambda.parts items with
      | .ok (bindings, body) =>
          pure (.parts bindings body (Expr.lambda items).display)
      | .error shape => pure (.expr (.failure (.malformedLambda shape)))
  | .report name program color outcome scope => do
      let program ← build program.build
      let outcome ←
        match outcome with
        | some term => do outcomeOf (← build term.build)
        | none => do
            let root ← scopeOf scope
            let engine := (← get).engine
            withWorld fun world =>
              let evaluated := engine.interpret program root world
              (evaluated.reported, evaluated.world)
      pure (.text (CallByNeed.report name program outcome color))

/-! ## Operations -/

/-- The answer to an operation and, for an evaluation, the steps it took. -/
def Operation.answer : Operation → SessionM (Answer × Option Nat)
  | .evaluate request target => do
      let evaluation ← request.evaluation
      let (result, steps) ← evaluateWith (← get).engine evaluation
      keep target result
      pure (.expr result, some steps)
  | .construct construction target => do
      match ← construction.result with
      | some expr =>
          keep target expr
          pure (.expr expr, none)
      | none => pure (.none, none)
  | .find scope name target ownerTarget => do
      match (← scopeOf scope).find name with
      | .ok (expr, owner) =>
          let same ← registersOf owner
          keep target expr
          keep ownerTarget (.scope owner)
          pure (.found expr owner same, none)
      | .error failure =>
          keep target (.failure failure)
          pure (.expr (.failure failure), none)
  | .query question => do pure (← question.answer, none)

/-- Answers one operation. The events of the operation are handed over with the answer. -/
def State.perform (state : State) (operation : Operation) : Reply × State :=
  match operation.answer state with
  | (outcome, ⟨limits, registers, world⟩) =>
      let (events, world) := world.takeEvents
      let after : State := ⟨limits, registers, world⟩
      match outcome with
      | .ok (answer, steps) => (⟨.ok answer, steps, events⟩, after)
      | .error error => (⟨.error error, none, events⟩, after)

end CallByNeed.Session
