import CallByNeed.Proofs.CallByName.Basic
import CallByNeed.Proofs.Moves.Basic

/-! # What one move leads to

What an evaluation may do after what it does now, whatever its natives, its records and its machine
are: `Control.Next`, with one rule for each kind of move, and `Engine.move_next`, which says that
every move follows a rule. A property of controls that the rules keep holds throughout every
evaluation (`Engine.after_control`).
-/

namespace CallByNeed
set_option autoImplicit false

variable {ν σ α : Type} {part : Part}

/-- A step that finishes does so in a head. -/
def Outcome.Fits : Outcome ν → Prop
  | .finished head => head.Fits
  | .further _ _ | .binding _ _ _ => True

theorem Outcome.fits_ofUnnamed : OfUnnamed (Fits (ν := ν)) :=
  ⟨fun _ => trivial, fun _ hkind => hkind, fun _ _ => trivial⟩

/-- An identifier never finishes in a single step. -/
theorem Run.stepIdentifier_fits (name : String) (scope : Scope ν) :
    (stepIdentifier name scope : Run ν σ (Outcome ν)).Yields Outcome.Fits := by
  rw [stepIdentifier]
  cases scope.find name with
  | error failure =>
    intro machine outcome after hrun
    cases hrun
  | ok found =>
    refine .bind fun record => ?_
    cases record with
    | none => exact yields_pure trivial
    | some result => exact yields_pure trivial

/-- What may be done next. A loop begins within the limits, a step finishes in a head, a closure is
a closure, and the arguments of an `apply` are free of failures when they are handed over. -/
inductive Control.Next (limits : Limits) : Control ν → Control ν → Prop where
  /-- Any part may be stopped, or stop the part around it. -/
  | raise (control : Control ν) {part : Part} (stop : Stop) (rest : Rest ν part) :
      Next limits control (.raise stop rest)
  | ended (control : Control ν) (outcome : Except Stop (Expr ν)) :
      Next limits control (.ended outcome)
  | enter {expr : Expr ν} {scope : Scope ν} {rest : Rest ν .head}
      (hdepth : rest.depth ≤ limits.maxDepth) :
      Next limits (.enter expr scope rest) (.count expr scope (.toHead [] rest))
  | enterName {position : Expr ν} {scope : Scope ν} {rest : Rest ν .name}
      (hdepth : rest.depth ≤ limits.maxDepth) :
      Next limits (.enterName position scope rest) (.position position scope rest)
  | identifier {position : Expr ν} {scope : Scope ν} {rest : Rest ν .name} (name : String) :
      Next limits (.position position scope rest) (.name name rest)
  | position {position : Expr ν} {scope : Scope ν} {rest : Rest ν .name} :
      Next limits (.position position scope rest) (.count position scope (.toName rest))
  | count {expr : Expr ν} {scope : Scope ν} {rest : Rest ν .outcome} :
      Next limits (.count expr scope rest) (.report expr scope rest)
  | report {expr : Expr ν} {scope : Scope ν} {rest : Rest ν .outcome} :
      Next limits (.report expr scope rest) (.reduce expr scope rest)
  | stepped {expr : Expr ν} {scope : Scope ν} {rest : Rest ν .outcome} {outcome : Outcome ν}
      (houtcome : outcome.Fits) : Next limits (.reduce expr scope rest) (.outcome outcome rest)
  | lambda {items : List (Item ν)} {scope : Scope ν} {rest : Rest ν .outcome} :
      Next limits (.reduce (.lambda items) scope rest) (.close items scope (.lambda rest))
  | application {operator : Expr ν} {arguments : List (Expr ν)} {scope : Scope ν}
      {rest : Rest ν .outcome} :
      Next limits (.reduce (.application operator arguments) scope rest)
        (.enter operator scope (.operator arguments scope rest))
  | recorded {head : Head ν} {pending : List (Scope ν × String)} {rest : Rest ν .head} :
      Next limits (.outcome (.finished head) (.toHead pending rest)) (.head head rest)
  | further {next : Expr ν} {inner : Scope ν} {pending : List (Scope ν × String)}
      {rest : Rest ν .head} :
      Next limits (.outcome (.further next inner) (.toHead pending rest))
        (.count next inner (.toHead pending rest))
  | binding {name : String} {bound : Expr ν} {owner : Scope ν} {pending : List (Scope ν × String)}
      {rest : Rest ν .head} :
      Next limits (.outcome (.binding name bound owner) (.toHead pending rest))
        (.count bound owner (.toHead ((owner, name) :: pending) rest))
  | named {head : Head ν} {rest : Rest ν .name} (name : String) :
      Next limits (.outcome (.finished head) (.toName rest)) (.name name rest)
  | furtherName {outcome : Outcome ν} {position : Expr ν} {inner : Scope ν} {rest : Rest ν .name} :
      Next limits (.outcome outcome (.toName rest)) (.position position inner rest)
  | forced {closure : Scope ν} :
      Next limits (.head (.closure closure) .forced) (.enter closure.body closure .forced)
  | interpreted {closure : Scope ν} :
      Next limits (.head (.closure closure) .interpreted)
        (.enter closure.body closure .interpreted)
  | applied {head : Head ν} {arguments : List (Expr ν)} {scope : Scope ν} (callee : Callee ν)
      (harguments : ∀ argument ∈ arguments, argument.failure? = none) :
      Next limits (.head head (.applied arguments scope)) (.hand callee arguments scope .called)
  | ignored {value : Value ν} {arguments : List (Expr ν)} {scope : Scope ν}
      {rest : Rest ν .outcome} :
      Next limits (.head (.terminal (.value value)) (.operator arguments scope rest))
        (.outcome (.finished (.terminal (.value value))) rest)
  | operator {head : Head ν} {arguments : List (Expr ν)} {scope : Scope ν} {rest : Rest ν .outcome}
      (callee : Callee ν) :
      Next limits (.head head (.operator arguments scope rest))
        (.arguments callee [] arguments scope rest)
  | argument {head : Head ν} {callee : Callee ν} {done more : List (Expr ν)} {scope : Scope ν}
      {rest : Rest ν .outcome} :
      Next limits (.head head (.argument callee done more scope rest))
        (.arguments callee (done ++ [head.toExpr]) more scope rest)
  | bound {name : String} {bound : Expr ν} {more : List (Lambda.Binding ν)}
      {table : Table (Expr ν)} {body : Expr ν} {scope : Scope ν} {rest : Rest ν .closure} :
      Next limits (.name name (.binding bound more table body scope rest))
        (.bind more (table.insert name bound) body scope rest)
  | parts {items : List (Item ν)} {scope : Scope ν} {rest : Rest ν .closure}
      (bindings : List (Lambda.Binding ν)) (body : Expr ν) :
      Next limits (.close items scope rest) (.bind bindings .empty body scope rest)
  | bindings {position bound : Expr ν} {more : List (Lambda.Binding ν)} {table : Table (Expr ν)}
      {body : Expr ν} {scope : Scope ν} {rest : Rest ν .closure} :
      Next limits (.bind ((position, bound) :: more) table body scope rest)
        (.enterName position scope (.binding bound more table body scope rest))
  | closed {table : Table (Expr ν)} {body : Expr ν} {scope : Scope ν} {rest : Rest ν .closure}
      {closure : Scope ν} (hkind : closure.kind = .closure) :
      Next limits (.bind [] table body scope rest) (.closure closure rest)
  | closure {closure : Scope ν} {rest : Rest ν .outcome} :
      Next limits (.closure closure (.lambda rest)) (.outcome (.finished (.closure closure)) rest)
  | arguments {callee : Callee ν} {done : List (Expr ν)} {argument : Expr ν}
      {more : List (Expr ν)} {scope : Scope ν} {rest : Rest ν .outcome} :
      Next limits (.arguments callee done (argument :: more) scope rest)
        (.enter argument scope (.argument callee done more scope rest))
  | handed {callee : Callee ν} {done : List (Expr ν)} {scope : Scope ν} {rest : Rest ν .outcome} :
      Next limits (.arguments callee done [] scope rest) (.hand callee done scope (.step rest))
  | called {callee : Callee ν} {arguments : List (Expr ν)} {scope : Scope ν}
      {rest : Rest ν .outcome} (next : Expr ν) (inner : Scope ν) :
      Next limits (.hand callee arguments scope (.step rest)) (.outcome (.further next inner) rest)

/-! ## Every move follows a rule -/

namespace Moment

/-- After a run that comes to something a rule is followed, and after one that does not, a stop. -/
theorem afterRun_next {limits : Limits} {control : Control ν} {run : Run ν σ α}
    {next : α → Control ν} {rest : Rest ν part} {machine : Machine ν σ}
    (h : ∀ result after, run machine = (.ok result, after) →
      Control.Next limits control (next result)) :
    Control.Next limits control (afterRun run next rest machine).control := by
  rcases hrun : run machine with ⟨stop | result, after⟩
  · rw [afterRun_error hrun]
    exact .raise _ stop rest
  · rw [afterRun_ok hrun]
    exact h result after hrun

variable {limits : Limits}

theorem next_ofOperator (head : Head ν) (arguments : List (Expr ν)) (scope : Scope ν)
    (machine : Machine ν σ) : Control.Next limits (.head head (.applied arguments scope))
      (ofOperator head arguments scope machine).control := by
  rw [ofOperator]
  cases hfailure : arguments.findSome? Expr.failure? with
  | some failure => exact .raise _ _ _
  | none =>
    have harguments := List.findSome?_eq_none_iff.1 hfailure
    rcases head with (value | method) | closure
    · exact .ended _ _
    · exact .applied _ harguments
    · exact .applied _ harguments

theorem next_ofHead (head : Head ν) (rest : Rest ν .head) (machine : Machine ν σ) :
    Control.Next limits (.head head rest) (ofHead head rest machine).control := by
  cases rest with
  | resolved => exact .ended _ _
  | forced =>
    cases head with
    | terminal result => exact .ended _ _
    | closure closure => exact .forced
  | interpreted =>
    cases head with
    | terminal result => cases result <;> exact .ended _ _
    | closure closure => exact .interpreted
  | applied arguments scope => exact next_ofOperator head arguments scope machine
  | operator arguments scope rest =>
    rcases head with (value | method) | closure
    · exact .ignored
    · exact .operator _
    · exact .operator _
  | argument callee done more scope rest => exact .argument

theorem next_ofOutcome (outcome : Outcome ν) (rest : Rest ν .outcome) (machine : Machine ν σ) :
    Control.Next limits (.outcome outcome rest) (ofOutcome outcome rest machine).control := by
  cases rest with
  | toHead pending rest =>
    cases outcome with
    | finished head => exact afterRun_next fun _ _ _ => .recorded
    | further next inner => exact .further
    | binding name bound owner => exact .binding
  | toName rest =>
    cases outcome with
    | finished head =>
      rw [ofOutcome]
      cases head.name? with
      | none => exact .raise _ _ _
      | some name => exact .named name
    | further next inner => exact .furtherName
    | binding name bound owner => exact .furtherName

theorem next_ofStep (expr : Expr ν) (scope : Scope ν) (rest : Rest ν .outcome)
    (machine : Machine ν σ) :
    Control.Next limits (.reduce expr scope rest) (ofStep expr scope rest machine).control := by
  cases expr with
  | value value => exact .stepped trivial
  | native method => exact .stepped trivial
  | failure failure => exact .raise _ _ _
  | identifier name =>
    exact afterRun_next fun outcome after hrun =>
      .stepped (Run.stepIdentifier_fits name scope machine outcome after hrun)
  | lambda items => exact .lambda
  | scope inner => exact .stepped (Outcome.fits_ofUnnamed.enter inner)
  | application operator arguments => exact .application

end Moment

namespace Engine

variable (engine : Engine ν σ)

theorem permit_ok {depth : Nat} {machine after : Machine ν σ} {result : Unit}
    (h : engine.permit depth machine = (.ok result, after)) : depth ≤ engine.limits.maxDepth := by
  by_cases hdepth : depth ≤ engine.limits.maxDepth
  · exact hdepth
  · rw [permit_of_lt (Nat.lt_of_not_le hdepth)] at h
    cases h

theorem move_next (moment : Moment ν σ) :
    Control.Next engine.limits moment.control (engine.move moment).control := by
  obtain ⟨control, machine⟩ := moment
  cases control with
  | enter expr scope rest =>
    exact Moment.afterRun_next fun _ _ hrun => .enter (engine.permit_ok hrun)
  | enterName position scope rest =>
    exact Moment.afterRun_next fun _ _ hrun => .enterName (engine.permit_ok hrun)
  | position position scope rest =>
    rw [move]
    cases position.identifier? with
    | none => exact .position
    | some name => exact Moment.afterRun_next fun _ _ _ => .identifier _
  | count expr scope rest => exact Moment.afterRun_next fun _ _ _ => .count
  | report expr scope rest => exact .report
  | reduce expr scope rest => exact Moment.next_ofStep expr scope rest machine
  | outcome outcome rest => exact Moment.next_ofOutcome outcome rest machine
  | head head rest => exact Moment.next_ofHead head rest machine
  | name name rest =>
    cases rest with
    | binding bound more table body scope rest =>
      exact Moment.afterRun_next fun _ _ _ => .bound
  | close items scope rest =>
    rw [move]
    cases Lambda.parts items with
    | error shape => exact .raise _ _ _
    | ok parts => exact .parts _ _
  | bind bindings table body scope rest =>
    cases bindings with
    | nil =>
      exact Moment.afterRun_next fun closure after hrun =>
        .closed (Run.closing_yields _ table body scope machine closure after hrun)
    | cons binding more => exact .bindings
  | closure closure rest =>
    cases rest with
    | lambda rest => exact .closure
    | closed => exact .ended _ _
  | arguments callee done more scope rest =>
    cases more with
    | nil => exact .handed
    | cons argument more => exact .arguments
  | hand callee arguments scope rest =>
    -- What a call comes to is reduced further in a step, and is the result of an `apply`.
    have hresult (expr : Expr ν) (inner : Scope ν) : Control.Next engine.limits
        (.hand callee arguments scope rest) (rest.takeResult expr inner) := by
      cases rest with
      | step rest => exact .called expr inner
      | called => exact .ended _ _
    have hframe (frame : Scope ν) : Control.Next engine.limits
        (.hand callee arguments scope rest) (rest.takeFrame frame) := by
      cases rest with
      | step rest => exact .called frame.body frame
      | called => exact .ended _ _
    cases callee with
    | native method => exact Moment.afterRun_next fun result _ _ => hresult result scope
    | closure closure => exact Moment.afterRun_next fun frame _ _ => hframe frame
  | raise stop rest => cases rest <;> first | exact .ended _ _ | exact .raise _ _ _
  | ended outcome => exact .ended _ _

/-- What the rules keep holds throughout an evaluation. -/
theorem after_control {holds : Control ν → Prop}
    (hnext : ∀ {control next}, Control.Next engine.limits control next → holds control → holds next)
    {moment : Moment ν σ} (h : holds moment.control) (moves : Nat) :
    holds (engine.after moves moment).control :=
  engine.after_invariant (fun moment => holds moment.control)
    (fun moment => hnext (engine.move_next moment)) h moves

end Engine
end CallByNeed
