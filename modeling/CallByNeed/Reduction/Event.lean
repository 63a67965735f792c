import CallByNeed.Expr.Display

/-! # Events

What a reducer does, step by step, as data. Each event has a line of text for a log; frames never
change, so the line can be written at any later time.
-/

namespace CallByNeed
set_option autoImplicit false

variable {ν : Type}

/-- Something an evaluation did. -/
inductive Event (ν : Type) where
  /-- A reduction step begins, within the budget. -/
  | resolving (expr : Expr ν)
  /-- A plain value stands in operator position. -/
  | argumentsIgnored (operator : Value ν)
  | rebound (name : String) (dropped : Expr ν)
  | closing (bindings : Nat) (body : Expr ν)
  | calling (body : Expr ν) (arguments : List (Expr ν))
  | invoking (method : Native ν) (arguments : List (Expr ν)) (scope : Scope ν)
  | returned (method : Native ν) (result : Expr ν)
  | forcing (closure : Scope ν)
  /-- The evaluation of a program has ended, well or not. -/
  | finished (steps : Nat)

inductive LogLevel where
  | trace | debug | warn
  deriving DecidableEq

def LogLevel.name : LogLevel → String
  | .trace => "TRACE"
  | .debug => "DEBUG"
  | .warn => "WARN"

namespace Event

def level : Event ν → LogLevel
  | .rebound _ _ => .warn
  | .closing _ _ | .calling _ _ | .finished _ => .debug
  | .resolving _ | .argumentsIgnored _ | .invoking _ _ _ | .returned _ _ | .forcing _ => .trace

def message : Event ν → String
  | .resolving expr => "resolve " ++ expr.display
  | .argumentsIgnored operator => operator.display ++ " used as an operator, arguments ignored"
  | .rebound name dropped =>
      "'" ++ name ++ "' bound twice; dropping earlier value " ++ dropped.display
  | .closing bindings body =>
      "close over " ++ toString bindings ++ " binding(s) with body " ++ body.display
  | .calling body arguments => "call " ++ body.display ++ " with " ++ displayArguments arguments
  | .invoking method arguments _ =>
      "Call " ++ method.name ++ " with " ++ displayArguments arguments
  | .returned method result =>
      if result.isTerminal then "Call to " ++ method.name ++ " resulted in " ++ result.display
      else "Call to " ++ method.name ++ " needs further resolution: " ++ result.display
  | .forcing closure => "force closure " ++ closure.display
  | .finished steps => "interpret finished after " ++ toString steps ++ " steps"

end Event
end CallByNeed
