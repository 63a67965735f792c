/-! # Failures

Why an evaluation stopped without a value. A failure is also an expression of its own, so that
host code can return one; `Failure.message` is the text shown to a reader.
-/

namespace CallByNeed
set_option autoImplicit false

/-- Why the items of a lambda are not bindings followed by one return expression. -/
inductive LambdaShape where
  | noReturn
  /-- Two or more bare expressions. -/
  | manyReturns (count : Nat)
  /-- One bare expression that is not the last item. -/
  | bindingAfterReturn
  deriving DecidableEq

inductive Failure where
  | missingIdentifier (name : String)
  /-- The name position of a binding came to something that is no name, shown as text. -/
  | invalidBindingName (culprit : String)
  /-- The body of a root frame was asked for. -/
  | rootScopeMisuse
  /-- The nearest argument list is too short for the index. -/
  | positionalOutOfRange (index supplied : Nat)
  | malformedLambda (shape : LambdaShape)
  /-- The step after the last permitted one. -/
  | stepBudgetExhausted (steps : Nat)
  /-- Resolutions nested one level too deep. -/
  | recursionLimit (levels : Nat)
  | native (message : String)
  deriving DecidableEq

def LambdaShape.message : LambdaShape → String
  | .noReturn => "no return expression"
  | .manyReturns count => s!"{count} bare expressions where exactly one is allowed"
  | .bindingAfterReturn => "binding after the return expression"

def Failure.message : Failure → String
  | .missingIdentifier name => s!"'{name}' not found"
  | .invalidBindingName culprit => s!"cannot bind to {culprit}: not an identifier or string"
  | .rootScopeMisuse => "root scope has no default value"
  | .positionalOutOfRange index supplied =>
      s!"${index} out of range: {supplied} arguments supplied"
  | .malformedLambda shape => "malformed lambda body: " ++ shape.message
  | .stepBudgetExhausted steps => s!"gave up after {steps} evaluation steps"
  | .recursionLimit levels => s!"expressions nested more than {levels} levels deep"
  | .native message => message

end CallByNeed
