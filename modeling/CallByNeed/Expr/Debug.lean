import CallByNeed.Expr.Display

/-! # Expressions in full

The structure of an expression, constructor by constructor. A frame shows its own parts and not the
frames around it.
-/

namespace CallByNeed
set_option autoImplicit false

variable {ν : Type}

def debugRecord (name : String) (fields : List (String × String)) : String :=
  let body := ", ".intercalate (fields.map fun field => field.1 ++ ": " ++ field.2)
  name ++ " \x7b " ++ body ++ " \x7d"

def debugList (elements : List String) : String :=
  "[" ++ ", ".intercalate elements ++ "]"

def LambdaShape.debug : LambdaShape → String
  | .noReturn => "NoReturnExpression"
  | .manyReturns count => "MultipleReturnExpressions(" ++ toString count ++ ")"
  | .bindingAfterReturn => "BindingAfterReturn"

def Failure.debug : Failure → String
  | .missingIdentifier name => "MissingIdentifier(" ++ Text.quoted name ++ ")"
  | .invalidBindingName culprit => "InvalidBindingName(" ++ Text.quoted culprit ++ ")"
  | .rootScopeMisuse => "RootScopeMisuse"
  | .positionalOutOfRange index supplied =>
      debugRecord "PositionalOutOfRange"
        [("index", toString index), ("supplied", toString supplied)]
  | .malformedLambda shape => "MalformedLambda(" ++ shape.debug ++ ")"
  | .stepBudgetExhausted steps => "StepBudgetExhausted(" ++ toString steps ++ ")"
  | .recursionLimit levels => "RecursionLimit(" ++ toString levels ++ ")"
  | .native message => "Native(" ++ Text.quoted message ++ ")"

mutual

/-- The expression in full. -/
def Expr.debug : Expr ν → String
  | .value value => "Value(Value(" ++ value.display ++ "))"
  | .native method => "Native(native method #<" ++ method.name ++ ">)"
  | .application operator arguments =>
      "Application(" ++ debugRecord "Application"
        [("operator", operator.debug), ("arguments", debugList (debugAll arguments))] ++ ")"
  | .lambda items =>
      "Lambda(" ++ debugRecord "LambdaBody" [("items", debugList (debugItems items))] ++ ")"
  | .identifier name => "Identifier(Identifier(" ++ Text.quoted name ++ "))"
  | .failure failure => "Failure(" ++ failure.debug ++ ")"
  | .scope ⟨⟨_, role, ⟨entries⟩, body⟩, _⟩ =>
      "Scope(Scope\x7bkind: " ++ role.kind.name ++
        ", bindings: \x7b" ++ ", ".intercalate (debugEntries entries) ++
        "\x7d, arguments: " ++ role.debugArguments ++ ", body: " ++ body.debug ++ "\x7d)"

def Role.debugArguments : Role ν → String
  | .call arguments => "Some(" ++ debugList (debugAll arguments) ++ ")"
  | .root | .closure | .thunk => "None"

def debugAll : List (Expr ν) → List String
  | [] => []
  | expr :: rest => expr.debug :: debugAll rest

def debugEntries : List (String × Expr ν) → List String
  | [] => []
  | (name, value) :: rest => (Text.quoted name ++ ": " ++ value.debug) :: debugEntries rest

def debugItems : List (Item ν) → List String
  | [] => []
  | .binding name value :: rest =>
      ("Binding(" ++ debugRecord "Binding" [("name", name.debug), ("value", value.debug)] ++ ")")
        :: debugItems rest
  | .bare body :: rest => ("Bare(" ++ body.debug ++ ")") :: debugItems rest

end
end CallByNeed
