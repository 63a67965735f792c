import CallByNeed.Expr.Basic

/-! # Expressions as a reader sees them

Applications are lists in parentheses, lambdas are items in braces, and everything that has no
source form stands in `#<` and `>`.
-/

namespace CallByNeed
set_option autoImplicit false

variable {ν : Type}

mutual

/-- The text of an expression. -/
def Expr.display : Expr ν → String
  | .value value => value.display
  | .native method => method.display
  | .application operator [] => "(" ++ operator.display ++ ")"
  | .application operator arguments =>
      "(" ++ operator.display ++ " " ++ " ".intercalate (displayAll arguments) ++ ")"
  | .lambda items => "\x7b" ++ ", ".intercalate (displayItems items) ++ "\x7d"
  | .identifier name => name
  | .failure failure => "#<failure: " ++ failure.message ++ ">"
  | .scope ⟨frame, _⟩ => frame.display

def Frame.display : Frame ν → String
  | ⟨_, .root, _, _⟩ => "#<root>"
  | ⟨_, .closure, bindings, body⟩ =>
      let names := " ".intercalate bindings.names
      if names.isEmpty then "#<closure " ++ body.display ++ ">"
      else "#<closure [" ++ names ++ "] " ++ body.display ++ ">"
  | ⟨_, .call arguments, _, body⟩ =>
      "#<call " ++ body.display ++ " with " ++ toString arguments.length ++ " argument(s)>"
  | ⟨_, .thunk, _, body⟩ => "#<thunk " ++ body.display ++ ">"

def displayAll : List (Expr ν) → List String
  | [] => []
  | expr :: rest => expr.display :: displayAll rest

def Item.display : Item ν → String
  | .binding name value => name.display ++ ": " ++ value.display
  | .bare body => body.display

def displayItems : List (Item ν) → List String
  | [] => []
  | item :: rest => item.display :: displayItems rest

end

def Scope.display (scope : Scope ν) : String :=
  scope.frame.display

/-- An argument list in a log line: several arguments stand on lines of their own. -/
def displayArguments : List (Expr ν) → String
  | [] => "no args"
  | [argument] => argument.display
  | arguments => "\n\t" ++ "\n\t".intercalate (displayAll arguments)

end CallByNeed
