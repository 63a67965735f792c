import CallByNeed.Expr.Display

/-! # Reports

How a program fared, for a terminal with or without colour.
-/

namespace CallByNeed
set_option autoImplicit false

variable {ν : Type}

/-- Styles of terminal text, by the parameter of the control sequence that begins them. -/
inductive Style where
  | bold | red | green

def Style.parameter : Style → String
  | .bold => "1"
  | .red => "31"
  | .green => "32"

/-- Text in a style, which ends where the text ends. -/
def Style.paint (style : Style) (text : String) : String :=
  "\x1b[" ++ style.parameter ++ "m" ++ text ++ "\x1b[0m"

/-- The name of a program, the program, and on a line below it the result or the failure. -/
def report (name : String) (program : Expr ν) (outcome : Except Failure (Value ν))
    (color : Bool) : String :=
  let paint (style : Style) (text : String) := if color then style.paint text else text
  let title := paint .bold (name ++ ":")
  let result :=
    match outcome with
    | .ok value => paint .green value.display
    | .error failure => paint .red ("error: " ++ failure.message)
  title ++ " " ++ program.display ++ "\n  => " ++ result

end CallByNeed
