import CallByNeed.Demo.Options
import CallByNeed.Report
import CallByNeed.Expr.Lambda
import CallByNeed.Host.Natives

/-! # The demonstration

A few programs, run one after another in one root frame that binds two natives, with a report on
each of them.
-/

namespace CallByNeed.Demo
set_option autoImplicit false

open Standard (HostExpr)

def apply (operator : String) (arguments : List HostExpr) : HostExpr :=
  .application (.identifier operator) arguments

def bind (bindings : List (String × HostExpr)) (returning : HostExpr) : HostExpr :=
  .lambda (Lambda.items (bindings.map fun entry => (.identifier entry.1, entry.2)) returning)

def number (identity : Nat) (value : Int) : HostExpr :=
  .value ⟨.supplied identity, .integer .i64 value⟩

def text (identity : Nat) (value : String) : HostExpr :=
  .value ⟨.supplied identity, .text value⟩

def valueCount : Nat := 10

def programs : List (String × HostExpr) :=
  [ ("constant", number 0 42),
    ("native call", apply "first" [number 1 1, number 2 2]),
    ("bindings", bind [("x", number 3 1), ("y", apply "x" [])] (.identifier "y")),
    ("closure",
      bind [("double", .block (apply "add" [.identifier "$0", .identifier "$0"]))]
        (apply "double" [number 4 21])),
    ("higher order",
      bind
        [ ("twice", .block (apply "$0" [apply "$0" [.identifier "$1"]])),
          ("inc", .block (apply "add" [.identifier "$0", number 5 1])) ]
        (apply "twice" [.identifier "inc", number 6 5])),
    ("lexical scope",
      bind
        [ ("x", text 7 "definition"),
          ("show", .block (.identifier "x")),
          ("caller", bind [("x", text 8 "caller")] (apply "show" [])) ]
        (apply "caller" [])),
    ("missing argument",
      bind [("second", .block (.identifier "$1"))] (apply "second" [number 9 1])),
    ("missing identifier", .identifier "nowhere"),
    ("runaway", bind [("spin", .block (apply "spin" []))] (apply "spin" [])) ]

def natives : Table HostExpr :=
  .ofList (Standard.bindings [("add", .add), ("first", .first)])

/-- Runs programs in a root frame and reports on each. -/
def reports (engine : Engine StandardNative HostState) (color : Bool)
    (root : Scope StandardNative) :
    List (String × HostExpr) → World StandardNative HostState → List String
  | [], _ => []
  | (name, program) :: rest, world =>
      let evaluated := engine.interpret program root world
      let (_, world) := evaluated.world.takeEvents
      report name program evaluated.reported color :: reports engine color root rest world

def run (options : Options) (color : Bool) : List String :=
  let world : World StandardNative HostState := ⟨#[], valueCount, .initial, #[]⟩
  let (root, world) := world.newRoot natives
  reports (standardEngine options.limits) color root programs world

/-- What the command leaves: its exit code and its output. -/
structure CommandResult where
  exitCode : UInt8
  output : String

/-- The command with its arguments. `terminal` tells whether the output goes to one. -/
def command (arguments : List String) (terminal : Bool) : CommandResult :=
  match Options.read arguments with
  | .error .displayHelp => ⟨0, helpText⟩
  | .error _ => ⟨2, ""⟩
  | .ok options =>
      let color := !options.noColor && terminal
      ⟨0, String.join ((run options color).map fun line => line ++ "\n")⟩

end CallByNeed.Demo
