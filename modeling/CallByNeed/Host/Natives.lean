import CallByNeed.Host.Program

/-! # The standard natives

A host with arithmetic, text, code as data, reflection on the calling scope, a counter and a way to
start evaluations. Arithmetic wraps at 64 bits.
-/

namespace CallByNeed
set_option autoImplicit false

inductive StandardNative where
  | add | mul | sub | lt | eq | pair | choose | first | last | count | concat | display | symbol
  | fail | tick | call | delay | thunk | here | up | peek | memo | depth | argc | force
  /-- Gives back the constant with this index, whatever the arguments. -/
  | constant (index : Nat)

/-- The state of the host: a counter, and the expressions that constants stand for. -/
structure HostState where
  ticks : Int
  constants : Array (Expr StandardNative)

namespace HostState

def initial : HostState := ⟨0, #[]⟩

end HostState

namespace Standard

def named : List (String × StandardNative) :=
  [("add", .add), ("mul", .mul), ("sub", .sub), ("lt", .lt), ("eq", .eq), ("pair", .pair),
    ("if", .choose), ("first", .first), ("last", .last), ("count", .count), ("concat", .concat),
    ("show", .display), ("sym", .symbol), ("fail", .fail), ("tick", .tick), ("call", .call),
    ("delay", .delay), ("thunk", .thunk), ("here", .here), ("up", .up), ("peek", .peek),
    ("memo", .memo), ("depth", .depth), ("argc", .argc), ("force", .force)]

def ofName? (name : String) : Option (Native StandardNative) :=
  (named.find? fun entry => entry.1 == name).map fun entry => ⟨entry.1, entry.2⟩

def bindings (entries : List (String × StandardNative)) :
    List (String × Expr StandardNative) :=
  entries.map fun entry => (entry.1, .native ⟨entry.1, entry.2⟩)

abbrev HostProgram := Program StandardNative HostState

abbrev HostExpr := Expr StandardNative

/-- An integer reduced to 64 bits with sign. -/
def wrap (value : Int) : Int :=
  value.bmod (Nat.pow 2 64)

def integer (value : Int) : HostProgram :=
  .value (.integer .i64 (wrap value))

def int? (expr : HostExpr) : Option Int :=
  expr.value?.bind fun value => value.payload.int64?

def bool? (expr : HostExpr) : Option Bool :=
  match expr with
  | .value ⟨_, .bool value⟩ => some value
  | _ => none

def withTwoIntegers (name : String) (arguments : List HostExpr)
    (next : Int → Int → HostProgram) : HostProgram :=
  match arguments.mapM int? with
  | some [first, second] => next first second
  | _ => .refuse (name ++ " expects two integers")

/-- An accumulation over any number of integers, or a refusal. -/
def accumulate (name : String) (arguments : List HostExpr) (start : Int)
    (join : Int → Int → Int) : HostProgram :=
  match arguments.mapM int? with
  | some integers => integer (integers.foldl join start)
  | none => .refuse (name ++ " expects integers")

def withFirst (message : String) (arguments : List HostExpr) (next : HostExpr → HostProgram) :
    HostProgram :=
  match arguments with
  | argument :: _ => next argument
  | [] => .refuse message

def withName (message : String) (arguments : List HostExpr) (next : String → HostProgram) :
    HostProgram :=
  match arguments.head?.bind Expr.name? with
  | some name => next name
  | none => .refuse message

/-- The limits of evaluations that a native starts. -/
def forceLimits : Limits := ⟨500, 16⟩

/-- What a native does with its arguments in the calling scope. -/
def program (code : StandardNative) (arguments : List HostExpr) (scope : Scope StandardNative) :
    HostProgram :=
  match code with
  | .add => accumulate "add" arguments 0 (· + ·)
  | .mul => accumulate "mul" arguments 1 (· * ·)
  | .sub => withTwoIntegers "sub" arguments fun first second => integer (first - second)
  | .lt => withTwoIntegers "lt" arguments fun first second => .value (.bool (first < second))
  | .eq => withTwoIntegers "eq" arguments fun first second => .value (.bool (first == second))
  | .pair => withTwoIntegers "pair" arguments fun first second => .value (.pair first second)
  | .choose =>
      match arguments with
      | [condition, yes, no] =>
          match bool? condition with
          | some true => .done yes
          | some false => .done no
          | none => .refuse "if expects a boolean and two branches"
      | _ => .refuse "if expects a boolean and two branches"
  | .first => withFirst "first needs an argument" arguments .done
  | .last => withFirst "last needs an argument" arguments.reverse .done
  | .count => integer arguments.length
  | .concat =>
      match arguments.mapM Expr.name? with
      | some names => .value (.text (String.join names))
      | none => .refuse "concat expects strings"
  | .display => .value (.text (" ".intercalate (displayAll arguments)))
  | .symbol => withName "sym expects a name" arguments fun name => .done (.identifier name)
  | .fail => .refuse ((arguments.head?.bind Expr.name?).getD "failed")
  | .tick =>
      .host (fun state => { state with ticks := state.ticks + 1 }) fun before =>
        integer (before.ticks + 1)
  | .call =>
      match Expr.ofElements? arguments with
      | some application => .done application
      | none => .refuse "call needs an operator"
  | .delay => withFirst "delay needs an argument" arguments fun body => .done (.block body)
  | .thunk =>
      withFirst "thunk needs an argument" arguments fun deferred =>
        .newThunk deferred scope fun thunk => .done (.scope thunk)
  | .here => .done (.scope scope)
  | .up =>
      match scope.parent? with
      | some parent => .done (.scope parent)
      | none => .refuse "no parent"
  | .peek => withName "peek expects a name" arguments fun name => .done (scope.lookup name)
  | .memo =>
      withName "memo expects a name" arguments fun name =>
        .memoized scope name fun record => .value (.bool record.isSome)
  | .depth => integer scope.depth
  | .argc =>
      match scope.arguments? with
      | some supplied => integer supplied.length
      | none => integer (-1)
  | .force =>
      withFirst "force needs an argument" arguments fun expr =>
        .evaluate forceLimits (.force expr scope) fun result _ => .done result
  | .constant index =>
      .host id fun state =>
        match state.constants[index]? with
        | some expr => .done expr
        | none => .refuse "no such constant"

end Standard

def standardHost : Host StandardNative HostState :=
  fun method arguments scope => Standard.program method.code arguments scope

/-- How deeply evaluations that standard natives start may enter standard natives again: without a
limit in practice, as each level takes memory. -/
def standardLevels : Nat := Nat.pow 2 62

def standardEngine (limits : Limits) : Engine StandardNative HostState :=
  standardHost.engine standardLevels limits

end CallByNeed
