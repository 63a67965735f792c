import CallByNeed.Failure
import CallByNeed.Table
import CallByNeed.Value

/-! # Expressions and scopes

An expression is source code, a result, or a scope with code waiting in it. A scope is a frame
together with the frames that enclose it. Frames never change once they are made, so an expression
holds its scopes as they are; what changes is kept elsewhere, under the number of the frame.
-/

namespace CallByNeed
set_option autoImplicit false

mutual

/-- Expressions over host natives with codes in `ν`. -/
inductive Expr (ν : Type) where
  | value (value : Value ν)
  | native (method : Native ν)
  | application (operator : Expr ν) (arguments : List (Expr ν))
  | lambda (items : List (Item ν))
  | identifier (name : String)
  | failure (failure : Failure)
  /-- The body of the scope's frame, to be reduced where the role of the frame says. -/
  | scope (scope : Scope ν)

/-- What a lambda lists: bindings and, if it is well formed, one return expression at the end. -/
inductive Item (ν : Type) where
  | binding (name value : Expr ν)
  | bare (body : Expr ν)

/-- What a frame is for. -/
inductive Role (ν : Type) where
  /-- The outermost frame, filled by the host. -/
  | root
  /-- A lambda closed over the scope it was met in. -/
  | closure
  /-- A closure applied to arguments. -/
  | call (arguments : List (Expr ν))
  /-- An expression deferred in the scope it was supplied in. -/
  | thunk

/-- A frame: names bound to unevaluated expressions, and a pending body. -/
structure Frame (ν : Type) where
  /-- Its place in the order in which frames are made, which identifies it. -/
  number : Nat
  role : Role ν
  bindings : Table (Expr ν)
  body : Expr ν

/-- A frame within the frames that enclose it, nearest first. -/
structure Scope (ν : Type) where
  frame : Frame ν
  outer : List (Frame ν)

end

variable {ν : Type}

inductive ScopeKind where
  | root | closure | call | thunk
  deriving DecidableEq

def ScopeKind.name : ScopeKind → String
  | .root => "Root"
  | .closure => "Closure"
  | .call => "Call"
  | .thunk => "Thunk"

def Role.kind : Role ν → ScopeKind
  | .root => .root
  | .closure => .closure
  | .call _ => .call
  | .thunk => .thunk

def Role.arguments? : Role ν → Option (List (Expr ν))
  | .call arguments => some arguments
  | _ => none

namespace Expr

def value? : Expr ν → Option (Value ν)
  | .value it => some it
  | _ => none

def identifier? : Expr ν → Option String
  | .identifier name => some name
  | _ => none

def failure? : Expr ν → Option Failure
  | .failure it => some it
  | _ => none

/-- The name that the expression spells as a value. -/
def name? (expr : Expr ν) : Option String :=
  expr.value?.bind Value.name?

/-- Whether the expression is a result that reduces no further. Closures are not among them, as
forcing runs their bodies. -/
def isTerminal : Expr ν → Bool
  | .value _ | .native _ | .failure _ => true
  | .application _ _ | .lambda _ | .identifier _ | .scope _ => false

def ofElements? : List (Expr ν) → Option (Expr ν)
  | [] => none
  | operator :: arguments => some (.application operator arguments)

def block (body : Expr ν) : Expr ν :=
  .lambda [.bare body]

end Expr
end CallByNeed
