import CallByNeed.Expr.Basic
import CallByNeed.Identifier

/-! # Lookup in scopes

The frames that can be made, and the search for what a name stands for: names in the nearest frame
that binds them, positional names in the nearest frame with an argument list.
-/

namespace CallByNeed.Scope
set_option autoImplicit false

variable {ν : Type}

/-! ## Making frames -/

/-- A root frame with bindings of the host. Its body is a failure, as there is nothing to run. -/
def root (number : Nat) (bindings : Table (Expr ν)) : Scope ν :=
  ⟨⟨number, .root, bindings, .failure .rootScopeMisuse⟩, []⟩

def frames (scope : Scope ν) : List (Frame ν) :=
  scope.frame :: scope.outer

/-- A body with bindings of its own within a scope. -/
def closure (number : Nat) (bindings : Table (Expr ν)) (body : Expr ν) (parent : Scope ν) :
    Scope ν :=
  ⟨⟨number, .closure, bindings, body⟩, parent.frames⟩

/-- The body and the bindings of a closure with arguments. It lies where the closure lies. -/
def call (number : Nat) (closure : Scope ν) (arguments : List (Expr ν)) : Scope ν :=
  ⟨⟨number, .call arguments, closure.frame.bindings, closure.frame.body⟩, closure.outer⟩

def thunk (number : Nat) (deferred : Expr ν) (calling : Scope ν) : Scope ν :=
  ⟨⟨number, .thunk, .empty, deferred⟩, calling.frames⟩

/-! ## Reading frames -/

def number (scope : Scope ν) : Nat :=
  scope.frame.number

def kind (scope : Scope ν) : ScopeKind :=
  scope.frame.role.kind

def bindings (scope : Scope ν) : Table (Expr ν) :=
  scope.frame.bindings

def arguments? (scope : Scope ν) : Option (List (Expr ν)) :=
  scope.frame.role.arguments?

def body (scope : Scope ν) : Expr ν :=
  scope.frame.body

def parent? (scope : Scope ν) : Option (Scope ν) :=
  match scope.outer with
  | [] => none
  | frame :: outer => some ⟨frame, outer⟩

def depth (scope : Scope ν) : Nat :=
  scope.frames.length

def isSame (first second : Scope ν) : Bool :=
  first.number == second.number

/-! ## Lookup -/

/-- What an expression stands for and the scope in which it is to be evaluated. -/
abbrev Found (ν : Type) := Expr ν × Scope ν

/-- The argument with this index in the nearest frame that has arguments. -/
def findArgument (index : Nat) : List (Frame ν) → Except Failure (Found ν)
  | [] => .error (.positionalOutOfRange index 0)
  | frame :: outer =>
      match frame.role.arguments? with
      | some arguments =>
          match arguments[index]? with
          | some argument => .ok (argument, ⟨frame, outer⟩)
          | none => .error (.positionalOutOfRange index arguments.length)
      | none => findArgument index outer

/-- What the nearest frame that binds the name binds it to. -/
def findBinding (name : String) : List (Frame ν) → Except Failure (Found ν)
  | [] => .error (.missingIdentifier name)
  | frame :: outer =>
      match frame.bindings.find? name with
      | some value => .ok (value, ⟨frame, outer⟩)
      | none => findBinding name outer

/-- What an identifier stands for, still unevaluated, with the scope that owns it. -/
def find (scope : Scope ν) (name : String) : Except Failure (Found ν) :=
  match positional? name with
  | some index => findArgument index scope.frames
  | none => findBinding name scope.frames

/-- What an identifier stands for, or the failure to find it. -/
def lookup (scope : Scope ν) (name : String) : Expr ν :=
  match scope.find name with
  | .ok (found, _) => found
  | .error failure => .failure failure

end CallByNeed.Scope
