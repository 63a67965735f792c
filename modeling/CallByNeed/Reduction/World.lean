import CallByNeed.Expr.Scope
import CallByNeed.Reduction.Event

/-! # Worlds

What evaluations share and change: the frames made so far with the records of what their
identifiers came to, the supply of identities for values, the state of the host, and the events so
far. Frames are only ever added, and a record is written once.
-/

namespace CallByNeed
set_option autoImplicit false

variable {ν σ α : Type}

/-- A result worth recording: it reduces no further and holds no frame. -/
inductive Terminal (ν : Type) where
  | value (value : Value ν)
  | native (method : Native ν)

def Terminal.toExpr : Terminal ν → Expr ν
  | .value it => .value it
  | .native method => .native method

/-- A frame with the results of its identifiers that are known. -/
structure Cell (ν : Type) where
  scope : Scope ν
  records : Table (Terminal ν)

/-- The state behind all evaluations of a session; `σ` is the host's own state. -/
structure World (ν σ : Type) where
  /-- The frames, each at its number. -/
  cells : Array (Cell ν)
  values : Nat
  host : σ
  events : Array (Event ν)

namespace World

def initial (host : σ) : World ν σ := ⟨#[], 0, host, #[]⟩

/-! ## Making values and frames -/

/-- A new value with the next number, the same object as no other. -/
def newValue (identity : Nat → Identity) (payload : Payload ν) :
    World ν σ → Value ν × World ν σ
  | ⟨cells, values, host, events⟩ =>
      (⟨identity values, payload⟩, ⟨cells, values + 1, host, events⟩)

/-- A new value that the host supplies. -/
def supplyValue (payload : Payload ν) : World ν σ → Value ν × World ν σ :=
  newValue .supplied payload

/-- A new value built in the course of an evaluation. -/
def buildValue (payload : Payload ν) : World ν σ → Value ν × World ν σ :=
  newValue .built payload

/-- A new frame, made from the number it gets. -/
def newScope (make : Nat → Scope ν) : World ν σ → Scope ν × World ν σ
  | ⟨cells, values, host, events⟩ =>
      let scope := make cells.size
      (scope, ⟨cells.push ⟨scope, .empty⟩, values, host, events⟩)

def newRoot (bindings : Table (Expr ν)) : World ν σ → Scope ν × World ν σ :=
  newScope fun number => .root number bindings

def newClosure (bindings : Table (Expr ν)) (body : Expr ν) (parent : Scope ν) :
    World ν σ → Scope ν × World ν σ :=
  newScope fun number => .closure number bindings body parent

def newThunk (deferred : Expr ν) (calling : Scope ν) : World ν σ → Scope ν × World ν σ :=
  newScope fun number => .thunk number deferred calling

def newThunks (calling : Scope ν) : List (Expr ν) → World ν σ → List (Expr ν) × World ν σ
  | [], world => ([], world)
  | expr :: rest, world =>
      let (thunk, world) := world.newThunk expr calling
      let (thunks, world) := newThunks calling rest world
      (.scope thunk :: thunks, world)

/-- A new call frame, with the arguments deferred in the calling scope. -/
def newCall (closure : Scope ν) (arguments : List (Expr ν)) (calling : Scope ν)
    (world : World ν σ) : Scope ν × World ν σ :=
  let (thunks, world) := newThunks calling arguments world
  world.newScope fun number => .call number closure thunks

/-! ## Records -/

def memoized (world : World ν σ) (scope : Scope ν) (name : String) : Option (Terminal ν) :=
  world.cells[scope.number]?.bind fun cell => cell.records.find? name

/-- Records what a frame's identifier came to, unless that is known already. -/
def memoize (scope : Scope ν) (name : String) (result : Terminal ν) : World ν σ → World ν σ
  | ⟨cells, values, host, events⟩ =>
      ⟨cells.modify scope.number fun cell =>
          ⟨cell.scope, cell.records.insertNew name result⟩, values, host, events⟩

def memoizeAll (result : Terminal ν) : List (Scope ν × String) → World ν σ → World ν σ
  | [], world => world
  | (owner, name) :: rest, world => memoizeAll result rest (world.memoize owner name result)

/-! ## Events and the host -/

def emit (event : Event ν) : World ν σ → World ν σ
  | ⟨cells, values, host, events⟩ => ⟨cells, values, host, events.push event⟩

def takeEvents : World ν σ → Array (Event ν) × World ν σ
  | ⟨cells, values, host, events⟩ => (events, ⟨cells, values, host, #[]⟩)

def updateHost (change : σ → α × σ) : World ν σ → α × World ν σ
  | ⟨cells, values, host, events⟩ =>
      let (result, host) := change host
      (result, ⟨cells, values, host, events⟩)

end World
end CallByNeed
