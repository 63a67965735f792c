import CallByNeed.Session.Term

/-! # Sessions

A session is one engine with registers for expressions. The register `root` starts as the session's
root frame.
-/

namespace CallByNeed.Session
set_option autoImplicit false

structure Setup where
  limits : Limits := {}
  /-- Whether the root frame binds the standard natives. -/
  natives : Bool := true
  /-- Further bindings of the root frame. -/
  bindings : List (String × Term) := []

structure State where
  limits : Limits
  registers : Table Standard.HostExpr
  world : HostWorld

abbrev SessionM := ExceptT SessionError (StateM State)

def State.engine (state : State) : Engine StandardNative HostState :=
  standardEngine state.limits

def withWorld {α : Type} (change : HostWorld → α × HostWorld) : SessionM α :=
  fun ⟨limits, registers, world⟩ =>
    let (result, world) := change world
    (.ok result, ⟨limits, registers, world⟩)

def build {α : Type} (building : Build α) : SessionM α :=
  fun ⟨limits, registers, world⟩ =>
    let (outcome, world) := building registers world
    (outcome, ⟨limits, registers, world⟩)

def keep (register : Option String) (expr : Standard.HostExpr) : SessionM Unit :=
  fun ⟨limits, registers, world⟩ =>
    let registers :=
      match register with
      | some name => registers.insert name expr
      | none => registers
    (.ok (), ⟨limits, registers, world⟩)

/-- The scope in a register; `root` unless another one is named. -/
def scopeOf (register : Option String) : SessionM (Scope StandardNative) := do
  let name := register.getD "root"
  match (← get).registers.find? name with
  | some (.scope scope) => pure scope
  | some _ => throw (.notAScope name)
  | none => throw (.unknownRegister name)

/-- A new root frame with the standard natives, if wanted, and then the given bindings. -/
def newRoot (natives : Bool) (bindings : List (String × Term)) :
    SessionM (Scope StandardNative) := do
  let entries ← build (buildEntries bindings)
  let standard := if natives then Standard.bindings Standard.named else []
  withWorld (World.newRoot (.ofList (standard ++ entries)))

def start (setup : Setup) : Except SessionError State :=
  let begin : SessionM Unit := do
    let root ← newRoot setup.natives setup.bindings
    keep (some "root") (.scope root)
  match begin ⟨setup.limits, .empty, .initial .initial⟩ with
  | (.ok (), state) => .ok state
  | (.error error, _) => .error error

end CallByNeed.Session
