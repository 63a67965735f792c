import CallByNeed.Host.Natives
import CallByNeed.Proofs.Worlds.Operations

/-! # Plain natives

A program that only builds values and gives a result computes a function of the arguments of its
native. A host of such programs that treats frames as opaque computes a code (`Host.computes`); the
standard arithmetic and choice make one.
-/

namespace CallByNeed
set_option autoImplicit false

variable {ν σ : Type}

/-- The program builds values and changes the state of the host, and whatever that state is, it
comes to this result, up to the identity of what it builds. -/
inductive Program.Gives : Program ν σ → Expr ν → Prop where
  | done {result expected : Expr ν} (h : result.forget = expected.forget) :
      Gives (.done result) expected
  | newValue {payload : Payload ν} {next : Value ν → Program ν σ} {expected : Expr ν}
      (h : ∀ number, Gives (next ⟨.built number, payload⟩) expected) :
      Gives (.newValue payload next) expected
  | host {change : σ → σ} {next : σ → Program ν σ} {expected : Expr ν}
      (h : ∀ state, Gives (next state) expected) : Gives (.host change next) expected

namespace Program

theorem Gives.run {invoke : Invoke ν σ} {program : Program ν σ} {expected : Expr ν}
    (h : program.Gives expected) (world : World ν σ) :
    (program.run invoke world).1.forget = expected.forget ∧
      (program.run invoke world).2.cells = world.cells := by
  induction h generalizing world with
  | done h => exact ⟨h, rfl⟩
  | newValue _ ih => exact ih world.values _
  | host _ ih => exact ih world.host _

end Program

/-- What a program that only builds values gives in this state of the host, with 0 for the identity
of what it builds. -/
def Program.answer (state : σ) : Program ν σ → Expr ν
  | .done result => result
  | .newValue payload next => (next ⟨.built 0, payload⟩).answer state
  | .host _ next => (next state).answer state
  | _ => .failure (.native "no plain program")

/-- A host of such programs computes a code, at every level but the one that refuses. -/
theorem Host.computes {host : Host ν σ} {code : Code ν} (huniform : code.Uniform)
    (h : ∀ method arguments scope, (host method arguments scope).Gives (code method arguments))
    (levels : Nat) : (host.invokeAt (levels + 1)).Computes code where
  uniform := huniform
  result method arguments scope world _ _ _ := ((h method arguments scope).run world).1
  effects method arguments scope world _ _ _ :=
    .single (.outside ((h method arguments scope).run world).2)

/-! ## Arithmetic and choice -/

namespace Standard

/-- The natives that only look at the values of their arguments and hand arguments on. -/
def isPlain : StandardNative → Bool
  | .add | .mul | .sub | .lt | .choose | .first | .fail => true
  | _ => false

def plainHost : Host StandardNative HostState := fun method arguments scope =>
  if isPlain method.code then program method.code arguments scope
  else .refuse "no plain native"

/-- What the plain natives compute, with 0 for the identity of built values. -/
def plainCode : Code StandardNative := fun method arguments =>
  (plainHost method arguments (.root 0 .empty)).answer .initial

/-- A plain program, whatever the state of the host. -/
abbrev Plain (program : HostProgram) : Prop :=
  program.Gives (program.answer .initial)

theorem plain_refuse (message : String) : Plain (.refuse message) :=
  .done rfl

theorem plain_value (payload : Payload StandardNative) : Plain (.value payload) :=
  .newValue fun _ => .done rfl

theorem plain_accumulate (name : String) (arguments : List HostExpr) (start : Int)
    (join : Int → Int → Int) : Plain (accumulate name arguments start join) := by
  unfold accumulate
  cases arguments.mapM int? with
  | none => exact plain_refuse _
  | some integers => exact plain_value _

theorem plain_withTwoIntegers (name : String) (arguments : List HostExpr)
    {next : Int → Int → HostProgram} (h : ∀ first second, Plain (next first second)) :
    Plain (withTwoIntegers name arguments next) := by
  unfold withTwoIntegers
  split
  · exact h _ _
  · exact plain_refuse _

theorem plain_program (code : StandardNative) (hcode : isPlain code = true)
    (arguments : List HostExpr) (scope : Scope StandardNative) :
    Plain (program code arguments scope) := by
  cases code with
  | add => exact plain_accumulate _ _ _ _
  | mul => exact plain_accumulate _ _ _ _
  | sub => exact plain_withTwoIntegers _ _ fun _ _ => plain_value _
  | lt => exact plain_withTwoIntegers _ _ fun _ _ => plain_value _
  | choose =>
    simp only [program]
    split
    · split
      · exact .done rfl
      · exact .done rfl
      · exact plain_refuse _
    · exact plain_refuse _
  | first =>
    cases arguments with
    | nil => exact plain_refuse _
    | cons argument rest => exact .done rfl
  | fail => exact plain_refuse _
  | _ => cases hcode

/-! ## Opaque frames -/

theorem int?_replaceScopes (replace : Scope StandardNative → Scope StandardNative)
    (expr : HostExpr) : int? (expr.replaceScopes replace) = int? expr := by
  cases expr <;> rfl

theorem bool?_replaceScopes (replace : Scope StandardNative → Scope StandardNative)
    (expr : HostExpr) : bool? (expr.replaceScopes replace) = bool? expr := by
  cases expr with
  | value it =>
    obtain ⟨identity, payload⟩ := it
    cases payload <;> rfl
  | _ => rfl

theorem integers_replaceScopes (replace : Scope StandardNative → Scope StandardNative)
    (arguments : List HostExpr) :
    (arguments.map (Expr.replaceScopes replace)).mapM int? = arguments.mapM int? := by
  rw [List.mapM_map]
  congr 1
  funext expr
  exact int?_replaceScopes replace expr

theorem name?_replaceScopes (replace : Scope StandardNative → Scope StandardNative)
    (expr : HostExpr) : (expr.replaceScopes replace).name? = expr.name? := by
  cases expr <;> rfl

theorem plainCode_uniform : plainCode.Uniform := by
  intro method arguments replace
  obtain ⟨name, code⟩ := method
  have hrefuse : ∀ message : String, (Program.refuse message : HostProgram).answer .initial =
      ((Program.refuse message : HostProgram).answer .initial).replaceScopes replace :=
    fun _ => rfl
  have hvalue : ∀ payload, (Program.value payload : HostProgram).answer .initial =
      ((Program.value payload : HostProgram).answer .initial).replaceScopes replace :=
    fun _ => rfl
  have haccumulate : ∀ name start join,
      (accumulate name (arguments.map (Expr.replaceScopes replace)) start join).answer .initial =
        ((accumulate name arguments start join).answer .initial).replaceScopes replace := by
    intro name start join
    rw [accumulate, accumulate, integers_replaceScopes]
    cases arguments.mapM int? with
    | none => exact hrefuse _
    | some integers => exact hvalue _
  have hwithTwo : ∀ (name : String) (payload : Int → Int → Payload StandardNative),
      (withTwoIntegers name (arguments.map (Expr.replaceScopes replace))
          fun first second => .value (payload first second)).answer .initial =
        ((withTwoIntegers name arguments
          fun first second => .value (payload first second)).answer .initial).replaceScopes
            replace := by
    intro name payload
    rw [withTwoIntegers, withTwoIntegers, integers_replaceScopes]
    split
    · exact hvalue _
    · exact hrefuse _
  cases code with
  | add => exact haccumulate _ _ _
  | mul => exact haccumulate _ _ _
  | sub => exact hwithTwo "sub" fun first second => .integer .i64 (wrap (first - second))
  | lt => exact hwithTwo "lt" fun first second => .bool (first < second)
  | choose =>
    rcases arguments with _ | ⟨condition, _ | ⟨yes, _ | ⟨no, _ | ⟨more, rest⟩⟩⟩⟩
    · rfl
    · rfl
    · rfl
    · simp only [plainCode, plainHost, isPlain, if_true, program, List.map_cons, List.map_nil,
        bool?_replaceScopes]
      rcases bool? condition with _ | _ | _
      · exact hrefuse _
      · rfl
      · rfl
    · rfl
  | first => cases arguments <;> rfl
  | fail =>
    cases arguments with
    | nil => rfl
    | cons argument rest =>
      show Expr.failure (.native (((argument.replaceScopes replace).name?).getD "failed")) = _
      rw [name?_replaceScopes]
      rfl
  | _ => rfl

/-- A plain native does not look at the calling scope. -/
theorem program_scope {code : StandardNative} (hcode : isPlain code = true)
    (arguments : List HostExpr) (first second : Scope StandardNative) :
    program code arguments first = program code arguments second := by
  cases code with
  | add | mul | sub | lt | choose | first | fail => rfl
  | _ => cases hcode

theorem plainHost_gives (method : Native StandardNative) (arguments : List HostExpr)
    (scope : Scope StandardNative) :
    (plainHost method arguments scope).Gives (plainCode method arguments) := by
  unfold plainCode plainHost
  by_cases hplain : isPlain method.code = true
  · rw [if_pos hplain, if_pos hplain, program_scope hplain arguments (.root 0 .empty) scope]
    exact plain_program method.code hplain arguments scope
  · rw [if_neg hplain, if_neg hplain]
    exact plain_refuse _

theorem plainHost_computes (levels : Nat) :
    (plainHost.invokeAt (levels + 1)).Computes plainCode :=
  Host.computes plainCode_uniform plainHost_gives levels

end Standard
end CallByNeed
