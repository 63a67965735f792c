import CallByNeed.Proofs.CallByName.Renumbering
import CallByNeed.Proofs.Worlds.Consistency
import CallByNeed.Reduction.Evaluation
import Mathlib.Logic.Relation

/-! # Operations on worlds

What a host can do with a world: make frames out of what it knows, do whatever leaves frames and
records alone, and start evaluations. Frames cannot be forged, so what a host uses is stored. A
native method computes a function of its arguments if its result is that function's, up to the
identity of values that it builds, and if all it does to the world is to make frames and leave the
others alone.
-/

namespace CallByNeed
set_option autoImplicit false

variable {ν σ : Type}

namespace World

/-- One operation of a host other than an evaluation. -/
inductive Makes : World ν σ → World ν σ → Prop where
  /-- Values, events and the state of the host change. -/
  | outside {before after : World ν σ} (hcells : after.cells = before.cells) :
      Makes before after
  | root (bindings : Table (Expr ν)) {world : World ν σ}
      (hbindings : world.StoresAll (scopesAll (bindings.entries.map Prod.snd))) :
      Makes world (world.newRoot bindings).2
  | thunk (deferred : Expr ν) (calling : Scope ν) {world : World ν σ}
      (hdeferred : world.StoresAll deferred.scopes) (hcalling : world.Stores calling) :
      Makes world (world.newThunk deferred calling).2
  | call (closure : Scope ν) (arguments : List (Expr ν)) (calling : Scope ν)
      {world : World ν σ} (hclosure : world.Stores closure)
      (harguments : world.StoresAll (scopesAll arguments)) (hcalling : world.Stores calling) :
      Makes world (world.newCall closure arguments calling).2

end World

/-- The scopes that a request mentions. -/
def Evaluation.scopes : Evaluation ν → List (Scope ν)
  | .resolve expr scope | .force expr scope | .interpret expr scope => scope :: expr.scopes
  | .apply operator arguments scope => scope :: (operator.scopes ++ scopesAll arguments)
  | .close items scope => scope :: scopesItems items

namespace World

/-- One operation of a host. An evaluation may succeed, fail or hit a limit. -/
inductive Proceeds (invoke : Invoke ν σ) : World ν σ → World ν σ → Prop where
  | makes {before after : World ν σ} (h : Makes before after) : Proceeds invoke before after
  | evaluates (limits : Limits) (request : Evaluation ν) {world : World ν σ}
      (hrequest : world.StoresAll request.scopes) :
      Proceeds invoke world (Engine.evaluate ⟨limits, invoke⟩ request world).world

/-- A world after any number of operations. -/
abbrev Later (invoke : Invoke ν σ) : World ν σ → World ν σ → Prop :=
  Relation.ReflTransGen (Proceeds invoke)

/-- A world that operations lead to. -/
def Reachable (invoke : Invoke ν σ) (world : World ν σ) : Prop :=
  ∃ host, Later invoke (.initial host) world

end World

/-- The natives compute a function of their arguments that treats frames as opaque. On the way they
may make frames and values, leave events and change the state of the host. Not covered are natives
that hold frames of their own, which `Code.Uniform` excludes, and natives that start evaluations
which leave records in frames, which `effects` excludes: no `World.Makes` changes a record. -/
structure Invoke.Computes (invoke : Invoke ν σ) (code : Code ν) : Prop where
  uniform : code.Uniform
  result : ∀ method arguments scope (world : World ν σ), world.Consistent →
    world.StoresAll (scopesAll arguments) → world.Stores scope →
    (invoke method arguments scope world).1.forget = (code method arguments).forget
  effects : ∀ method arguments scope (world : World ν σ), world.Consistent →
    world.StoresAll (scopesAll arguments) → world.Stores scope →
    Relation.ReflTransGen World.Makes world (invoke method arguments scope world).2

/-! ## What making frames leaves as it is -/

namespace World

theorem newThunks_records (calling : Scope ν) (exprs : List (Expr ν)) (world : World ν σ)
    (number : Nat) (name : String) :
    (world.newThunks calling exprs).2.recordAt number name = world.recordAt number name := by
  induction exprs generalizing world with
  | nil => rfl
  | cons expr rest ih =>
    have hthunk := recordAt_newScope world (fun place => .thunk place expr calling) number name
    exact (ih (world.newThunk expr calling).2).trans hthunk

theorem newCall_records (closure : Scope ν) (arguments : List (Expr ν)) (calling : Scope ν)
    (world : World ν σ) (number : Nat) (name : String) :
    (world.newCall closure arguments calling).2.recordAt number name =
      world.recordAt number name :=
  (recordAt_newScope _ _ number name).trans (newThunks_records calling arguments world number name)

theorem Makes.grows {before after : World ν σ} (h : Makes before after) : before.Grows after := by
  cases h with
  | outside hcells => exact .of_cells hcells
  | root bindings _ => exact grows_newScope before _
  | thunk deferred calling _ _ => exact grows_newScope before _
  | call closure arguments calling _ _ _ => exact grows_newCall closure arguments calling before

/-- A new frame has no record. -/
theorem Makes.records {before after : World ν σ} (h : Makes before after) (number : Nat)
    (name : String) : after.recordAt number name = before.recordAt number name := by
  cases h with
  | outside hcells => exact recordAt_of_cells hcells number name
  | root bindings _ => exact recordAt_newScope before _ number name
  | thunk deferred calling _ _ => exact recordAt_newScope before _ number name
  | call closure arguments calling _ _ _ =>
    exact newCall_records closure arguments calling before number name

theorem Makes.consistent {before after : World ν σ} (h : Makes before after)
    (hconsistent : before.Consistent) : after.Consistent := by
  cases h with
  | outside hcells => exact hconsistent.of_cells hcells
  | root bindings hbindings => exact hconsistent.newRoot hbindings
  | thunk deferred calling hdeferred hcalling => exact hconsistent.newThunk hdeferred hcalling
  | call closure arguments calling hclosure harguments hcalling =>
    exact (hconsistent.newCall hclosure harguments hcalling).1

end World

namespace Invoke.Computes

variable {invoke : Invoke ν σ} {code : Code ν} (h : invoke.Computes code)
  {method : Native ν} {arguments : List (Expr ν)} {scope : Scope ν} {world : World ν σ}
  (hconsistent : world.Consistent) (harguments : world.StoresAll (scopesAll arguments))
  (hscope : world.Stores scope)
include h hconsistent harguments hscope

theorem scopes : ∀ inner ∈ (invoke method arguments scope world).1.scopes,
    inner ∈ scopesAll arguments := by
  intro inner hm
  have hresult := h.result method arguments scope world hconsistent harguments hscope
  rw [← Expr.scopes_forget, hresult, Expr.scopes_forget] at hm
  exact h.uniform.scopes hm

theorem renumber (number : Nat → Nat) :
    (invoke method arguments scope world).1.renumber number =
      code method (arguments.map (Expr.renumber number)) := by
  rw [h.uniform.renumber]
  exact Expr.renumber_of_forget
    (h.result method arguments scope world hconsistent harguments hscope) number

end Invoke.Computes
end CallByNeed
