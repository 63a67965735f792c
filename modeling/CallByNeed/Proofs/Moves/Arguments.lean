import CallByNeed.Proofs.Moves.Budgets
import CallByNeed.Proofs.Records.Invariant

/-! # What natives and call frames are handed

In every evaluation the arguments of a step of an application are values, native methods and
closures when they are handed over, whatever natives, thunks and records supply
(`arguments_handed_over`). Only the application at the end of an `apply` gets its arguments as they
are, and none of them is a failure.

The invariant of the moves is `Control.Fits`: heads are what resolutions may come to, and so are the
arguments that have been resolved.
-/

namespace CallByNeed
set_option autoImplicit false

variable {ν σ : Type}

/-- The frame has arguments, and each of them is the thunk of an expression of this kind. -/
def Scope.Defers (fit : Expr ν → Prop) (frame : Scope ν) : Prop :=
  ∃ arguments, frame.arguments? = some arguments ∧
    ∀ argument ∈ arguments, ∃ thunk, argument = .scope thunk ∧ thunk.kind = .thunk ∧ fit thunk.body

theorem World.newThunks_fit {fit : Expr ν → Prop} (calling : Scope ν) {exprs : List (Expr ν)}
    (h : ∀ expr ∈ exprs, fit expr) (world : World ν σ) :
    ∀ argument ∈ (world.newThunks calling exprs).1,
      ∃ thunk, argument = .scope thunk ∧ thunk.kind = .thunk ∧ fit thunk.body := by
  induction exprs generalizing world with
  | nil => exact fun argument hm => absurd hm List.not_mem_nil
  | cons expr rest ih =>
    obtain ⟨hexpr, hrest⟩ := List.forall_mem_cons.1 h
    intro argument hm
    rcases List.mem_cons.1 hm with rfl | hlater
    · exact ⟨.thunk world.cells.size expr calling, rfl, rfl, hexpr⟩
    · exact ih hrest (world.newThunk expr calling).2 argument hlater

theorem World.newCall_defers {fit : Expr ν → Prop} (closure calling : Scope ν)
    {arguments : List (Expr ν)} (h : ∀ argument ∈ arguments, fit argument) (world : World ν σ) :
    (world.newCall closure arguments calling).1.Defers fit :=
  ⟨_, rfl, newThunks_fit calling h world⟩

/-! ## The invariant -/

/-- The arguments done are such as resolutions come to, and what is left of an `apply` is left of
this request. -/
def Rest.Fits (request : Evaluation ν) : {part : Part} → Rest ν part → Prop
  | _, .resolved | _, .forced | _, .interpreted | _, .closed => True
  | _, .applied arguments scope => ∃ operator, request = .apply operator arguments scope
  | _, .operator _ _ rest => rest.Fits request
  | _, .argument _ done _ _ rest => (∀ argument ∈ done, argument.IsWeakHead) ∧ rest.Fits request
  | _, .binding _ _ _ _ _ rest => rest.Fits request
  | _, .toHead _ rest => rest.Fits request
  | _, .toName rest => rest.Fits request
  | _, .lambda rest => rest.Fits request
  | _, .step rest => rest.Fits request
  | _, .called => True

/-- The arguments are fit to be handed over. -/
def Rest.Accepts (request : Evaluation ν) (arguments : List (Expr ν)) (scope : Scope ν) :
    Rest ν .call → Prop
  | .step rest => (∀ argument ∈ arguments, argument.IsWeakHead) ∧ rest.Fits request
  | .called => (∃ operator, request = .apply operator arguments scope) ∧
      ∀ argument ∈ arguments, argument.failure? = none

def Control.Fits (request : Evaluation ν) : Control ν → Prop
  | .enter _ _ rest => rest.Fits request
  | .enterName _ _ rest | .position _ _ rest | .name _ rest => rest.Fits request
  | .count _ _ rest | .report _ _ rest | .reduce _ _ rest => rest.Fits request
  | .outcome result rest => result.Fits ∧ rest.Fits request
  | .head result rest => result.Fits ∧ rest.Fits request
  | .close _ _ rest | .bind _ _ _ _ rest => rest.Fits request
  | .closure frame rest => frame.kind = .closure ∧ rest.Fits request
  | .arguments _ done _ _ rest => (∀ argument ∈ done, argument.IsWeakHead) ∧ rest.Fits request
  | .hand _ handed scope rest => rest.Accepts request handed scope
  | .raise _ _ | .ended _ => True

theorem Control.Next.fits {request : Evaluation ν} {limits : Limits} {control next : Control ν}
    (h : control.Next limits next) (hfits : control.Fits request) : next.Fits request := by
  cases h with
  | raise | ended | forced | interpreted => trivial
  | stepped houtcome => exact ⟨houtcome, hfits⟩
  | further | binding | named | furtherName => exact hfits.2
  | applied callee harguments => exact ⟨hfits.2, harguments⟩
  | ignored | called => exact ⟨trivial, hfits.2⟩
  | operator => exact ⟨fun argument hm => absurd hm List.not_mem_nil, hfits.2⟩
  | @argument head callee done =>
    refine ⟨fun argument hm => ?_, hfits.2.2⟩
    rcases List.mem_append.1 hm with hdone | hnew
    · exact hfits.2.1 argument hdone
    · rw [List.mem_singleton.1 hnew]
      exact hfits.1.toExpr
  | closed hkind => exact ⟨hkind, hfits⟩
  | _ => exact hfits

namespace Engine

variable (engine : Engine ν σ)

theorem after_fits (request : Evaluation ν) (world : World ν σ) (moves : Nat) :
    (engine.after moves (request.start world)).control.Fits request := by
  have hstart : (request.start world).control.Fits request := by
    cases request with
    | apply operator arguments scope => exact ⟨operator, rfl⟩
    | _ => trivial
  exact engine.after_control Control.Next.fits hstart moves

/-- The arguments of every step of an application are handed over as values, native methods and
closures, and so are they deferred in the frame of a call. Only an `apply` hands its own arguments
over, and only if there is no failure among them. The moment lies on the way of `Engine.evaluate`:
more moves lead from it to the outcome, the steps and the world that this gives. -/
theorem arguments_handed_over (request : Evaluation ν) (world : World ν σ) (moves : Nat)
    {callee : Callee ν} {arguments : List (Expr ν)} {scope : Scope ν} {rest : Rest ν .call}
    {machine : Machine ν σ} (h : engine.after moves (request.start world) =
      ⟨.hand callee arguments scope rest, machine⟩) :
    (∃ more, engine.after more ⟨.hand callee arguments scope rest, machine⟩ =
      (engine.evaluate request world).moment) ∧
    match rest with
    | .step _ => (∀ argument ∈ arguments, argument.IsWeakHead) ∧
        ∀ closure, callee = .closure closure →
          (machine.world.newCall closure arguments scope).1.Defers Expr.IsWeakHead
    | .called => (∃ operator, request = .apply operator arguments scope) ∧
        ∀ argument ∈ arguments, argument.failure? = none := by
  have hfits := engine.after_fits request world moves
  obtain ⟨total, hover⟩ := evaluate_over engine request world
  have hend := hover (moves + total) (Nat.le_add_left _ _)
  rw [after_add, h] at hend
  rw [h] at hfits
  refine ⟨⟨total, hend⟩, ?_⟩
  cases rest with
  | step rest => exact ⟨hfits.1, fun closure _ => World.newCall_defers closure scope hfits.1 _⟩
  | called => exact hfits

/-- A closure is handed the sum that its argument comes to, and its frame defers that sum. -/
theorem arguments_handed_over_sum :
    let identity : Expr StandardNative := .lambda [.bare (.identifier "$0")]
    let request := .resolve (.application identity [.identifier "sum"]) sumAndFailure.1
    ∃ closure argument rest machine,
      (standardHost.engine 1 ⟨20, 4⟩).after 51 (Evaluation.start request sumAndFailure.2) =
        ⟨.hand (.closure closure) [argument] sumAndFailure.1 (.step rest), machine⟩ ∧
      (∃ more, (standardHost.engine 1 ⟨20, 4⟩).after more
        ⟨.hand (.closure closure) [argument] sumAndFailure.1 (.step rest), machine⟩ =
          ((standardHost.engine 1 ⟨20, 4⟩).evaluate request sumAndFailure.2).moment) ∧
      argument.IsWeakHead ∧
      (machine.world.newCall closure [argument] sumAndFailure.1).1.Defers Expr.IsWeakHead := by
  intro identity request
  have hhand : ∃ closure argument rest machine,
      (standardHost.engine 1 ⟨20, 4⟩).after 51 (Evaluation.start request sumAndFailure.2) =
        ⟨.hand (.closure closure) [argument] sumAndFailure.1 (.step rest), machine⟩ :=
    ⟨_, _, _, _, rfl⟩
  obtain ⟨closure, argument, rest, machine, hmoment⟩ := hhand
  obtain ⟨hend, harguments, hframe⟩ :=
    arguments_handed_over _ request sumAndFailure.2 51 hmoment
  exact ⟨closure, argument, rest, machine, hmoment, hend,
    harguments argument (List.mem_singleton.2 rfl), hframe closure rfl⟩

end Engine
end CallByNeed
