import CallByNeed.Proofs.Appliers.Silent
import CallByNeed.Proofs.Names.LastWins
import CallByNeed.Proofs.Runs.Rounds

/-! # The shapes of lambdas

A list of items either has bindings only, or it is split by its first bare expression
(`Lambda.bindings_or_split`). That gives four classes: lambdas with parts, and one for each defect
(`Lambda.HasDefect`). `parts` finds the class of every list (`Lambda.parts_error_iff`), and what a
builder makes has the parts that were put in (`Lambda.parts_builder`).

A lambda with a defect stops its closing at once, before any name is looked at
(`Engine.shapes_exactly`).
-/

namespace CallByNeed
set_option autoImplicit false

variable {ν σ : Type}

namespace Lambda

/-! ## Items -/

/-- The item of a binding. -/
def bindingItem (binding : Binding ν) : Item ν :=
  .binding binding.1 binding.2

theorem countP_bindings (bindings : List (Binding ν)) :
    (bindings.map bindingItem).countP isBare = 0 := by
  rw [List.countP_map, List.countP_eq_zero]
  intro binding _ hbare
  cases hbare

/-- The first bare expression splits a list of items, if there is one. -/
theorem bindings_or_split (items : List (Item ν)) :
    (∃ bindings : List (Binding ν), items = bindings.map bindingItem) ∨
      ∃ (bindings : List (Binding ν)) (body : Expr ν) (rest : List (Item ν)),
        items = bindings.map bindingItem ++ .bare body :: rest := by
  induction items with
  | nil => exact .inl ⟨[], rfl⟩
  | cons item items ih =>
    cases item with
    | bare body => exact .inr ⟨[], body, items, rfl⟩
    | binding name value =>
      rcases ih with ⟨bindings, rfl⟩ | ⟨bindings, body, rest, rfl⟩
      · exact .inl ⟨(name, value) :: bindings, rfl⟩
      · exact .inr ⟨(name, value) :: bindings, body, rest, rfl⟩

/-! ## Defects -/

/-- A list of items has this defect. -/
def HasDefect (items : List (Item ν)) : LambdaShape → Prop
  | .manyReturns count => 2 ≤ count ∧ items.countP isBare = count
  | .noReturn => items.countP isBare = 0
  | .bindingAfterReturn =>
      items.countP isBare = 1 ∧ ∀ body, items.getLast? ≠ some (.bare body)

theorem split_bindings (bindings : List (Binding ν)) :
    split (bindings.map bindingItem) = .error .noReturn := by
  induction bindings with
  | nil => rfl
  | cons binding rest ih =>
    rw [List.map_cons, bindingItem, split, ih]

/-- The scan stops at the first bare expression if more items follow. -/
theorem split_early (bindings : List (Binding ν)) (body : Expr ν) (next : Item ν)
    (rest : List (Item ν)) :
    split (bindings.map bindingItem ++ .bare body :: next :: rest) =
      .error .bindingAfterReturn := by
  induction bindings with
  | nil => rfl
  | cons binding others ih =>
    rw [List.map_cons, List.cons_append, bindingItem, split, ih]

/-- A list without bare expressions does not end in one. -/
theorem getLast_ne_bare {items : List (Item ν)} (h : items.countP isBare = 0) (body : Expr ν) :
    items.getLast? ≠ some (.bare body) := fun hlast =>
  List.countP_eq_zero.1 h _ (List.mem_of_getLast? hlast) rfl

theorem countP_split (bindings : List (Binding ν)) (body : Expr ν) (rest : List (Item ν)) :
    (bindings.map bindingItem ++ .bare body :: rest).countP isBare = rest.countP isBare + 1 := by
  rw [List.countP_append, countP_bindings, Nat.zero_add, List.countP_cons_of_pos rfl]

/-- Every list of items is that of a lambda or has a defect, which is reported. -/
theorem items_or_defect (items : List (Item ν)) :
    (∃ bindings body, items = Lambda.items bindings body) ∨
      ∃ shape, HasDefect items shape ∧ parts items = .error shape := by
  rcases bindings_or_split items with ⟨bindings, rfl⟩ | ⟨bindings, body, rest, rfl⟩
  · have hcount := countP_bindings bindings
    refine .inr ⟨.noReturn, hcount, ?_⟩
    rw [parts, hcount, if_neg (by decide), split_bindings]
  · have hcount := countP_split bindings body rest
    rcases Nat.eq_zero_or_pos (rest.countP isBare) with hnone | hmany
    · cases rest with
      | nil => exact .inl ⟨bindings, body, rfl⟩
      | cons next rest =>
        rw [hnone] at hcount
        refine .inr ⟨.bindingAfterReturn, ⟨hcount, fun other => ?_⟩, ?_⟩
        · -- What follows the bare expression holds none, so the list ends in a binding.
          rw [List.getLast?_append_cons, List.getLast?_cons_cons]
          exact getLast_ne_bare hnone other
        · rw [parts, hcount, if_neg (by decide), split_early]
    · refine .inr ⟨.manyReturns _, ⟨?_, hcount⟩, ?_⟩
      · exact Nat.succ_le_succ hmany
      · rw [parts, hcount, if_pos (Nat.succ_lt_succ hmany)]

/-- The lambda of bindings and a bare expression after them has no defect. -/
theorem items_hasDefect {bindings : List (Binding ν)} {body : Expr ν} {shape : LambdaShape} :
    ¬HasDefect (Lambda.items bindings body) shape := by
  have hcount : (Lambda.items bindings body).countP isBare = 1 := countP_split bindings body []
  cases shape with
  | noReturn => exact fun h => absurd (hcount.symm.trans h) (by decide)
  | manyReturns count =>
    rintro ⟨hmany, h⟩
    omega
  | bindingAfterReturn =>
    rintro ⟨-, h⟩
    exact h body (List.getLast?_concat)

/-- A list of items has one defect at most. -/
theorem HasDefect.unique {items : List (Item ν)} {shape shape' : LambdaShape}
    (h : HasDefect items shape) (h' : HasDefect items shape') : shape = shape' := by
  cases shape <;> cases shape' <;> simp only [HasDefect] at h h' <;> grind

/-- The defect that is reported is the one that there is. -/
theorem parts_error_iff {items : List (Item ν)} {shape : LambdaShape} :
    parts items = .error shape ↔ HasDefect items shape := by
  rcases items_or_defect items with ⟨bindings, body, rfl⟩ | ⟨defect, hdefect, hparts⟩
  · rw [parts_ok_iff.2 rfl]
    exact ⟨nofun, fun h => absurd h items_hasDefect⟩
  · rw [hparts]
    refine ⟨fun h => ?_, fun h => by rw [hdefect.unique h]⟩
    cases h
    exact hdefect

/-! ## Builders -/

theorem items_bindAll (builder : Builder ν) (bindings : List (Binding ν)) :
    (builder.bindAll bindings).items = builder.items ++ bindings.map bindingItem := by
  induction bindings generalizing builder with
  | nil => exact (List.append_nil _).symm
  | cons binding rest ih =>
    refine (ih _).trans ?_
    exact List.append_assoc _ _ _

/-- A lambda that was built has exactly the parts that were put in. -/
theorem parts_builder (bindings : List (Binding ν)) (body : Expr ν) :
    parts ((builder.bindAll bindings).returning body) = .ok (bindings, body) := by
  rw [parts_ok_iff, Builder.returning, items_bindAll]
  rfl

end Lambda

/-! ## Closing -/

section Malformed

variable {items : List (Item ν)} {shape : LambdaShape} (h : Lambda.parts items = .error shape)
include h

theorem Nested.close_malformed (nested : Nested ν σ) (scope : Scope ν) :
    nested.close items scope = Run.fail (.malformedLambda shape) := by
  rw [close, h]

namespace Engine

variable (engine : Engine ν σ) (scope : Scope ν) (world : World ν σ)

theorem evaluate_close_malformed :
    engine.evaluate (.close items scope) world =
      ⟨.error (.failed (.malformedLambda shape)), 0, world⟩ := by
  rw [evaluate_close_eq, Nested.close_malformed h]
  rfl

theorem evaluate_resolve_malformed (hsteps : 1 ≤ engine.limits.maxSteps) :
    engine.evaluate (.resolve (.lambda items) scope) world =
      ⟨.error (.failed (.malformedLambda shape)), 1, world.emit (.resolving (.lambda items))⟩ := by
  have hbudget : (⟨0, world⟩ : Machine ν σ).steps < engine.limits.maxSteps := hsteps
  have hstep : engine.stepBody (engine.nested engine.limits.maxDepth) (.lambda items) scope
      ⟨1, world⟩ = (.error (.failed (.malformedLambda shape)),
        ⟨1, world.emit (.resolving (.lambda items))⟩) := by
    show (((engine.nested engine.limits.maxDepth).close items scope >>= _) : Run ν σ _) _ = _
    rw [Nested.close_malformed h]
    rfl
  have hrun : engine.resolveTop (.lambda items) scope ⟨0, world⟩ = _ :=
    resolve_allowed hbudget engine.limits.maxDepth (.lambda items) scope
  rw [Run.bind_apply, hstep] at hrun
  exact evaluate_resolve hrun

end Engine
end Malformed

/-- The lists of items fall into four classes: those with parts, which are those that a builder
makes, and those of each defect. With a defect, neither closing nor resolving does anything but
fail with it; resolving takes the one step that reports the lambda. -/
theorem Engine.shapes_exactly (engine : Engine ν σ) (items : List (Item ν)) :
    (∀ bindings body, Lambda.parts items = .ok (bindings, body) ↔
      items = bindings.map (fun binding => .binding binding.1 binding.2) ++ [.bare body]) ∧
    (∀ count, Lambda.parts items = .error (.manyReturns count) ↔
      2 ≤ count ∧ items.countP Lambda.isBare = count) ∧
    (Lambda.parts items = .error .noReturn ↔ items.countP Lambda.isBare = 0) ∧
    (Lambda.parts items = .error .bindingAfterReturn ↔
      items.countP Lambda.isBare = 1 ∧ ∀ body, items.getLast? ≠ some (.bare body)) ∧
    (∀ (bindings : List (Lambda.Binding ν)) body,
      Lambda.parts ((Lambda.builder.bindAll bindings).returning body) = .ok (bindings, body)) ∧
    ∀ shape, Lambda.parts items = .error shape → ∀ scope world,
      engine.evaluate (.close items scope) world =
        ⟨.error (.failed (.malformedLambda shape)), 0, world⟩ ∧
      (1 ≤ engine.limits.maxSteps →
        engine.evaluate (.resolve (.lambda items) scope) world =
          ⟨.error (.failed (.malformedLambda shape)), 1,
            world.emit (.resolving (.lambda items))⟩ ∧
        world.Matches (world.emit (.resolving (.lambda items)))) := by
  refine ⟨fun bindings body => Lambda.parts_ok_iff, fun count => Lambda.parts_error_iff,
    Lambda.parts_error_iff, Lambda.parts_error_iff, Lambda.parts_builder,
    fun shape h scope world => ⟨engine.evaluate_close_malformed h scope world, fun hsteps => ?_⟩⟩
  exact ⟨engine.evaluate_resolve_malformed h scope world hsteps, world.matches_emit rfl⟩

/-- A binding after the only bare expression is rejected, although its name could not be found
either. -/
theorem Engine.shapes_exactly_bindingLast :
    let engine : Engine Unit Unit := ⟨⟨1, 0⟩, fun _ _ _ world => (.failure (.native "none"), world)⟩
    let items : List (Item Unit) :=
      [.bare (.identifier "a"), .binding (.application (.identifier "b") []) (.identifier "c")]
    let world : World Unit Unit := .initial ()
    items.countP Lambda.isBare = 1 ∧
      Lambda.parts items = .error .bindingAfterReturn ∧
      engine.evaluate (.close items (.root 0 .empty)) world =
        ⟨.error (.failed (.malformedLambda .bindingAfterReturn)), 0, world⟩ ∧
      (engine.evaluate (.resolve (.lambda items) (.root 0 .empty)) world).outcome =
        .error (.failed (.malformedLambda .bindingAfterReturn)) := by
  intro engine items world
  obtain ⟨-, -, -, hlate, -, hstops⟩ := engine.shapes_exactly items
  have hparts := hlate.2 ⟨by decide, fun body hlast => by cases hlast⟩
  obtain ⟨hclose, hresolve⟩ := hstops _ hparts (.root 0 .empty) world
  exact ⟨by decide, hparts, hclose, by rw [(hresolve (by decide)).1]⟩

end CallByNeed
