import CallByNeed.Expr.Display
import CallByNeed.Reduction.World

/-! # Frames under other numbers

Two evaluations of one expression make their frames at different places and build values of
different identity. `renumber` gives all frames of an expression other numbers, however deep they
lie, and takes the identity of values that an evaluation built; results are compared up to it.
`replaceScopes` looks at the outermost scopes only, those that `scopes` lists, and is what code that
treats frames as opaque commutes with. Renumbering replaces each scope by the renumbered one
(`renumber_eq`).
-/

namespace CallByNeed
set_option autoImplicit false

variable {ν : Type}

/-! ## Definitions -/

/-- The identity, unless it was given in the course of an evaluation. -/
def Identity.forget : Identity → Identity
  | .supplied number => .supplied number
  | .built _ => .built 0

/-- The value without the identity that an evaluation gave it. -/
def Value.forget (value : Value ν) : Value ν :=
  ⟨value.identity.forget, value.payload⟩

def Terminal.forget : Terminal ν → Terminal ν
  | .value it => .value it.forget
  | .native method => .native method

def Table.map {α β : Type} (change : α → β) (table : Table α) : Table β :=
  ⟨table.entries.map fun entry => (entry.1, change entry.2)⟩

mutual

/-- The expression with other numbers for its frames. -/
def Expr.renumber (number : Nat → Nat) : Expr ν → Expr ν
  | .value it => .value it.forget
  | .native method => .native method
  | .application operator arguments =>
      .application (operator.renumber number) (renumberAll number arguments)
  | .lambda items => .lambda (renumberItems number items)
  | .identifier name => .identifier name
  | .failure failure => .failure failure
  | .scope inner => .scope (inner.renumber number)

def renumberAll (number : Nat → Nat) : List (Expr ν) → List (Expr ν)
  | [] => []
  | expr :: rest => expr.renumber number :: renumberAll number rest

def Item.renumber (number : Nat → Nat) : Item ν → Item ν
  | .binding name value => .binding (name.renumber number) (value.renumber number)
  | .bare body => .bare (body.renumber number)

def renumberItems (number : Nat → Nat) : List (Item ν) → List (Item ν)
  | [] => []
  | item :: rest => item.renumber number :: renumberItems number rest

def Role.renumber (number : Nat → Nat) : Role ν → Role ν
  | .root => .root
  | .closure => .closure
  | .call arguments => .call (renumberAll number arguments)
  | .thunk => .thunk

def renumberEntries (number : Nat → Nat) : List (String × Expr ν) → List (String × Expr ν)
  | [] => []
  | (name, bound) :: rest => (name, bound.renumber number) :: renumberEntries number rest

/-- The frame under another number, as all frames in it. -/
def Frame.renumber (number : Nat → Nat) : Frame ν → Frame ν
  | ⟨old, role, ⟨entries⟩, body⟩ =>
      ⟨number old, role.renumber number, ⟨renumberEntries number entries⟩,
        body.renumber number⟩

def renumberFrames (number : Nat → Nat) : List (Frame ν) → List (Frame ν)
  | [] => []
  | frame :: rest => frame.renumber number :: renumberFrames number rest

/-- The scope with other numbers for its frames. -/
def Scope.renumber (number : Nat → Nat) : Scope ν → Scope ν
  | ⟨frame, outer⟩ => ⟨frame.renumber number, renumberFrames number outer⟩

end

mutual

/-- The expression with its outermost scopes replaced. -/
def Expr.replaceScopes (replace : Scope ν → Scope ν) : Expr ν → Expr ν
  | .value it => .value it.forget
  | .native method => .native method
  | .application operator arguments =>
      .application (operator.replaceScopes replace) (replaceScopesAll replace arguments)
  | .lambda items => .lambda (replaceScopesItems replace items)
  | .identifier name => .identifier name
  | .failure failure => .failure failure
  | .scope inner => .scope (replace inner)

def replaceScopesAll (replace : Scope ν → Scope ν) : List (Expr ν) → List (Expr ν)
  | [] => []
  | expr :: rest => expr.replaceScopes replace :: replaceScopesAll replace rest

def Item.replaceScopes (replace : Scope ν → Scope ν) : Item ν → Item ν
  | .binding name value => .binding (name.replaceScopes replace) (value.replaceScopes replace)
  | .bare body => .bare (body.replaceScopes replace)

def replaceScopesItems (replace : Scope ν → Scope ν) : List (Item ν) → List (Item ν)
  | [] => []
  | item :: rest => item.replaceScopes replace :: replaceScopesItems replace rest

end

mutual

/-- The outermost scopes of an expression. -/
def Expr.scopes : Expr ν → List (Scope ν)
  | .value _ | .native _ | .identifier _ | .failure _ => []
  | .application operator arguments => operator.scopes ++ scopesAll arguments
  | .lambda items => scopesItems items
  | .scope inner => [inner]

def scopesAll : List (Expr ν) → List (Scope ν)
  | [] => []
  | expr :: rest => expr.scopes ++ scopesAll rest

def Item.scopes : Item ν → List (Scope ν)
  | .binding name value => name.scopes ++ value.scopes
  | .bare body => body.scopes

def scopesItems : List (Item ν) → List (Scope ν)
  | [] => []
  | item :: rest => item.scopes ++ scopesItems rest

end

/-- The expression without the identities that evaluations gave to values. -/
def Expr.forget (expr : Expr ν) : Expr ν :=
  expr.replaceScopes id

/-! ## Lists -/

theorem renumberAll_eq_map (number : Nat → Nat) (exprs : List (Expr ν)) :
    renumberAll number exprs = exprs.map (Expr.renumber number) := by
  induction exprs with
  | nil => rfl
  | cons expr rest ih => rw [renumberAll, ih, List.map_cons]

theorem renumberItems_eq_map (number : Nat → Nat) (items : List (Item ν)) :
    renumberItems number items = items.map (Item.renumber number) := by
  induction items with
  | nil => rfl
  | cons item rest ih => rw [renumberItems, ih, List.map_cons]

theorem renumberFrames_eq_map (number : Nat → Nat) (frames : List (Frame ν)) :
    renumberFrames number frames = frames.map (Frame.renumber number) := by
  induction frames with
  | nil => rfl
  | cons frame rest ih => rw [renumberFrames, ih, List.map_cons]

theorem renumberEntries_eq_map (number : Nat → Nat) (entries : List (String × Expr ν)) :
    renumberEntries number entries =
      entries.map fun entry => (entry.1, entry.2.renumber number) := by
  induction entries with
  | nil => rfl
  | cons entry rest ih => rw [renumberEntries, ih, List.map_cons]

theorem mem_scopesAll {exprs : List (Expr ν)} {inner : Scope ν} :
    inner ∈ scopesAll exprs ↔ ∃ expr ∈ exprs, inner ∈ expr.scopes := by
  induction exprs with
  | nil => simp [scopesAll]
  | cons expr rest ih => simp [scopesAll, ih]

/-! ## Identities -/

@[simp] theorem Identity.forget_forget (identity : Identity) :
    identity.forget.forget = identity.forget := by
  cases identity <;> rfl

@[simp] theorem Value.forget_forget (value : Value ν) : value.forget.forget = value.forget := by
  simp [Value.forget]

@[simp] theorem Terminal.forget_forget (result : Terminal ν) :
    result.forget.forget = result.forget := by
  cases result <;> simp [Terminal.forget]

theorem Terminal.renumber_toExpr (number : Nat → Nat) (result : Terminal ν) :
    result.toExpr.renumber number = result.forget.toExpr := by
  cases result <;> rfl

theorem Terminal.forget_toExpr (result : Terminal ν) :
    result.toExpr.forget = result.forget.toExpr := by
  cases result <;> rfl

/-! ## Twice -/

mutual

theorem Expr.renumber_renumber (second first : Nat → Nat) : ∀ expr : Expr ν,
    (expr.renumber first).renumber second = expr.renumber (second ∘ first)
  | .value it => by simp [Expr.renumber]
  | .native method => rfl
  | .application operator arguments => by
      simp only [Expr.renumber]
      rw [operator.renumber_renumber second first, renumberAll_renumberAll second first arguments]
  | .lambda items => by
      simp only [Expr.renumber]
      rw [renumberItems_renumberItems second first items]
  | .identifier name => rfl
  | .failure failure => rfl
  | .scope inner => by
      simp only [Expr.renumber]
      rw [inner.renumber_renumber second first]

theorem renumberAll_renumberAll (second first : Nat → Nat) : ∀ exprs : List (Expr ν),
    renumberAll second (renumberAll first exprs) = renumberAll (second ∘ first) exprs
  | [] => rfl
  | expr :: rest => by
      simp only [renumberAll]
      rw [expr.renumber_renumber second first, renumberAll_renumberAll second first rest]

theorem Item.renumber_renumber (second first : Nat → Nat) : ∀ item : Item ν,
    (item.renumber first).renumber second = item.renumber (second ∘ first)
  | .binding name value => by
      simp only [Item.renumber]
      rw [name.renumber_renumber second first, value.renumber_renumber second first]
  | .bare body => by
      simp only [Item.renumber]
      rw [body.renumber_renumber second first]

theorem renumberItems_renumberItems (second first : Nat → Nat) : ∀ items : List (Item ν),
    renumberItems second (renumberItems first items) = renumberItems (second ∘ first) items
  | [] => rfl
  | item :: rest => by
      simp only [renumberItems]
      rw [item.renumber_renumber second first, renumberItems_renumberItems second first rest]

theorem Role.renumber_renumber (second first : Nat → Nat) : ∀ role : Role ν,
    (role.renumber first).renumber second = role.renumber (second ∘ first)
  | .root => rfl
  | .closure => rfl
  | .call arguments => by
      simp only [Role.renumber]
      rw [renumberAll_renumberAll second first arguments]
  | .thunk => rfl

theorem renumberEntries_renumberEntries (second first : Nat → Nat) :
    ∀ entries : List (String × Expr ν),
      renumberEntries second (renumberEntries first entries) =
        renumberEntries (second ∘ first) entries
  | [] => rfl
  | (name, bound) :: rest => by
      simp only [renumberEntries]
      rw [bound.renumber_renumber second first, renumberEntries_renumberEntries second first rest]

theorem Frame.renumber_renumber (second first : Nat → Nat) : ∀ frame : Frame ν,
    (frame.renumber first).renumber second = frame.renumber (second ∘ first)
  | ⟨number, role, ⟨entries⟩, body⟩ => by
      simp only [Frame.renumber, Function.comp]
      rw [role.renumber_renumber second first,
        renumberEntries_renumberEntries second first entries,
        body.renumber_renumber second first]

theorem renumberFrames_renumberFrames (second first : Nat → Nat) : ∀ frames : List (Frame ν),
    renumberFrames second (renumberFrames first frames) = renumberFrames (second ∘ first) frames
  | [] => rfl
  | frame :: rest => by
      simp only [renumberFrames]
      rw [frame.renumber_renumber second first, renumberFrames_renumberFrames second first rest]

theorem Scope.renumber_renumber (second first : Nat → Nat) : ∀ scope : Scope ν,
    (scope.renumber first).renumber second = scope.renumber (second ∘ first)
  | ⟨frame, outer⟩ => by
      simp only [Scope.renumber]
      rw [frame.renumber_renumber second first,
        renumberFrames_renumberFrames second first outer]

end

mutual

theorem Expr.replaceScopes_replaceScopes (second first : Scope ν → Scope ν) : ∀ expr : Expr ν,
    (expr.replaceScopes first).replaceScopes second = expr.replaceScopes (second ∘ first)
  | .value it => by simp [Expr.replaceScopes]
  | .native method => rfl
  | .application operator arguments => by
      simp only [Expr.replaceScopes]
      rw [operator.replaceScopes_replaceScopes second first,
        replaceScopesAll_replaceScopesAll second first arguments]
  | .lambda items => by
      simp only [Expr.replaceScopes]
      rw [replaceScopesItems_replaceScopesItems second first items]
  | .identifier name => rfl
  | .failure failure => rfl
  | .scope inner => rfl

theorem replaceScopesAll_replaceScopesAll (second first : Scope ν → Scope ν) :
    ∀ exprs : List (Expr ν),
      replaceScopesAll second (replaceScopesAll first exprs) =
        replaceScopesAll (second ∘ first) exprs
  | [] => rfl
  | expr :: rest => by
      simp only [replaceScopesAll]
      rw [expr.replaceScopes_replaceScopes second first,
        replaceScopesAll_replaceScopesAll second first rest]

theorem Item.replaceScopes_replaceScopes (second first : Scope ν → Scope ν) : ∀ item : Item ν,
    (item.replaceScopes first).replaceScopes second = item.replaceScopes (second ∘ first)
  | .binding name value => by
      simp only [Item.replaceScopes]
      rw [name.replaceScopes_replaceScopes second first,
        value.replaceScopes_replaceScopes second first]
  | .bare body => by
      simp only [Item.replaceScopes]
      rw [body.replaceScopes_replaceScopes second first]

theorem replaceScopesItems_replaceScopesItems (second first : Scope ν → Scope ν) :
    ∀ items : List (Item ν),
      replaceScopesItems second (replaceScopesItems first items) =
        replaceScopesItems (second ∘ first) items
  | [] => rfl
  | item :: rest => by
      simp only [replaceScopesItems]
      rw [item.replaceScopes_replaceScopes second first,
        replaceScopesItems_replaceScopesItems second first rest]

end

/-! ## Outermost scopes -/

mutual

/-- Renumbering replaces each scope by the renumbered one. -/
theorem Expr.renumber_eq (number : Nat → Nat) : ∀ expr : Expr ν,
    expr.renumber number = expr.replaceScopes (Scope.renumber number)
  | .value it => rfl
  | .native method => rfl
  | .application operator arguments => by
      rw [Expr.renumber, Expr.replaceScopes, operator.renumber_eq number,
        renumberAll_eq number arguments]
  | .lambda items => by
      rw [Expr.renumber, Expr.replaceScopes, renumberItems_eq number items]
  | .identifier name => rfl
  | .failure failure => rfl
  | .scope inner => rfl

theorem renumberAll_eq (number : Nat → Nat) : ∀ exprs : List (Expr ν),
    renumberAll number exprs = replaceScopesAll (Scope.renumber number) exprs
  | [] => rfl
  | expr :: rest => by
      rw [renumberAll, replaceScopesAll, expr.renumber_eq number, renumberAll_eq number rest]

theorem Item.renumber_eq (number : Nat → Nat) : ∀ item : Item ν,
    item.renumber number = item.replaceScopes (Scope.renumber number)
  | .binding name value => by
      rw [Item.renumber, Item.replaceScopes, name.renumber_eq number, value.renumber_eq number]
  | .bare body => by
      rw [Item.renumber, Item.replaceScopes, body.renumber_eq number]

theorem renumberItems_eq (number : Nat → Nat) : ∀ items : List (Item ν),
    renumberItems number items = replaceScopesItems (Scope.renumber number) items
  | [] => rfl
  | item :: rest => by
      rw [renumberItems, replaceScopesItems, item.renumber_eq number,
        renumberItems_eq number rest]

end

mutual

theorem Expr.scopes_replaceScopes (replace : Scope ν → Scope ν) : ∀ expr : Expr ν,
    (expr.replaceScopes replace).scopes = expr.scopes.map replace
  | .value it => rfl
  | .native method => rfl
  | .application operator arguments => by
      rw [Expr.replaceScopes, Expr.scopes, Expr.scopes, List.map_append,
        operator.scopes_replaceScopes replace, scopesAll_replaceScopesAll replace arguments]
  | .lambda items => by
      rw [Expr.replaceScopes, Expr.scopes, Expr.scopes,
        scopesItems_replaceScopesItems replace items]
  | .identifier name => rfl
  | .failure failure => rfl
  | .scope inner => rfl

theorem scopesAll_replaceScopesAll (replace : Scope ν → Scope ν) : ∀ exprs : List (Expr ν),
    scopesAll (replaceScopesAll replace exprs) = (scopesAll exprs).map replace
  | [] => rfl
  | expr :: rest => by
      rw [replaceScopesAll, scopesAll, scopesAll, List.map_append,
        expr.scopes_replaceScopes replace, scopesAll_replaceScopesAll replace rest]

theorem Item.scopes_replaceScopes (replace : Scope ν → Scope ν) : ∀ item : Item ν,
    (item.replaceScopes replace).scopes = item.scopes.map replace
  | .binding name value => by
      rw [Item.replaceScopes, Item.scopes, Item.scopes, List.map_append,
        name.scopes_replaceScopes replace, value.scopes_replaceScopes replace]
  | .bare body => by
      rw [Item.replaceScopes, Item.scopes, Item.scopes, body.scopes_replaceScopes replace]

theorem scopesItems_replaceScopesItems (replace : Scope ν → Scope ν) : ∀ items : List (Item ν),
    scopesItems (replaceScopesItems replace items) = (scopesItems items).map replace
  | [] => rfl
  | item :: rest => by
      rw [replaceScopesItems, scopesItems, scopesItems, List.map_append,
        item.scopes_replaceScopes replace, scopesItems_replaceScopesItems replace rest]

end

mutual

/-- Only the outermost scopes matter to what replaces them. -/
theorem Expr.replaceScopes_congr {first second : Scope ν → Scope ν} : ∀ expr : Expr ν,
    (∀ inner ∈ expr.scopes, first inner = second inner) →
      expr.replaceScopes first = expr.replaceScopes second
  | .value it, _ => rfl
  | .native method, _ => rfl
  | .application operator arguments, h => by
      rw [Expr.replaceScopes, Expr.replaceScopes,
        operator.replaceScopes_congr fun inner hm => h inner (List.mem_append_left _ hm),
        replaceScopesAll_congr arguments fun inner hm => h inner (List.mem_append_right _ hm)]
  | .lambda items, h => by
      rw [Expr.replaceScopes, Expr.replaceScopes, replaceScopesItems_congr items h]
  | .identifier name, _ => rfl
  | .failure failure, _ => rfl
  | .scope inner, h => by
      rw [Expr.replaceScopes, Expr.replaceScopes, h inner (List.mem_singleton.2 rfl)]

theorem replaceScopesAll_congr {first second : Scope ν → Scope ν} : ∀ exprs : List (Expr ν),
    (∀ inner ∈ scopesAll exprs, first inner = second inner) →
      replaceScopesAll first exprs = replaceScopesAll second exprs
  | [], _ => rfl
  | expr :: rest, h => by
      rw [replaceScopesAll, replaceScopesAll,
        expr.replaceScopes_congr fun inner hm => h inner (List.mem_append_left _ hm),
        replaceScopesAll_congr rest fun inner hm => h inner (List.mem_append_right _ hm)]

theorem Item.replaceScopes_congr {first second : Scope ν → Scope ν} : ∀ item : Item ν,
    (∀ inner ∈ item.scopes, first inner = second inner) →
      item.replaceScopes first = item.replaceScopes second
  | .binding name value, h => by
      rw [Item.replaceScopes, Item.replaceScopes,
        name.replaceScopes_congr fun inner hm => h inner (List.mem_append_left _ hm),
        value.replaceScopes_congr fun inner hm => h inner (List.mem_append_right _ hm)]
  | .bare body, h => by
      rw [Item.replaceScopes, Item.replaceScopes, body.replaceScopes_congr h]

theorem replaceScopesItems_congr {first second : Scope ν → Scope ν} : ∀ items : List (Item ν),
    (∀ inner ∈ scopesItems items, first inner = second inner) →
      replaceScopesItems first items = replaceScopesItems second items
  | [], _ => rfl
  | item :: rest, h => by
      rw [replaceScopesItems, replaceScopesItems,
        item.replaceScopes_congr fun inner hm => h inner (List.mem_append_left _ hm),
        replaceScopesItems_congr rest fun inner hm => h inner (List.mem_append_right _ hm)]

end

theorem Expr.renumber_congr {first second : Nat → Nat} (expr : Expr ν)
    (h : ∀ inner ∈ expr.scopes, inner.renumber first = inner.renumber second) :
    expr.renumber first = expr.renumber second := by
  rw [expr.renumber_eq, expr.renumber_eq, expr.replaceScopes_congr h]

/-- Expressions that differ in built identities only are renumbered to the same expression. -/
theorem Expr.renumber_of_forget {first second : Expr ν} (h : first.forget = second.forget)
    (number : Nat → Nat) : first.renumber number = second.renumber number := by
  have hreplaced := congrArg (Expr.replaceScopes (Scope.renumber number)) h
  unfold Expr.forget at hreplaced
  rw [Expr.replaceScopes_replaceScopes, Expr.replaceScopes_replaceScopes] at hreplaced
  rw [Expr.renumber_eq, Expr.renumber_eq]
  exact hreplaced

theorem Expr.scopes_forget (expr : Expr ν) : expr.forget.scopes = expr.scopes := by
  rw [Expr.forget, Expr.scopes_replaceScopes, List.map_id]

end CallByNeed
