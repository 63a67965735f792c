import CallByNeed.Proofs.Records.Reducer

/-! # Orderly worlds

Each kind of frame has a shape of its own. A world is orderly if it is consistent, if all its frames
are in shape and if it stores the frames that the state of the host holds. Frames that are made of
stored ones keep a world orderly, and so do records.
-/

namespace CallByNeed
set_option autoImplicit false

variable {ν σ : Type}

/-- The shape of a frame, by its kind. -/
structure Scope.Shaped (scope : Scope ν) : Prop where
  root : scope.kind = .root → scope.parent? = none ∧ scope.body = .failure .rootScopeMisuse
  closure : scope.kind = .closure → ∃ parent, scope.parent? = some parent
  thunk : scope.kind = .thunk →
    scope.bindings = .empty ∧ ∃ parent, scope.parent? = some parent
  arguments : ∀ {arguments}, scope.arguments? = some arguments →
    ∀ argument ∈ arguments, ∃ thunk, argument = .scope thunk ∧ thunk.kind = .thunk

/-- A frame has an argument list exactly if it is a call frame. -/
theorem Scope.isSome_arguments?_iff (scope : Scope ν) :
    scope.arguments?.isSome ↔ scope.kind = .call := by
  obtain ⟨⟨number, role, bindings, body⟩, outer⟩ := scope
  cases role <;> simp [Scope.arguments?, Scope.kind, Role.arguments?, Role.kind]

namespace World

/-! ## New frames in shape -/

theorem shaped_root (number : Nat) (bindings : Table (Expr ν)) :
    (Scope.root number bindings).Shaped :=
  ⟨fun _ => ⟨rfl, rfl⟩, nofun, nofun, nofun⟩

theorem shaped_closure (number : Nat) (bindings : Table (Expr ν)) (body : Expr ν)
    (parent : Scope ν) : (Scope.closure number bindings body parent).Shaped :=
  ⟨nofun, fun _ => ⟨parent, Scope.parent?_closure number bindings body parent⟩, nofun, nofun⟩

theorem shaped_thunk (number : Nat) (deferred : Expr ν) (calling : Scope ν) :
    (Scope.thunk number deferred calling).Shaped :=
  ⟨nofun, nofun, fun _ => ⟨rfl, calling, Scope.parent?_thunk number deferred calling⟩, nofun⟩

/-- New thunks are scopes of thunk frames. -/
theorem newThunks_thunks (calling : Scope ν) (exprs : List (Expr ν)) (world : World ν σ) :
    ∀ argument ∈ (world.newThunks calling exprs).1,
      ∃ thunk, argument = .scope thunk ∧ thunk.kind = .thunk := by
  induction exprs generalizing world with
  | nil => exact fun argument hm => absurd hm List.not_mem_nil
  | cons expr rest ih =>
    intro argument hm
    rcases List.mem_cons.1 hm with rfl | hrest
    · exact ⟨.thunk world.size expr calling, rfl, rfl⟩
    · exact ih (world.newThunk expr calling).2 argument hrest

/-- All frames of the world are in shape. -/
def AllShaped (world : World ν σ) : Prop :=
  ∀ scope, world.Stores scope → scope.Shaped

theorem AllShaped.of_scopes {before after : World ν σ} (h : before.AllShaped)
    (hscopes : ∀ number, after.scopeAt number = before.scopeAt number) : after.AllShaped :=
  fun scope hs => h scope ((hscopes _).symm.trans hs)

theorem AllShaped.newScope {world : World ν σ} (h : world.AllShaped) {make : Nat → Scope ν}
    (hmake : (make world.size).Shaped) : (world.newScope make).2.AllShaped := by
  intro scope hscope
  rw [Stores, scopeAt_newScope] at hscope
  by_cases hnew : scope.number = world.size
  · rw [if_pos hnew] at hscope
    cases hscope
    exact hmake
  · rw [if_neg hnew] at hscope
    exact h scope hscope

theorem AllShaped.newThunks {world : World ν σ} (h : world.AllShaped) (calling : Scope ν)
    (exprs : List (Expr ν)) : (world.newThunks calling exprs).2.AllShaped := by
  induction exprs generalizing world with
  | nil => exact h
  | cons expr rest ih =>
    have hthunk : (world.newThunk expr calling).2.AllShaped := by
      show (world.newScope fun number => .thunk number expr calling).2.AllShaped
      exact h.newScope (shaped_thunk _ _ _)
    exact ih hthunk

theorem AllShaped.newCall {world : World ν σ} (h : world.AllShaped) (closure : Scope ν)
    (arguments : List (Expr ν)) (calling : Scope ν) :
    (world.newCall closure arguments calling).2.AllShaped := by
  refine (h.newThunks calling arguments).newScope ⟨nofun, nofun, nofun, ?_⟩
  intro thunks hthunks
  cases hthunks
  exact newThunks_thunks calling arguments world

theorem Makes.allShaped {before after : World ν σ} (h : Makes before after)
    (hshaped : before.AllShaped) : after.AllShaped := by
  cases h with
  | outside hcells => exact hshaped.of_scopes (scopeAt_of_cells hcells)
  | root bindings _ => exact hshaped.newScope (shaped_root _ bindings)
  | thunk deferred calling _ _ => exact hshaped.newScope (shaped_thunk _ deferred calling)
  | call closure arguments calling _ _ _ => exact hshaped.newCall closure arguments calling

/-! ## Orderly worlds -/

/-- Frames are stored in order and in shape, those that the host holds among them. -/
structure Orderly (held : σ → List (Scope ν)) (world : World ν σ) : Prop where
  consistent : world.Consistent
  shaped : world.AllShaped
  held : world.StoresAll (held world.host)

section Changes

variable {held : σ → List (Scope ν)} {world after : World ν σ}

theorem orderly_initial {host : σ} (hheld : held host = []) :
    (initial host : World ν σ).Orderly held :=
  ⟨consistent_initial host, nofun, fun _ hm => absurd (hheld ▸ hm) List.not_mem_nil⟩

theorem Makes.orderly (h : Makes world after) (horderly : world.Orderly held)
    (hheld : after.StoresAll (held after.host)) : after.Orderly held :=
  ⟨h.consistent horderly.consistent, h.allShaped horderly.shaped, hheld⟩

/-- What leaves frames and the host alone keeps a world orderly. -/
theorem Orderly.of_scopes (h : world.Orderly held)
    (hscopes : ∀ number, after.scopeAt number = world.scopeAt number)
    (hgrows : world.Grows after) (hhost : after.host = world.host) : after.Orderly held where
  consistent := h.consistent.of_scopes hscopes hgrows
  shaped := h.shaped.of_scopes hscopes
  held := by
    rw [hhost]
    exact h.held.grows hgrows

theorem Orderly.of_cells (h : world.Orderly held) (hcells : after.cells = world.cells)
    (hhost : after.host = world.host) : after.Orderly held :=
  h.of_scopes (scopeAt_of_cells hcells) (.of_cells hcells) hhost

theorem Orderly.memoizeAll (h : world.Orderly held) (result : Terminal ν)
    (owners : List (Scope ν × String)) : (world.memoizeAll result owners).Orderly held := by
  induction owners generalizing world with
  | nil => exact h
  | cons owner owners ih =>
    refine ih (h.of_scopes ?_ (grows_memoize world owner.1 owner.2 result) rfl)
    exact scopeAt_memoize world owner.1 owner.2 result

theorem Orderly.newClosure (h : world.Orderly held) {bindings : Table (Expr ν)} {body : Expr ν}
    {parent : Scope ν} (hbindings : world.StoresAll bindings.scopes)
    (hbody : world.StoresAll body.scopes) (hparent : world.Stores parent) :
    (world.newClosure bindings body parent).2.Orderly held :=
  ⟨h.consistent.newClosure hbindings hbody hparent,
    h.shaped.newScope (shaped_closure _ bindings body parent),
    h.held.grows (grows_newScope world _)⟩

theorem host_newThunks (calling : Scope ν) (exprs : List (Expr ν)) (world : World ν σ) :
    (world.newThunks calling exprs).2.host = world.host := by
  induction exprs generalizing world with
  | nil => rfl
  | cons expr rest ih => exact ih (world.newThunk expr calling).2

theorem Orderly.newCall (h : world.Orderly held) {closure calling : Scope ν}
    {arguments : List (Expr ν)} (hclosure : world.Stores closure)
    (harguments : world.StoresAll (scopesAll arguments)) (hcalling : world.Stores calling) :
    (world.newCall closure arguments calling).2.Orderly held := by
  refine (Makes.call closure arguments calling hclosure harguments hcalling).orderly h ?_
  show StoresAll _ (held (world.newThunks calling arguments).2.host)
  rw [host_newThunks]
  exact h.held.grows (grows_newCall closure arguments calling world)

end Changes

end World
end CallByNeed
