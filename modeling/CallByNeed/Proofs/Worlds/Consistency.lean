import CallByNeed.Proofs.Renumbering.Lookup
import CallByNeed.Proofs.Worlds.Growth

/-! # Consistent worlds

A world stores each frame, with the frames that enclose it, at the frame's number. In a consistent
world all frames that a stored frame mentions are stored, at smaller numbers. Lookup in a stored
scope then leads to stored scopes (`Stores.find`), and what a stored scope is under other numbers
depends only on the numbers that the world has given so far (`Consistent.renumber_congr`).
-/

namespace CallByNeed
set_option autoImplicit false

variable {ν σ : Type}

def Scope.contents (scope : Scope ν) : List (Expr ν) :=
  scope.body :: (scope.bindings.entries.map Prod.snd ++ scope.arguments?.getD [])

theorem Scope.parent?_closure (number : Nat) (bindings : Table (Expr ν)) (body : Expr ν)
    (parent : Scope ν) : (Scope.closure number bindings body parent).parent? = some parent := by
  obtain ⟨frame, outer⟩ := parent
  rfl

theorem Scope.parent?_thunk (number : Nat) (deferred : Expr ν) (calling : Scope ν) :
    (Scope.thunk number deferred calling).parent? = some calling := by
  obtain ⟨frame, outer⟩ := calling
  rfl

/-! ## Owners -/

namespace Scope

section Owners

variable {holds : Scope ν → Prop} {bound : Expr ν} {owner : Scope ν}
  (hup : ∀ {scope outer : Scope ν}, holds scope → scope.parent? = some outer → holds outer)
include hup

/-- What holds of a scope and is passed on to parents holds of the owner of a binding. -/
theorem findBinding_owner {name : String} (outer : List (Frame ν)) (frame : Frame ν)
    (h : holds ⟨frame, outer⟩)
    (hfind : findBinding name (frame :: outer) = .ok (bound, owner)) :
    holds owner ∧ owner.bindings.find? name = some bound := by
  induction outer generalizing frame with
  | nil =>
    rw [findBinding] at hfind
    cases hbound : frame.bindings.find? name with
    | none =>
      rw [hbound] at hfind
      cases hfind
    | some value =>
      rw [hbound] at hfind
      cases hfind
      exact ⟨h, hbound⟩
  | cons next outer ih =>
    rw [findBinding] at hfind
    cases hbound : frame.bindings.find? name with
    | none =>
      rw [hbound] at hfind
      exact ih next (hup h rfl) hfind
    | some value =>
      rw [hbound] at hfind
      cases hfind
      exact ⟨h, hbound⟩

omit hup in
/-- The nearest frame with arguments owns the argument that is found. -/
theorem findArgument_here {index : Nat} {arguments : List (Expr ν)} {outer : List (Frame ν)}
    {frame : Frame ν} (h : holds ⟨frame, outer⟩)
    (harguments : frame.role.arguments? = some arguments)
    (hfind : findArgument index (frame :: outer) = .ok (bound, owner)) :
    holds owner ∧
      ∃ arguments, owner.arguments? = some arguments ∧ arguments[index]? = some bound := by
  simp only [findArgument, harguments] at hfind
  cases hargument : arguments[index]? with
  | none =>
    rw [hargument] at hfind
    cases hfind
  | some argument =>
    rw [hargument] at hfind
    cases hfind
    exact ⟨h, arguments, harguments, hargument⟩

/-- What holds of a scope and is passed on to parents holds of the owner of an argument. -/
theorem findArgument_owner {index : Nat} (outer : List (Frame ν)) (frame : Frame ν)
    (h : holds ⟨frame, outer⟩)
    (hfind : findArgument index (frame :: outer) = .ok (bound, owner)) :
    holds owner ∧
      ∃ arguments, owner.arguments? = some arguments ∧ arguments[index]? = some bound := by
  induction outer generalizing frame with
  | nil =>
    cases harguments : frame.role.arguments? with
    | none =>
      simp only [findArgument, harguments] at hfind
      cases hfind
    | some arguments => exact findArgument_here h harguments hfind
  | cons next outer ih =>
    cases harguments : frame.role.arguments? with
    | none =>
      rw [findArgument, harguments] at hfind
      exact ih next (hup h rfl) hfind
    | some arguments => exact findArgument_here h harguments hfind

/-- What holds of a scope and is passed on to parents holds of the owners of all that it finds.
Owners hold what is found in them, and find it themselves. -/
theorem find_owner {scope : Scope ν} {name : String} (h : holds scope)
    (hfind : scope.find name = .ok (bound, owner)) :
    holds owner ∧ bound ∈ owner.contents ∧ owner.find name = .ok (bound, owner) := by
  obtain ⟨frame, outer⟩ := scope
  unfold Scope.find at hfind ⊢
  cases hname : positional? name with
  | none =>
    simp only [hname] at hfind
    obtain ⟨howner, hbound⟩ := findBinding_owner hup outer frame h hfind
    refine ⟨howner, ?_, ?_⟩
    · have hentry : bound ∈ owner.bindings.entries.map Prod.snd :=
        List.mem_map.2 ⟨_, Table.mem_of_find? hbound, rfl⟩
      exact List.mem_cons_of_mem _ (List.mem_append_left _ hentry)
    · obtain ⟨frame, outer⟩ := owner
      simp only [Scope.frames, Scope.findBinding]
      rw [show frame.bindings.find? name = some bound from hbound]
  | some index =>
    simp only [hname] at hfind
    obtain ⟨howner, arguments, harguments, hbound⟩ := findArgument_owner hup outer frame h hfind
    refine ⟨howner, ?_, ?_⟩
    · have hargument : bound ∈ owner.arguments?.getD [] := by
        rw [harguments]
        exact List.mem_of_getElem? hbound
      exact List.mem_cons_of_mem _ (List.mem_append_right _ hargument)
    · obtain ⟨frame, outer⟩ := owner
      simp only [Scope.frames, Scope.findArgument]
      rw [show frame.role.arguments? = some arguments from harguments]
      simp only [hbound]

end Owners

end Scope

namespace World

/-- The scope is the one that the world keeps at its number. -/
def Stores (world : World ν σ) (scope : Scope ν) : Prop :=
  world.scopeAt scope.number = some scope

/-- The world keeps all of these scopes. -/
def StoresAll (world : World ν σ) (scopes : List (Scope ν)) : Prop :=
  ∀ inner ∈ scopes, world.Stores inner

/-- What a frame mentions is stored, and was there before it. -/
structure Supports (world : World ν σ) (scope : Scope ν) : Prop where
  parent : ∀ {outer}, scope.parent? = some outer →
    world.Stores outer ∧ outer.number < scope.number
  contents : ∀ inner ∈ scopesAll scope.contents,
    world.Stores inner ∧ inner.number < scope.number
  root : scope.kind = .root → scope.body = .failure .rootScopeMisuse
  thunk : scope.kind = .thunk → scope.bindings = .empty ∧ ∃ outer, scope.parent? = some outer

/-- Frames are stored at their numbers, and mention earlier frames only. -/
structure Consistent (world : World ν σ) : Prop where
  number : ∀ {number scope}, world.scopeAt number = some scope → scope.number = number
  supports : ∀ {scope}, world.Stores scope → world.Supports scope

theorem Stores.grows {before after : World ν σ} {scope : Scope ν} (h : before.Stores scope)
    (hgrows : before.Grows after) : after.Stores scope :=
  hgrows.scope h

theorem Stores.lt_size {world : World ν σ} {scope : Scope ν} (h : world.Stores scope) :
    scope.number < world.size :=
  lt_size_of_scopeAt h

namespace StoresAll

variable {world after : World ν σ} {first second : List (Scope ν)}

theorem nil : world.StoresAll [] :=
  fun _ hm => absurd hm (List.not_mem_nil)

theorem append (h : world.StoresAll first) (h' : world.StoresAll second) :
    world.StoresAll (first ++ second) := by
  intro inner hm
  rcases List.mem_append.1 hm with hfirst | hsecond
  · exact h inner hfirst
  · exact h' inner hsecond

theorem left (h : world.StoresAll (first ++ second)) : world.StoresAll first :=
  fun inner hm => h inner (List.mem_append_left _ hm)

theorem right (h : world.StoresAll (first ++ second)) : world.StoresAll second :=
  fun inner hm => h inner (List.mem_append_right _ hm)

theorem cons {scope : Scope ν} (h : world.Stores scope) (h' : world.StoresAll first) :
    world.StoresAll (scope :: first) := by
  intro inner hm
  rcases List.mem_cons.1 hm with rfl | hrest
  · exact h
  · exact h' inner hrest

theorem head {scope : Scope ν} (h : world.StoresAll (scope :: first)) : world.Stores scope :=
  h scope List.mem_cons_self

theorem tail {scope : Scope ν} (h : world.StoresAll (scope :: first)) : world.StoresAll first :=
  fun inner hm => h inner (List.mem_cons_of_mem _ hm)

theorem grows (h : world.StoresAll first) (hgrows : world.Grows after) :
    after.StoresAll first :=
  fun inner hm => (h inner hm).grows hgrows

theorem subset (h : world.StoresAll first) (hsubset : ∀ inner ∈ second, inner ∈ first) :
    world.StoresAll second :=
  fun inner hm => h inner (hsubset inner hm)

end StoresAll

theorem Supports.grows {before after : World ν σ} {scope : Scope ν} (h : before.Supports scope)
    (hgrows : before.Grows after) : after.Supports scope where
  parent hp := ⟨(h.parent hp).1.grows hgrows, (h.parent hp).2⟩
  contents inner hm := ⟨(h.contents inner hm).1.grows hgrows, (h.contents inner hm).2⟩
  root := h.root
  thunk := h.thunk

/-! ## Reading stored frames -/

section Reading

variable {world : World ν σ} (hconsistent : world.Consistent)
include hconsistent

theorem Stores.parent {scope outer : Scope ν} (h : world.Stores scope)
    (hparent : scope.parent? = some outer) : world.Stores outer :=
  ((hconsistent.supports h).parent hparent).1

theorem Stores.contents {scope : Scope ν} (h : world.Stores scope) {expr : Expr ν}
    (hexpr : expr ∈ scope.contents) : world.StoresAll expr.scopes := by
  intro inner hm
  exact ((hconsistent.supports h).contents inner (mem_scopesAll.2 ⟨expr, hexpr, hm⟩)).1

theorem Stores.body {scope : Scope ν} (h : world.Stores scope) :
    world.StoresAll scope.body.scopes :=
  h.contents hconsistent List.mem_cons_self

/-- A binding that is found belongs to a stored frame, which finds it, too. -/
theorem findBinding_stored {name : String} {bound : Expr ν} {owner : Scope ν}
    (outer : List (Frame ν)) (frame : Frame ν) (h : world.Stores ⟨frame, outer⟩)
    (hfind : Scope.findBinding name (frame :: outer) = .ok (bound, owner)) :
    world.Stores owner ∧ owner.bindings.find? name = some bound :=
  Scope.findBinding_owner (fun h hparent => h.parent hconsistent hparent) outer frame h hfind

/-- An argument that is found belongs to a stored frame with arguments. -/
theorem findArgument_stored {index : Nat} {bound : Expr ν} {owner : Scope ν}
    (outer : List (Frame ν)) (frame : Frame ν) (h : world.Stores ⟨frame, outer⟩)
    (hfind : Scope.findArgument index (frame :: outer) = .ok (bound, owner)) :
    world.Stores owner ∧
      ∃ arguments, owner.arguments? = some arguments ∧ arguments[index]? = some bound :=
  Scope.findArgument_owner (fun h hparent => h.parent hconsistent hparent) outer frame h hfind

/-- What a lookup in a stored scope finds belongs to a stored scope. -/
theorem Stores.find {scope owner : Scope ν} {name : String} {bound : Expr ν}
    (h : world.Stores scope) (hfind : scope.find name = .ok (bound, owner)) :
    world.Stores owner ∧ bound ∈ owner.contents ∧ owner.find name = .ok (bound, owner) :=
  Scope.find_owner (fun h hparent => h.parent hconsistent hparent) h hfind

/-! ## Numbers -/

omit hconsistent in
/-- The frames around a scope are those of its parent, if there is one. -/
theorem outer_eq_parent (scope : Scope ν) :
    scope.outer = (scope.parent?.map Scope.frames).getD [] := by
  obtain ⟨frame, _ | ⟨next, outer⟩⟩ := scope <;> rfl

omit hconsistent in
/-- Numberings that agree on the number of a frame and on what it contains renumber it alike. -/
theorem frame_renumber_congr {first second : Nat → Nat} {scope : Scope ν}
    (hnumber : first scope.number = second scope.number)
    (hcontents : ∀ expr ∈ scope.contents, expr.renumber first = expr.renumber second) :
    scope.frame.renumber first = scope.frame.renumber second := by
  have hbody := hcontents scope.body List.mem_cons_self
  have hbindings : scope.bindings.map (Expr.renumber first) =
      scope.bindings.map (Expr.renumber second) := by
    unfold Table.map
    congr 1
    refine List.map_congr_left fun entry hentry => ?_
    have hmem : entry.2 ∈ scope.bindings.entries.map Prod.snd := List.mem_map_of_mem hentry
    rw [hcontents entry.2 (List.mem_cons_of_mem _ (List.mem_append_left _ hmem))]
  have hrole : scope.frame.role.renumber first = scope.frame.role.renumber second := by
    cases hcall : scope.frame.role with
    | root => rfl
    | closure => rfl
    | thunk => rfl
    | call arguments =>
      have harguments : scope.arguments? = some arguments := by
        rw [Scope.arguments?, hcall]
        rfl
      rw [Role.renumber, Role.renumber, renumberAll_eq_map, renumberAll_eq_map]
      congr 1
      refine List.map_congr_left fun argument hargument => hcontents argument ?_
      refine List.mem_cons_of_mem _ (List.mem_append_right _ ?_)
      rw [harguments]
      exact hargument
  rw [Frame.renumber_eq, Frame.renumber_eq, hrole]
  show Frame.mk (first scope.number) _ (scope.bindings.map _) (scope.body.renumber _) = _
  rw [hnumber, hbindings, hbody]
  rfl

/-- Numberings that agree on the frames made so far renumber a stored scope alike. -/
theorem Consistent.renumber_congr {first second : Nat → Nat}
    (hagree : ∀ number, number < world.size → first number = second number) {scope : Scope ν}
    (h : world.Stores scope) : scope.renumber first = scope.renumber second := by
  -- The frames that a frame mentions were made before it.
  induction hn : scope.number using Nat.strongRecOn generalizing scope with
  | ind number ih =>
    have hsupports := hconsistent.supports h
    have hcontents : ∀ expr ∈ scope.contents, expr.renumber first = expr.renumber second := by
      intro expr hexpr
      refine expr.renumber_congr fun inner hm => ?_
      obtain ⟨hstored, hless⟩ :=
        hsupports.contents inner (mem_scopesAll.2 ⟨expr, hexpr, hm⟩)
      exact ih inner.number (hn ▸ hless) hstored rfl
    have houter : scope.outer.map (Frame.renumber first) =
        scope.outer.map (Frame.renumber second) := by
      rw [outer_eq_parent]
      cases hparent : scope.parent? with
      | none => rfl
      | some outer =>
        obtain ⟨hstored, hless⟩ := hsupports.parent hparent
        show outer.frames.map _ = outer.frames.map _
        rw [← Scope.renumber_frames, ← Scope.renumber_frames,
          ih outer.number (hn ▸ hless) hstored rfl]
    have hframe := frame_renumber_congr (hagree _ h.lt_size) hcontents
    obtain ⟨frame, outer⟩ := scope
    rw [Scope.renumber, Scope.renumber, renumberFrames_eq_map, renumberFrames_eq_map]
    rw [show frame.renumber first = frame.renumber second from hframe,
      show outer.map _ = outer.map _ from houter]

theorem Consistent.renumber_congr_expr {first second : Nat → Nat}
    (hagree : ∀ number, number < world.size → first number = second number) {expr : Expr ν}
    (h : world.StoresAll expr.scopes) : expr.renumber first = expr.renumber second :=
  expr.renumber_congr fun inner hm => hconsistent.renumber_congr hagree (h inner hm)

end Reading

/-! ## Changes -/

theorem consistent_initial (host : σ) : (initial host : World ν σ).Consistent where
  number h := by cases h
  supports h := by cases h

/-- A world with the same frames is as consistent. -/
theorem Consistent.of_scopes {before after : World ν σ} (h : before.Consistent)
    (hscopes : ∀ number, after.scopeAt number = before.scopeAt number)
    (hgrows : before.Grows after) : after.Consistent where
  number hn := h.number ((hscopes _).symm.trans hn)
  supports hs := (h.supports ((hscopes _).symm.trans hs)).grows hgrows

theorem Consistent.of_cells {before after : World ν σ} (h : before.Consistent)
    (hcells : after.cells = before.cells) : after.Consistent :=
  h.of_scopes (scopeAt_of_cells hcells) (.of_cells hcells)

theorem Consistent.memoize {world : World ν σ} (h : world.Consistent) (scope : Scope ν)
    (name : String) (result : Terminal ν) : (world.memoize scope name result).Consistent :=
  h.of_scopes (scopeAt_memoize world scope name result) (grows_memoize world scope name result)

theorem stores_newScope (world : World ν σ) (make : Nat → Scope ν)
    (hnumber : (make world.size).number = world.size) :
    (world.newScope make).2.Stores (make world.size) := by
  rw [Stores, scopeAt_newScope, hnumber, if_pos rfl]

theorem Consistent.newScope {world : World ν σ} (h : world.Consistent) {make : Nat → Scope ν}
    (hnumber : (make world.size).number = world.size)
    (hsupports : world.Supports (make world.size)) : (world.newScope make).2.Consistent := by
  have hgrows := grows_newScope world make
  constructor
  · intro number scope hscope
    rw [scopeAt_newScope] at hscope
    by_cases hnew : number = world.size
    · rw [if_pos hnew] at hscope
      cases hscope
      rw [hnumber, hnew]
    · rw [if_neg hnew] at hscope
      exact h.number hscope
  · intro scope hscope
    rw [Stores, scopeAt_newScope] at hscope
    by_cases hnew : scope.number = world.size
    · rw [if_pos hnew] at hscope
      cases hscope
      exact hsupports.grows hgrows
    · rw [if_neg hnew] at hscope
      exact (h.supports hscope).grows hgrows

section NewFrames

variable {world : World ν σ} (h : world.Consistent)
include h

omit h in
/-- Stored scopes support a new frame that mentions them. -/
theorem StoresAll.supports_new {scopes : List (Scope ν)} (hscopes : world.StoresAll scopes)
    {number : Nat} (hnumber : world.size ≤ number) :
    ∀ inner ∈ scopes, world.Stores inner ∧ inner.number < number :=
  fun inner hm => ⟨hscopes inner hm, Nat.lt_of_lt_of_le (hscopes inner hm).lt_size hnumber⟩

theorem Consistent.newRoot {bindings : Table (Expr ν)}
    (hbindings : world.StoresAll (scopesAll (bindings.entries.map Prod.snd))) :
    (world.newRoot bindings).2.Consistent := by
  refine h.newScope rfl ⟨nofun, ?_, fun _ => rfl, nofun⟩
  refine StoresAll.supports_new ?_ (Nat.le_refl _)
  show world.StoresAll ([] ++ scopesAll (bindings.entries.map Prod.snd ++ []))
  rw [List.append_nil, List.nil_append]
  exact hbindings

theorem Consistent.newClosure {bindings : Table (Expr ν)} {body : Expr ν} {parent : Scope ν}
    (hbindings : world.StoresAll (scopesAll (bindings.entries.map Prod.snd)))
    (hbody : world.StoresAll body.scopes) (hparent : world.Stores parent) :
    (world.newClosure bindings body parent).2.Consistent := by
  refine h.newScope rfl ⟨?_, ?_, nofun, nofun⟩
  · intro outer houter
    rw [Scope.parent?_closure] at houter
    cases houter
    exact ⟨hparent, hparent.lt_size⟩
  · refine StoresAll.supports_new ?_ (Nat.le_refl _)
    show world.StoresAll (body.scopes ++ scopesAll (bindings.entries.map Prod.snd ++ []))
    rw [List.append_nil]
    exact hbody.append hbindings

theorem Consistent.newThunk {deferred : Expr ν} {calling : Scope ν}
    (hdeferred : world.StoresAll deferred.scopes) (hcalling : world.Stores calling) :
    (world.newThunk deferred calling).2.Consistent := by
  refine h.newScope rfl ⟨?_, ?_, nofun, fun _ => ⟨rfl, calling, Scope.parent?_thunk _ _ _⟩⟩
  · intro outer houter
    rw [Scope.parent?_thunk] at houter
    cases houter
    exact ⟨hcalling, hcalling.lt_size⟩
  · refine StoresAll.supports_new ?_ (Nat.le_refl _)
    show world.StoresAll (deferred.scopes ++ [])
    rw [List.append_nil]
    exact hdeferred

/-- New thunks are consistent, and their scopes are stored. -/
theorem Consistent.newThunks {exprs : List (Expr ν)} {calling : Scope ν}
    (hexprs : world.StoresAll (scopesAll exprs)) (hcalling : world.Stores calling) :
    (world.newThunks calling exprs).2.Consistent ∧
      (world.newThunks calling exprs).2.StoresAll
        (scopesAll (world.newThunks calling exprs).1) := by
  induction exprs generalizing world with
  | nil => exact ⟨h, StoresAll.nil⟩
  | cons expr rest ih =>
    have hgrows : world.Grows (world.newThunk expr calling).2 := grows_newScope world _
    have hthunk := h.newThunk hexprs.left hcalling
    obtain ⟨hrest, hstored⟩ := ih hthunk (hexprs.right.grows hgrows) (hcalling.grows hgrows)
    refine ⟨hrest, StoresAll.cons ?_ hstored⟩
    exact (stores_newScope world (fun number => .thunk number expr calling) rfl).grows
      (grows_newThunks calling rest (world.newThunk expr calling).2)

theorem Consistent.newCall {closure calling : Scope ν} {arguments : List (Expr ν)}
    (hclosure : world.Stores closure) (harguments : world.StoresAll (scopesAll arguments))
    (hcalling : world.Stores calling) :
    (world.newCall closure arguments calling).2.Consistent ∧
      (world.newCall closure arguments calling).2.Stores
        (world.newCall closure arguments calling).1 := by
  have hgrows := grows_newThunks calling arguments world
  obtain ⟨hthunks, hstored⟩ := h.newThunks harguments hcalling
  have hsupports := (h.supports hclosure).grows hgrows
  refine ⟨hthunks.newScope rfl
    ⟨?_, ?_, nofun, nofun⟩,
    stores_newScope _ _ rfl⟩
  · intro outer houter
    obtain ⟨hparent, hless⟩ := hsupports.parent houter
    exact ⟨hparent, hparent.lt_size⟩
  · refine StoresAll.supports_new ?_ (Nat.le_refl _)
    intro inner hm
    obtain ⟨expr, hexpr, hinner⟩ := mem_scopesAll.1 hm
    rcases List.mem_cons.1 hexpr with rfl | hexpr
    · exact (hsupports.contents inner
        (mem_scopesAll.2 ⟨_, List.mem_cons_self, hinner⟩)).1
    · rcases List.mem_append.1 hexpr with hbinding | hargument
      · exact (hsupports.contents inner (mem_scopesAll.2
          ⟨expr, List.mem_cons_of_mem _ (List.mem_append_left _ hbinding), hinner⟩)).1
      · exact hstored inner (mem_scopesAll.2 ⟨expr, hargument, hinner⟩)

end NewFrames

end World
end CallByNeed
