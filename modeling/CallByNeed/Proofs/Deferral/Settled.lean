import CallByNeed.Proofs.CallByName.Determinism
import CallByNeed.Proofs.Lexical.Opaque

/-! # Frames with settled arguments

The frame of a call may defer its arguments as they are or as the heads they evaluate to. Two scopes
are settled if they are the same but for such arguments, in the frames of the scopes and of all that
was closed over them. Only argument lists may differ, so everything but the lookup of an argument
gives the same for both of them, the texts they are shown as included.

What is the same syntax over settled scopes is related by a likeness that is loose about scopes and
nothing else (`Expr.Over`).
-/

namespace CallByNeed
set_option autoImplicit false

open CallByName

variable {ν : Type}

/-! ## Syntax over related scopes -/

/-- Values are alike up to the identities that evaluations gave them, and related scopes are. -/
abbrev Likeness.over (rel : Scope ν → Scope ν → Prop) : Likeness ν :=
  .between (fun value value' => value.forget = value'.forget) rel

/-- The same syntax over related scopes. -/
abbrev Expr.Over (rel : Scope ν → Scope ν → Prop) : Expr ν → Expr ν → Prop :=
  Expr.Between (fun value value' => value.forget = value'.forget) rel

abbrev Table.Over (rel : Scope ν → Scope ν → Prop) : Table (Expr ν) → Table (Expr ν) → Prop :=
  Table.Between (fun value value' => value.forget = value'.forget) rel

section Over

variable {rel : Scope ν → Scope ν → Prop}

variable (hrel : ∀ scope, rel scope scope)
include hrel

theorem Expr.over_refl (expr : Expr ν) : expr.Over rel expr :=
  expr.alike_self fun inner _ => .loose (.scope (hrel inner))

theorem allOver_refl (exprs : List (Expr ν)) : List.Forall₂ (Expr.Over rel) exprs exprs :=
  List.forall₂_same.2 fun expr _ => expr.over_refl hrel

theorem Table.over_refl (table : Table (Expr ν)) : table.Over rel table :=
  List.forall₂_same.2 fun entry _ => .entry (entry.2.over_refl hrel)

end Over

/-! ## Texts of scopes -/

section Texts

variable (number : Nat) (bindings : Table (Expr ν)) (body : Expr ν) (scope : Scope ν)

theorem Expr.display_scope : (Expr.scope scope).display = scope.display := by
  obtain ⟨frame, outer⟩ := scope
  rw [Expr.display, Scope.display]

theorem Scope.display_closure : (Scope.closure number bindings body scope).display =
    let names := " ".intercalate bindings.names
    if names.isEmpty then "#<closure " ++ body.display ++ ">"
    else "#<closure [" ++ names ++ "] " ++ body.display ++ ">" := by
  rw [Scope.display, Scope.closure, Frame.display]

theorem Scope.display_thunk :
    (Scope.thunk number body scope).display = "#<thunk " ++ body.display ++ ">" := by
  rw [Scope.display, Scope.thunk, Frame.display]

theorem Scope.display_call (arguments : List (Expr ν)) :
    (Scope.call number scope arguments).display =
      "#<call " ++ scope.body.display ++ " with " ++ toString arguments.length ++
        " argument(s)>" := by
  rw [Scope.display, Scope.call, Frame.display, Scope.body]

end Texts

/-! ## Settled scopes -/

/-- The second expression is the head that the first one evaluates to. -/
def Settles (code : Code ν) (calling : Scope ν) (argument settled : Expr ν) : Prop :=
  ∃ head : Head ν, settled = head.toExpr ∧ head.Fits ∧
    ∃ trace, Derives code (.evaluate argument calling) (.head head) trace

/-- The first scope defers arguments where the second one defers the heads they evaluate to. -/
inductive Settled (code : Code ν) : Scope ν → Scope ν → Prop where
  | same (scope : Scope ν) : Settled code scope scope
  | settles (closure calling : Scope ν) {arguments heads : List (Expr ν)}
      (h : List.Forall₂ (Settles code calling) arguments heads) :
      Settled code (calledFrame closure arguments calling) (calledFrame closure heads calling)
  | closure {sub : Scope ν → Scope ν → Prop}
      (hsub : ∀ scope scope', sub scope scope' → Settled code scope scope')
      {table table' : Table (Expr ν)} (htable : table.Over sub table') {body body' : Expr ν}
      (hbody : body.Over sub body') {parent parent' : Scope ν}
      (hparent : Settled code parent parent') :
      Settled code (.closure 0 table body parent) (.closure 0 table' body' parent')
  | thunk {sub : Scope ν → Scope ν → Prop}
      (hsub : ∀ scope scope', sub scope scope' → Settled code scope scope')
      {deferred deferred' : Expr ν} (hdeferred : deferred.Over sub deferred')
      {calling calling' : Scope ν} (hcalling : Settled code calling calling') :
      Settled code (.thunk 0 deferred calling) (.thunk 0 deferred' calling')
  | call {sub : Scope ν → Scope ν → Prop}
      (hsub : ∀ scope scope', sub scope scope' → Settled code scope scope')
      {closure closure' : Scope ν} (hclosure : Settled code closure closure')
      {arguments arguments' : List (Expr ν)}
      (harguments : List.Forall₂ (Expr.Over sub) arguments arguments') {calling calling' : Scope ν}
      (hcalling : Settled code calling calling') :
      Settled code (calledFrame closure arguments calling)
        (calledFrame closure' arguments' calling')

/-- An argument as it is and settled, each deferred in a thunk. -/
inductive DeferredSettled (code : Code ν) : Expr ν → Expr ν → Prop where
  | thunk (calling : Scope ν) {argument settled : Expr ν} (h : Settles code calling argument settled) :
      DeferredSettled code (.scope (.thunk 0 argument calling)) (.scope (.thunk 0 settled calling))

/-- What can be found in settled scopes. -/
abbrev Expr.Held (code : Code ν) (expr expr' : Expr ν) : Prop :=
  expr.Over (Settled code) expr' ∨ DeferredSettled code expr expr'

/-- What is read off a scope gives the same for another one, but for arguments. -/
structure Scope.Agrees (code : Code ν) (scope scope' : Scope ν) : Prop where
  kind : scope.kind = scope'.kind
  parent : Option.Rel (Settled code) scope.parent? scope'.parent?
  body : scope.body.Over (Settled code) scope'.body
  bindings : scope.bindings.Over (Settled code) scope'.bindings
  arguments : Option.Rel (List.Forall₂ (Expr.Held code)) scope.arguments? scope'.arguments?

variable {code : Code ν} {scope scope' : Scope ν}

theorem Scope.agrees_refl (code : Code ν) (scope : Scope ν) : scope.Agrees code scope where
  kind := rfl
  parent := by
    cases scope.parent? with
    | none => exact .none
    | some parent => exact .some (.same parent)
  body := Expr.over_refl .same _
  bindings := Table.over_refl .same _
  arguments := by
    cases scope.arguments? with
    | none => exact .none
    | some arguments => exact .some ((allOver_refl .same arguments).imp fun _ _ h => .inl h)

theorem Settled.agrees (h : Settled code scope scope') : scope.Agrees code scope' := by
  induction h with
  | same scope => exact scope.agrees_refl code
  | @settles closure calling arguments heads hsettles =>
    have hclosure := closure.agrees_refl code
    refine ⟨rfl, hclosure.parent, hclosure.body, hclosure.bindings, .some ?_⟩
    rw [List.forall₂_map_left_iff, List.forall₂_map_right_iff]
    exact hsettles.imp fun _ _ hsettled => .inr (.thunk calling hsettled)
  | closure hsub htable hbody hparent _ _ =>
    refine ⟨rfl, ?_, hbody.imp hsub, htable.imp hsub, .none⟩
    rw [Scope.parent?_closure, Scope.parent?_closure]
    exact .some hparent
  | thunk hsub hdeferred hcalling _ _ =>
    refine ⟨rfl, ?_, hdeferred.imp hsub, .nil, .none⟩
    rw [Scope.parent?_thunk, Scope.parent?_thunk]
    exact .some hcalling
  | call hsub hclosure harguments hcalling _ ihclosure _ =>
    refine ⟨rfl, ihclosure.parent, ihclosure.body, ihclosure.bindings, .some ?_⟩
    rw [List.forall₂_map_left_iff, List.forall₂_map_right_iff]
    exact harguments.imp fun _ _ hargument =>
      .inl (.loose (.scope (.thunk hsub hargument hcalling)))

/-! ## Lookup -/

/-- Settled things found, or the same failure to find any. -/
inductive FoundSettled (code : Code ν) :
    Except Failure (Scope.Found ν) → Except Failure (Scope.Found ν) → Prop where
  | missing (failure : Failure) : FoundSettled code (.error failure) (.error failure)
  | found {bound bound' : Expr ν} {owner owner' : Scope ν} (hbound : bound.Held code bound')
      (howner : Settled code owner owner') :
      FoundSettled code (.ok (bound, owner)) (.ok (bound', owner'))

namespace FoundSettled

variable {found : Except Failure (Scope.Found ν)}

theorem of_missing {failure : Failure} (h : FoundSettled code (.error failure) found) :
    found = .error failure := by
  cases h
  rfl

theorem of_found {bound : Expr ν} {owner : Scope ν} (h : FoundSettled code (.ok (bound, owner)) found) :
    ∃ bound' owner', found = .ok (bound', owner') ∧ bound.Held code bound' ∧
      Settled code owner owner' := by
  cases h with
  | found hbound howner => exact ⟨_, _, rfl, hbound, howner⟩

end FoundSettled

namespace Settled

/-- The search for a name in a frame, if the search in those around it is settled. -/
theorem findBinding_cons (name : String) {frame frame' : Frame ν} {outer outer' : List (Frame ν)}
    (h : Settled code ⟨frame, outer⟩ ⟨frame', outer'⟩)
    (houter : FoundSettled code (Scope.findBinding name outer) (Scope.findBinding name outer')) :
    FoundSettled code (Scope.findBinding name (frame :: outer))
      (Scope.findBinding name (frame' :: outer')) := by
  have hfind : Option.Rel _ (frame.bindings.find? name) (frame'.bindings.find? name) :=
    h.agrees.bindings.find? name
  rw [Scope.findBinding, Scope.findBinding]
  revert hfind
  cases frame.bindings.find? name <;> cases frame'.bindings.find? name <;> intro hfind
  · exact houter
  · cases hfind
  · cases hfind
  · cases hfind with
    | some hbound => exact .found (.inl hbound) h

/-- The search for an argument in a frame, if the search in those around it is settled. -/
theorem findArgument_cons (index : Nat) {frame frame' : Frame ν} {outer outer' : List (Frame ν)}
    (h : Settled code ⟨frame, outer⟩ ⟨frame', outer'⟩)
    (houter : FoundSettled code (Scope.findArgument index outer)
      (Scope.findArgument index outer')) :
    FoundSettled code (Scope.findArgument index (frame :: outer))
      (Scope.findArgument index (frame' :: outer')) := by
  have harguments : Option.Rel _ frame.role.arguments? frame'.role.arguments? :=
    h.agrees.arguments
  rw [Scope.findArgument, Scope.findArgument]
  revert harguments
  cases frame.role.arguments? <;> cases frame'.role.arguments? <;> intro harguments
  · exact houter
  · cases harguments
  · cases harguments
  · cases harguments with
    | some hall => exact Scope.argument_related .missing (.found · h) index hall

/-- A search that goes on from frame to frame, in settled scopes. -/
theorem search {find : List (Frame ν) → Except Failure (Scope.Found ν)}
    (hnil : FoundSettled code (find []) (find []))
    (hcons : ∀ {frame frame' : Frame ν} {outer outer' : List (Frame ν)},
      Settled code ⟨frame, outer⟩ ⟨frame', outer'⟩ → FoundSettled code (find outer) (find outer') →
      FoundSettled code (find (frame :: outer)) (find (frame' :: outer')))
    (h : Settled code scope scope') : FoundSettled code (find scope.frames) (find scope'.frames) := by
  obtain ⟨frame, outer⟩ := scope
  induction outer generalizing frame scope' with
  | nil =>
    obtain ⟨frame', _ | ⟨next', outer'⟩⟩ := scope'
    · exact hcons h hnil
    · cases h.agrees.parent
  | cons next outer ih =>
    obtain ⟨frame', _ | ⟨next', outer'⟩⟩ := scope'
    · cases h.agrees.parent
    · cases h.agrees.parent with
      | some hnext => exact hcons h (ih next hnext)

/-- Lookup in settled scopes leads to the same place. -/
theorem find (h : Settled code scope scope') (name : String) :
    FoundSettled code (scope.find name) (scope'.find name) := by
  unfold Scope.find
  cases positional? name with
  | none => exact h.search (.missing _) (findBinding_cons name)
  | some index => exact h.search (.missing _) (findArgument_cons index)

/-! ## Texts -/

/-- Settled scopes are shown as the same text, and so are their bodies. -/
theorem shown (h : Settled code scope scope') :
    scope.display = scope'.display ∧ scope.body.display = scope'.body.display := by
  have hshows {sub : Scope ν → Scope ν → Prop}
      (ihsub : ∀ scope scope', sub scope scope' → scope.display = scope'.display ∧
        scope.body.display = scope'.body.display) : ShowsAlike (ScopesBy sub) := by
    intro expr expr' hscopes
    cases hscopes with
    | scope hscope =>
      rw [Expr.display_scope, Expr.display_scope]
      exact (ihsub _ _ hscope).1
  induction h with
  | same scope => exact ⟨rfl, rfl⟩
  | settles closure calling hsettles =>
    refine ⟨?_, rfl⟩
    rw [calledFrame, calledFrame, Scope.display_call, Scope.display_call, List.length_map,
      List.length_map, hsettles.length_eq]
  | closure hsub htable hbody _ ihsub _ =>
    have htext := hbody.display (hshows ihsub)
    refine ⟨?_, htext⟩
    rw [Scope.display_closure, Scope.display_closure, htable.names, htext]
  | thunk hsub hdeferred _ ihsub _ =>
    have htext := hdeferred.display (hshows ihsub)
    refine ⟨?_, htext⟩
    rw [Scope.display_thunk, Scope.display_thunk, htext]
  | call hsub _ harguments _ _ ihclosure _ =>
    refine ⟨?_, ihclosure.2⟩
    rw [calledFrame, calledFrame, Scope.display_call, Scope.display_call, List.length_map,
      List.length_map, harguments.length_eq, ihclosure.2]

end Settled

/-- The same syntax over settled scopes is shown as the same text. -/
theorem Expr.Over.display {expr expr' : Expr ν} (h : expr.Over (Settled code) expr') :
    expr.display = expr'.display := by
  refine Expr.Alike.display (fun _ _ hscopes => ?_) h
  cases hscopes with
  | scope hscope =>
    rw [Expr.display_scope, Expr.display_scope]
    exact hscope.shown.1

end CallByNeed
