import CallByNeed.Proofs.Worlds.Consistency

/-! # What scopes lead to

The scopes that tables, bindings and outcomes mention, and those that known ones lead to, by parents
and by what frames hold (`Scope.Grasped`). What is found in a scope is within its reach, and so is
its body and where it leads to. In a consistent world, stored scopes lead to stored ones only
(`Grasps.stored`).
-/

namespace CallByNeed
set_option autoImplicit false

variable {ν σ : Type}

/-! ## Scopes that are mentioned -/

def Table.scopes (table : Table (Expr ν)) : List (Scope ν) :=
  scopesAll (table.entries.map Prod.snd)

theorem Table.scopes_insert {table : Table (Expr ν)} {name : String} {bound : Expr ν}
    {inner : Scope ν} (h : inner ∈ (table.insert name bound).scopes) :
    inner ∈ bound.scopes ∨ inner ∈ table.scopes := by
  obtain ⟨expr, hexpr, hinner⟩ := mem_scopesAll.1 h
  obtain ⟨entry, hentry, rfl⟩ := List.mem_map.1 hexpr
  rcases Table.mem_insert hentry with rfl | hold
  · exact .inl hinner
  · exact .inr (mem_scopesAll.2 ⟨entry.2, List.mem_map_of_mem hold, hinner⟩)

def Lambda.bindingScopes (bindings : List (Lambda.Binding ν)) : List (Scope ν) :=
  bindings.flatMap fun binding => binding.1.scopes ++ binding.2.scopes

theorem Lambda.parts_scopes {items : List (Item ν)} {bindings : List (Lambda.Binding ν)}
    {body : Expr ν} (h : Lambda.parts items = .ok (bindings, body)) :
    ∀ inner ∈ Lambda.bindingScopes bindings ++ body.scopes, inner ∈ scopesItems items := by
  have hsplit : Lambda.split items = .ok (bindings, body) := by
    unfold Lambda.parts at h
    by_cases hmany : 1 < items.countP Lambda.isBare
    · simp [hmany] at h
    · simpa [hmany] using h
  clear h
  induction items generalizing bindings with
  | nil => cases hsplit
  | cons item rest ih =>
    cases item with
    | bare only =>
      cases rest with
      | nil =>
        cases hsplit
        intro inner hm
        simpa [Lambda.bindingScopes, scopesItems, Item.scopes] using hm
      | cons next rest => cases hsplit
    | binding name value =>
      rw [Lambda.split] at hsplit
      cases hrest : Lambda.split rest with
      | error shape =>
        rw [hrest] at hsplit
        cases hsplit
      | ok parts =>
        obtain ⟨others, last⟩ := parts
        rw [hrest] at hsplit
        cases hsplit
        have hothers := ih hrest
        intro inner hm
        simp only [Lambda.bindingScopes, List.flatMap_cons, List.mem_append, scopesItems,
          Item.scopes] at hm hothers ⊢
        rcases hm with (hfirst | hlater) | hbody
        · exact .inl hfirst
        · exact .inr (hothers inner (.inl hlater))
        · exact .inr (hothers inner (.inr hbody))

/-- The scopes that the outcome of a step mentions. -/
def Outcome.scopes : Outcome ν → List (Scope ν)
  | .finished head => head.scopes
  | .further expr scope => scope :: expr.scopes
  | .binding _ bound owner => owner :: bound.scopes

/-! ## Reach -/

/-- The scopes that known ones lead to, by parents and by what frames hold. -/
inductive Scope.Grasped (known : List (Scope ν)) : Scope ν → Prop where
  | known {scope : Scope ν} (h : scope ∈ known) : Grasped known scope
  | parent {scope outer : Scope ν} (h : Grasped known scope)
      (hparent : scope.parent? = some outer) : Grasped known outer
  | inside {scope inner : Scope ν} (h : Grasped known scope)
      (hinner : inner ∈ scopesAll scope.contents) : Grasped known inner

/-- All of these scopes are within reach of known ones. -/
def Scope.Grasps (known scopes : List (Scope ν)) : Prop :=
  ∀ inner ∈ scopes, Grasped known inner

namespace Scope

variable {known more scopes : List (Scope ν)} {scope : Scope ν}

theorem Grasps.of_subset (h : ∀ inner ∈ scopes, inner ∈ known) : Grasps known scopes :=
  fun inner hm => .known (h inner hm)

theorem Grasps.nil : Grasps known [] :=
  fun _ hm => absurd hm List.not_mem_nil

theorem Grasps.single {scope : Scope ν} (h : Grasped known scope) : Grasps known [scope] := by
  intro inner hm
  cases List.mem_singleton.1 hm
  exact h

theorem Grasped.trans {inner : Scope ν} (h : Grasped more inner) (hmore : Grasps known more) :
    Grasped known inner := by
  induction h with
  | known hm => exact hmore _ hm
  | parent _ hparent ih => exact ih.parent hparent
  | inside _ hinner ih => exact ih.inside hinner

theorem Grasps.trans (h : Grasps more scopes) (hmore : Grasps known more) :
    Grasps known scopes :=
  fun inner hm => (h inner hm).trans hmore

theorem Grasps.append (h : Grasps known scopes) (more : List (Scope ν)) :
    Grasps (known ++ more) scopes :=
  h.trans (.of_subset fun _ hm => List.mem_append_left _ hm)

theorem Grasped.of_append {inner : Scope ν} (h : Grasped (known ++ more) inner) :
    Grasped known inner ∨ Grasped more inner := by
  induction h with
  | known hm => exact (List.mem_append.1 hm).imp .known .known
  | parent _ hparent ih => exact ih.imp (·.parent hparent) (·.parent hparent)
  | inside _ hinner ih => exact ih.imp (·.inside hinner) (·.inside hinner)

/-- Known scopes that are stored lead to stored ones only. -/
theorem Grasped.stored {world : World ν σ} (hconsistent : world.Consistent)
    (hknown : world.StoresAll known) (h : Grasped known scope) : world.Stores scope := by
  induction h with
  | known hm => exact hknown _ hm
  | parent _ hparent ih => exact ih.parent hconsistent hparent
  | inside _ hinner ih => exact ((hconsistent.supports ih).contents _ hinner).1

theorem Grasps.stored {world : World ν σ} (hconsistent : world.Consistent)
    (hknown : world.StoresAll known) (h : Grasps known scopes) : world.StoresAll scopes :=
  fun inner hm => (h inner hm).stored hconsistent hknown

/-- What is found in a scope, with its owner, is within reach of the scope. -/
theorem Grasps.find {name : String} {bound : Expr ν} {owner : Scope ν}
    (hfind : scope.find name = .ok (bound, owner)) : Grasps [scope] (owner :: bound.scopes) := by
  obtain ⟨howner, hbound, -⟩ :=
    find_owner (fun (h : Grasped [scope] _) hparent => h.parent hparent)
      (.known List.mem_cons_self) hfind
  intro inner hm
  rcases List.mem_cons.1 hm with rfl | hm
  · exact howner
  · exact howner.inside (mem_scopesAll.2 ⟨bound, hbound, hm⟩)

/-- What a lookup in a scope within reach finds is within reach. -/
theorem Grasped.lookup (h : Grasped known scope) (name : String) :
    Grasps known (scope.lookup name).scopes := by
  unfold Scope.lookup
  cases hfind : scope.find name with
  | error failure => exact .nil
  | ok found =>
    intro inner hm
    exact (Grasps.find hfind inner (List.mem_cons_of_mem _ hm)).trans (.single h)

theorem Grasps.body : Grasps [scope] (scope :: scope.body.scopes) := by
  intro inner hm
  rcases List.mem_cons.1 hm with rfl | hm
  · exact .known List.mem_cons_self
  · exact (Grasped.known List.mem_cons_self).inside
      (mem_scopesAll.2 ⟨scope.body, List.mem_cons_self, hm⟩)

/-- What a step of a scope leads to is within its reach. -/
theorem Grasps.enter : Grasps [scope] scope.enter.scopes := by
  unfold Scope.enter
  cases scope.kind with
  | closure => exact .of_subset fun _ hm => hm
  | call => exact .body
  | root => exact .body
  | thunk =>
    cases hparent : scope.parent? with
    | none => exact .body
    | some outer =>
      intro inner hm
      rcases List.mem_cons.1 hm with rfl | hm
      · exact (Grasped.known List.mem_cons_self).parent hparent
      · exact Grasps.body inner (List.mem_cons_of_mem _ hm)

end Scope
end CallByNeed
