import CallByNeed.Proofs.Frames.Honest

/-! # Ready-made frames

A frame is ready-made if all that it holds is a value, a native method or a failure. What can be
recorded for its identifiers is what they are bound to, and no more. Two worlds are interchangeable
for such a frame if they are the same but for its records (`World.Interchangeable`); new frames,
events and the records of other frames keep them so.

A world knows frames by their numbers only. That records of this number are those of the frame
itself holds because no other scope within reach has its number (`Scope.Sole`).
-/

namespace CallByNeed
set_option autoImplicit false

variable {ν σ : Type}

namespace Scope

/-! ## The only scope of its number -/

section Sole

variable {known more : List (Scope ν)} {root scope : Scope ν}

/-- Of the scopes within reach, no other one has the number of this one. -/
def Sole (root : Scope ν) (known : List (Scope ν)) : Prop :=
  ∀ inner, Grasped known inner → inner.number = root.number → inner = root

theorem Sole.of_grasps (h : root.Sole known) (hmore : Grasps known more) : root.Sole more :=
  fun inner hinner => h inner (hinner.trans hmore)

theorem Sole.subset (h : root.Sole known) (hmore : ∀ inner ∈ more, inner ∈ known) :
    root.Sole more :=
  h.of_grasps (.of_subset hmore)

theorem Sole.append (h : root.Sole known) (h' : root.Sole more) : root.Sole (known ++ more) :=
  fun inner hinner => hinner.of_append.elim (h inner) (h' inner)

theorem Sole.nil : root.Sole [] := by
  intro inner hinner
  exfalso
  induction hinner with
  | known hm => exact absurd hm List.not_mem_nil
  | parent _ _ ih => exact ih
  | inside _ _ ih => exact ih

/-- A frame with a number of its own leads to nothing but itself and what it is made of. -/
theorem Sole.made (h : root.Sole known) (hnumber : scope.number ≠ root.number)
    (hparent : ∀ {outer}, scope.parent? = some outer → Grasped known outer)
    (hinside : Grasps known (scopesAll scope.contents)) : root.Sole [scope] := by
  have hreach {inner : Scope ν} (hinner : Grasped [scope] inner) :
      inner = scope ∨ Grasped known inner := by
    induction hinner with
    | known hm => exact .inl (List.mem_singleton.1 hm)
    | parent _ hstep ih =>
      rcases ih with rfl | ih
      · exact .inr (hparent hstep)
      · exact .inr (ih.parent hstep)
    | inside _ hstep ih =>
      rcases ih with rfl | ih
      · exact .inr (hinside _ hstep)
      · exact .inr (ih.inside hstep)
  intro inner hinner hsame
  rcases hreach hinner with rfl | hknown
  · exact absurd hsame hnumber
  · exact h inner hknown hsame

end Sole

/-- All that the scope holds reduces no further. -/
def ReadyMade (scope : Scope ν) : Prop :=
  ∀ expr ∈ scope.contents, expr.isTerminal = true

end Scope

/-! ## Worlds that are the same but for the records of one frame -/

namespace World

structure SameBut (number : Nat) (world world' : World ν σ) : Prop where
  size : world.size = world'.size
  scopes : ∀ other, world.scopeAt other = world'.scopeAt other
  records : ∀ {other}, other ≠ number → ∀ name,
    world.recordAt other name = world'.recordAt other name
  values : world.values = world'.values
  host : world.host = world'.host
  events : world.events = world'.events

namespace SameBut

variable {number : Nat} {world world' world'' : World ν σ}

theorem symm (h : world.SameBut number world') : world'.SameBut number world :=
  ⟨h.size.symm, fun other => (h.scopes other).symm, fun hother name => (h.records hother name).symm,
    h.values.symm, h.host.symm, h.events.symm⟩

theorem trans (h : world.SameBut number world') (h' : world'.SameBut number world'') :
    world.SameBut number world'' :=
  ⟨h.size.trans h'.size, fun other => (h.scopes other).trans (h'.scopes other),
    fun hother name => (h.records hother name).trans (h'.records hother name),
    h.values.trans h'.values, h.host.trans h'.host, h.events.trans h'.events⟩

theorem emit (h : world.SameBut number world') (event : Event ν) :
    (world.emit event).SameBut number (world'.emit event) :=
  ⟨h.size, h.scopes, h.records, h.values, h.host,
    congrArg (fun events => events.push event) h.events⟩

theorem newValue (h : world.SameBut number world') (identity : Nat → Identity)
    (payload : Payload ν) :
    (world.newValue identity payload).1 = (world'.newValue identity payload).1 ∧
      (world.newValue identity payload).2.SameBut number (world'.newValue identity payload).2 :=
  ⟨congrArg (fun values => (⟨identity values, payload⟩ : Value ν)) h.values, h.size, h.scopes,
    h.records, congrArg Nat.succ h.values, h.host, h.events⟩

theorem newScope (h : world.SameBut number world') (make : Nat → Scope ν) :
    (world.newScope make).1 = (world'.newScope make).1 ∧
      (world.newScope make).2.SameBut number (world'.newScope make).2 := by
  refine ⟨congrArg make h.size, ?_, fun other => ?_, fun hother name => ?_, h.values, h.host,
    h.events⟩
  · rw [size_newScope, size_newScope, h.size]
  · rw [scopeAt_newScope, scopeAt_newScope, h.size, h.scopes]
  · rw [recordAt_newScope, recordAt_newScope, h.records hother]

theorem updateHost (h : world.SameBut number world') (change : σ → σ) :
    (world.updateHost fun state => (state, change state)).2.SameBut number
      (world'.updateHost fun state => (state, change state)).2 :=
  ⟨h.size, h.scopes, h.records, h.values, congrArg change h.host, h.events⟩

theorem memoize (h : world.SameBut number world') (owner : Scope ν) (name : String)
    (result : Terminal ν) :
    (world.memoize owner name result).SameBut number (world'.memoize owner name result) where
  size := by rw [size_memoize, size_memoize, h.size]
  scopes other := by rw [scopeAt_memoize, scopeAt_memoize, h.scopes]
  records hother name := by
    rw [recordAt_memoize, recordAt_memoize, h.size, h.records hother]
  values := h.values
  host := h.host
  events := h.events

/-- A record of the frame itself makes no difference. -/
theorem memoize_self {owner : Scope ν} (howner : owner.number = number) (world : World ν σ)
    (name : String) (result : Terminal ν) :
    (world.memoize owner name result).SameBut number world where
  size := size_memoize world owner name result
  scopes := scopeAt_memoize world owner name result
  records hother other := by
    rw [recordAt_memoize, if_neg fun hall => hother (hall.1.trans howner)]
  values := rfl
  host := rfl
  events := rfl

end SameBut

/-! ## Interchangeable worlds -/

/-- What is recorded for identifiers of the root is what they are bound to. -/
def RecordsBound (root : Scope ν) (world : World ν σ) : Prop :=
  ∀ name result, world.recordAt root.number name = some result →
    root.find name = .ok (result.toExpr, root)

structure Interchangeable (root : Scope ν) (world world' : World ν σ) : Prop where
  same : world.SameBut root.number world'
  made : root.number < world.size
  ready : world.RecordsBound root
  ready' : world'.RecordsBound root

theorem RecordsBound.of_records {root : Scope ν} {world after : World ν σ}
    (h : world.RecordsBound root)
    (hrecords : ∀ name, after.recordAt root.number name = world.recordAt root.number name) :
    after.RecordsBound root :=
  fun name result hrecord => h name result ((hrecords name).symm.trans hrecord)

/-- Recording what an identifier of the root is bound to keeps its records ready-made. -/
theorem RecordsBound.memoize {root : Scope ν} {world : World ν σ} (h : world.RecordsBound root)
    {name : String} {result : Terminal ν} (hfind : root.find name = .ok (result.toExpr, root)) :
    (world.memoize root name result).RecordsBound root := by
  intro other old hrecord
  rw [recordAt_memoize] at hrecord
  by_cases hhere : root.number = root.number ∧ other = name ∧ root.number < world.size
  · rw [if_pos hhere] at hrecord
    obtain ⟨-, rfl, -⟩ := hhere
    cases hold : world.recordAt root.number other with
    | some kept =>
      rw [hold] at hrecord
      cases hrecord
      exact h other kept hold
    | none =>
      rw [hold] at hrecord
      cases hrecord
      exact hfind
  · rw [if_neg hhere] at hrecord
    exact h other old hrecord

namespace Interchangeable

variable {root : Scope ν} {world world' world'' : World ν σ}

theorem symm (h : world.Interchangeable root world') : world'.Interchangeable root world :=
  ⟨h.same.symm, h.same.size ▸ h.made, h.ready', h.ready⟩

theorem trans (h : world.Interchangeable root world') (h' : world'.Interchangeable root world'') :
    world.Interchangeable root world'' :=
  ⟨h.same.trans h'.same, h.made, h.ready, h'.ready'⟩

theorem emit (h : world.Interchangeable root world') (event : Event ν) :
    (world.emit event).Interchangeable root (world'.emit event) :=
  ⟨h.same.emit event, h.made, h.ready, h.ready'⟩

theorem newScope (h : world.Interchangeable root world') (make : Nat → Scope ν) :
    (world.newScope make).2.Interchangeable root (world'.newScope make).2 where
  same := (h.same.newScope make).2
  made := by
    rw [size_newScope]
    exact Nat.lt_succ_of_lt h.made
  ready := h.ready.of_records fun name => recordAt_newScope world make root.number name
  ready' := h.ready'.of_records fun name => recordAt_newScope world' make root.number name

/-- Records of other frames are the same on both sides. -/
theorem memoize (h : world.Interchangeable root world') {owner : Scope ν}
    (howner : owner.number ≠ root.number) (name : String) (result : Terminal ν) :
    (world.memoize owner name result).Interchangeable root (world'.memoize owner name result) := by
  have hother (world : World ν σ) (other : String) :
      (world.memoize owner name result).recordAt root.number other =
        world.recordAt root.number other := by
    rw [recordAt_memoize, if_neg fun hall => howner hall.1.symm]
  refine ⟨h.same.memoize owner name result, ?_, h.ready.of_records (hother world),
    h.ready'.of_records (hother world')⟩
  rw [size_memoize]
  exact h.made

/-- A record of what is bound in the root makes no difference. -/
theorem memoize_root (hmade : root.number < world.size) (hready : world.RecordsBound root)
    {name : String} {result : Terminal ν} (hfind : root.find name = .ok (result.toExpr, root)) :
    (world.memoize root name result).Interchangeable root world :=
  ⟨.memoize_self rfl world name result, (size_memoize world root name result).symm ▸ hmade,
    hready.memoize hfind, hready⟩

/-! ### New frames

They are the same on both sides, and lead to nothing else of the root's number. -/

theorem newThunks (h : world.Interchangeable root world') {calling : Scope ν}
    {exprs : List (Expr ν)} (hsole : root.Sole (calling :: scopesAll exprs)) :
    (world.newThunks calling exprs).1 = (world'.newThunks calling exprs).1 ∧
      (world.newThunks calling exprs).2.Interchangeable root (world'.newThunks calling exprs).2 ∧
      root.Sole (scopesAll (world.newThunks calling exprs).1) := by
  induction exprs generalizing world world' with
  | nil => exact ⟨rfl, h, .nil⟩
  | cons expr rest ih =>
    have hmake := h.newScope fun number => .thunk number expr calling
    obtain ⟨hrest, hafter, hthunks⟩ := ih hmake (hsole.subset (by grind [scopesAll]))
    have hthunk : root.Sole [Scope.thunk world.size expr calling] := by
      refine hsole.made (Nat.ne_of_gt h.made) (fun hparent => ?_) fun inner hm => ?_
      · rw [Scope.parent?_thunk] at hparent
        cases hparent
        exact .known List.mem_cons_self
      · have hinner : inner ∈ expr.scopes ++ [] := hm
        exact .known (by grind [scopesAll])
    refine ⟨?_, hafter, hthunk.append hthunks⟩
    show Expr.scope (Scope.thunk world.size expr calling) :: _ =
      Expr.scope (Scope.thunk world'.size expr calling) :: _
    rw [h.same.size]
    exact congrArg _ hrest

theorem newClosure (h : world.Interchangeable root world') {table : Table (Expr ν)}
    {body : Expr ν} {parent : Scope ν}
    (hsole : root.Sole (parent :: (table.scopes ++ body.scopes))) :
    (world.newClosure table body parent).1 = (world'.newClosure table body parent).1 ∧
      (world.newClosure table body parent).2.Interchangeable root
        (world'.newClosure table body parent).2 ∧
      root.Sole [(world.newClosure table body parent).1] := by
  refine ⟨(h.same.newScope _).1, h.newScope _, ?_⟩
  show root.Sole [.closure world.size table body parent]
  refine hsole.made (Nat.ne_of_gt h.made) (fun hparent => ?_) fun inner hm => .known ?_
  · rw [Scope.parent?_closure] at hparent
    cases hparent
    exact .known List.mem_cons_self
  · obtain ⟨expr, hexpr, hinner⟩ := mem_scopesAll.1 hm
    rcases List.mem_cons.1 hexpr with rfl | hexpr
    · exact List.mem_cons_of_mem _ (List.mem_append_right _ hinner)
    · have hbound : expr ∈ table.entries.map Prod.snd :=
        (List.mem_append.1 hexpr).resolve_right List.not_mem_nil
      refine List.mem_cons_of_mem _ (List.mem_append_left _ ?_)
      exact mem_scopesAll.2 ⟨expr, hbound, hinner⟩

theorem newCall (h : world.Interchangeable root world') {closure calling : Scope ν}
    {arguments : List (Expr ν)}
    (hsole : root.Sole (closure :: calling :: scopesAll arguments)) :
    (world.newCall closure arguments calling).1 = (world'.newCall closure arguments calling).1 ∧
      (world.newCall closure arguments calling).2.Interchangeable root
        (world'.newCall closure arguments calling).2 ∧
      root.Sole [(world.newCall closure arguments calling).1] := by
  obtain ⟨hthunks, hworlds, hsolethunks⟩ :=
    h.newThunks (hsole.subset fun _ hm => List.mem_cons_of_mem _ hm)
  have hmake := fun thunks => hworlds.newScope fun number => .call number closure thunks
  have hclosure : root.Sole [closure] := hsole.subset (by simp)
  refine ⟨?_, ?_, ?_⟩
  · show Scope.call _ closure _ = Scope.call _ closure _
    rw [hthunks, show Array.size _ = Array.size _ from hworlds.same.size]
  · show World.Interchangeable root (World.newScope _ _).2 (World.newScope _ _).2
    rw [← hthunks]
    exact hmake _
  · have hknown : Scope.Grasped ([closure] ++ scopesAll (world.newThunks calling arguments).1)
        closure := .known List.mem_cons_self
    refine (hclosure.append hsolethunks).made (Nat.ne_of_gt hworlds.made) (fun hparent => ?_)
      fun inner hm => ?_
    · exact hknown.parent hparent
    · -- The body and the bindings are those of the closure, and the arguments are thunks.
      have hinside {expr : Expr ν} (hexpr : expr ∈ closure.contents)
          (hm : inner ∈ expr.scopes) :
          Scope.Grasped ([closure] ++ scopesAll (world.newThunks calling arguments).1) inner :=
        hknown.inside (mem_scopesAll.2 ⟨expr, hexpr, hm⟩)
      obtain ⟨expr, hexpr, hm⟩ := mem_scopesAll.1 hm
      rcases List.mem_cons.1 hexpr with rfl | hexpr
      · exact hinside List.mem_cons_self hm
      · rcases List.mem_append.1 hexpr with hbinding | hargument
        · exact hinside (List.mem_cons_of_mem _ (List.mem_append_left _ hbinding)) hm
        · exact .known (List.mem_append_right _ (mem_scopesAll.2 ⟨expr, hargument, hm⟩))

end Interchangeable

end World
end CallByNeed
