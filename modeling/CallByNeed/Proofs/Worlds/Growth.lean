import CallByNeed.Proofs.Runs.Laws

/-! # How worlds grow

A world is read through `scopeAt` and `recordAt`: the frame with a number, and the record of an
identifier of that frame. Each operation on worlds has one equation for either of them. A world
grows into another one if all frames and all records stay as they are, and every change that an
evaluation makes is growth, as far as the host's natives let it be (`World.Change.grows`).
-/

namespace CallByNeed
set_option autoImplicit false

variable {ν σ α : Type}

namespace World

/-- The frame with this number, within the frames that enclose it. -/
def scopeAt (world : World ν σ) (number : Nat) : Option (Scope ν) :=
  world.cells[number]?.map Cell.scope

/-- What is recorded for an identifier of the frame with this number. -/
def recordAt (world : World ν σ) (number : Nat) (name : String) : Option (Terminal ν) :=
  world.cells[number]?.bind fun cell => cell.records.find? name

def size (world : World ν σ) : Nat :=
  world.cells.size

theorem memoized_eq (world : World ν σ) (scope : Scope ν) (name : String) :
    world.memoized scope name = world.recordAt scope.number name := rfl

theorem scopeAt_eq_none {world : World ν σ} {number : Nat} (h : world.size ≤ number) :
    world.scopeAt number = none := by
  rw [scopeAt, Array.getElem?_eq_none h]
  rfl

theorem recordAt_eq_none {world : World ν σ} {number : Nat} (h : world.size ≤ number)
    (name : String) : world.recordAt number name = none := by
  rw [recordAt, Array.getElem?_eq_none h]
  rfl

theorem lt_size_of_scopeAt {world : World ν σ} {number : Nat} {scope : Scope ν}
    (h : world.scopeAt number = some scope) : number < world.size := by
  refine Nat.lt_of_not_le fun hge => ?_
  rw [scopeAt_eq_none hge] at h
  cases h

theorem lt_size_of_recordAt {world : World ν σ} {number : Nat} {name : String}
    {result : Terminal ν} (h : world.recordAt number name = some result) :
    number < world.size := by
  refine Nat.lt_of_not_le fun hge => ?_
  rw [recordAt_eq_none hge] at h
  cases h

/-! ## Equations of the operations -/

theorem size_newScope (world : World ν σ) (make : Nat → Scope ν) :
    (world.newScope make).2.size = world.size + 1 :=
  Array.size_push _

theorem scopeAt_newScope (world : World ν σ) (make : Nat → Scope ν) (number : Nat) :
    (world.newScope make).2.scopeAt number =
      if number = world.size then some (make world.size) else world.scopeAt number := by
  change (world.cells.push ⟨make world.size, .empty⟩)[number]?.map Cell.scope = _
  rw [Array.getElem?_push]
  by_cases h : number = world.cells.size
  · rw [if_pos h, if_pos (show number = world.size from h)]
    rfl
  · rw [if_neg h, if_neg (show ¬number = world.size from h)]
    rfl

theorem recordAt_newScope (world : World ν σ) (make : Nat → Scope ν) (number : Nat)
    (name : String) :
    (world.newScope make).2.recordAt number name = world.recordAt number name := by
  change ((world.cells.push ⟨make world.size, .empty⟩)[number]?.bind fun cell =>
    cell.records.find? name) = _
  rw [Array.getElem?_push]
  by_cases h : number = world.cells.size
  · rw [if_pos h, recordAt_eq_none (Nat.le_of_eq h.symm)]
    rfl
  · rw [if_neg h]
    rfl

theorem size_newThunks (calling : Scope ν) (exprs : List (Expr ν)) (world : World ν σ) :
    (world.newThunks calling exprs).2.size = world.size + exprs.length := by
  induction exprs generalizing world with
  | nil => rfl
  | cons expr rest ih =>
    have hthunk : (world.newThunk expr calling).2.size = world.size + 1 :=
      size_newScope world _
    have hrest := ih (world.newThunk expr calling).2
    rw [hthunk] at hrest
    show (World.newThunks calling rest (world.newThunk expr calling).2).2.size = _
    rw [hrest, List.length_cons]
    omega

theorem size_memoize (world : World ν σ) (scope : Scope ν) (name : String)
    (result : Terminal ν) : (world.memoize scope name result).size = world.size :=
  Array.size_modify

theorem scopeAt_memoize (world : World ν σ) (scope : Scope ν) (name : String)
    (result : Terminal ν) (number : Nat) :
    (world.memoize scope name result).scopeAt number = world.scopeAt number := by
  change (world.cells.modify scope.number fun cell =>
    ⟨cell.scope, cell.records.insertNew name result⟩)[number]?.map Cell.scope = _
  rw [Array.getElem?_modify, scopeAt]
  by_cases h : scope.number = number
  · rw [if_pos h, Option.map_map]
    rfl
  · rw [if_neg h]

theorem recordAt_memoize (world : World ν σ) (scope : Scope ν) (name : String)
    (result : Terminal ν) (number : Nat) (other : String) :
    (world.memoize scope name result).recordAt number other =
      if number = scope.number ∧ other = name ∧ number < world.size then
        some ((world.recordAt number other).getD result)
      else world.recordAt number other := by
  change ((world.cells.modify scope.number fun cell =>
    ⟨cell.scope, cell.records.insertNew name result⟩)[number]?.bind fun cell =>
      cell.records.find? other) = _
  rw [Array.getElem?_modify, recordAt]
  by_cases hnumber : scope.number = number
  · rw [if_pos hnumber]
    cases hcell : world.cells[number]? with
    | none =>
      have hsize : ¬number < world.size := by
        intro hlt
        rw [Array.getElem?_eq_none_iff] at hcell
        exact absurd hlt (Nat.not_lt.2 hcell)
      rw [if_neg fun h => hsize h.2.2]
      rfl
    | some cell =>
      have hsize : number < world.size := (Array.getElem?_eq_some_iff.1 hcell).1
      change (cell.records.insertNew name result).find? other = _
      rw [Table.find?_insertNew]
      by_cases hname : other = name
      · rw [if_pos hname, if_pos ⟨hnumber.symm, hname, hsize⟩, hname]
        rfl
      · rw [if_neg hname, if_neg fun h => hname h.2.1]
        rfl
  · rw [if_neg hnumber, if_neg fun h => hnumber h.1.symm]

theorem scopeAt_of_cells {world other : World ν σ} (h : other.cells = world.cells)
    (number : Nat) : other.scopeAt number = world.scopeAt number := by
  rw [scopeAt, scopeAt, h]

theorem recordAt_of_cells {world other : World ν σ} (h : other.cells = world.cells)
    (number : Nat) (name : String) : other.recordAt number name = world.recordAt number name := by
  rw [recordAt, recordAt, h]

/-! ## Growth -/

/-- All frames and all records of a world are those of a later world, too. -/
structure Grows (before after : World ν σ) : Prop where
  scope : ∀ {number scope}, before.scopeAt number = some scope →
    after.scopeAt number = some scope
  record : ∀ {number name result}, before.recordAt number name = some result →
    after.recordAt number name = some result
  size : before.size ≤ after.size

namespace Grows

theorem refl (world : World ν σ) : world.Grows world :=
  ⟨id, id, Nat.le_refl _⟩

theorem trans {first second third : World ν σ} (h : first.Grows second)
    (h' : second.Grows third) : first.Grows third :=
  ⟨fun hs => h'.scope (h.scope hs), fun hr => h'.record (h.record hr),
    Nat.le_trans h.size h'.size⟩

theorem of_cells {before after : World ν σ} (h : after.cells = before.cells) :
    before.Grows after where
  scope hs := by rw [scopeAt_of_cells h, hs]
  record hr := by rw [recordAt_of_cells h, hr]
  size := by
    have hsize : before.cells.size = after.cells.size := by rw [h]
    exact Nat.le_of_eq hsize

end Grows

theorem grows_newScope (world : World ν σ) (make : Nat → Scope ν) :
    world.Grows (world.newScope make).2 where
  scope hs := by
    rw [scopeAt_newScope, if_neg (Nat.ne_of_lt (lt_size_of_scopeAt hs)), hs]
  record hr := by rw [recordAt_newScope, hr]
  size := by
    rw [size_newScope]
    exact Nat.le_succ _

theorem grows_newThunks (calling : Scope ν) (exprs : List (Expr ν)) (world : World ν σ) :
    world.Grows (world.newThunks calling exprs).2 := by
  induction exprs generalizing world with
  | nil => exact .refl world
  | cons expr rest ih => exact (grows_newScope world _).trans (ih (world.newThunk expr calling).2)

theorem grows_newCall (closure : Scope ν) (arguments : List (Expr ν)) (calling : Scope ν)
    (world : World ν σ) : world.Grows (world.newCall closure arguments calling).2 :=
  (grows_newThunks calling arguments world).trans (grows_newScope _ _)

theorem grows_memoize (world : World ν σ) (scope : Scope ν) (name : String)
    (result : Terminal ν) : world.Grows (world.memoize scope name result) where
  scope hs := by rw [scopeAt_memoize, hs]
  record {number other old} hr := by
    rw [recordAt_memoize]
    by_cases h : number = scope.number ∧ other = name ∧ number < world.size
    · rw [if_pos h, hr]
      rfl
    · rw [if_neg h, hr]
  size := Nat.le_of_eq (size_memoize world scope name result).symm

theorem grows_memoizeAll (result : Terminal ν) (owners : List (Scope ν × String))
    (world : World ν σ) : world.Grows (world.memoizeAll result owners) := by
  induction owners generalizing world with
  | nil => exact .refl world
  | cons owner owners ih => exact (grows_memoize world _ _ _).trans (ih _)

/-- Every change that an evaluation makes is growth if the changes of natives are. -/
theorem Change.grows {invoke : Invoke ν σ}
    (hnative : ∀ method arguments scope world,
      World.Grows world (invoke method arguments scope world).2)
    {before after : World ν σ} (h : Change invoke before after) : before.Grows after := by
  cases h with
  | event event => exact .of_cells rfl
  | value payload => exact .of_cells rfl
  | closure bindings body parent => exact grows_newScope before _
  | call closure arguments calling => exact grows_newCall closure arguments calling before
  | record scope name result => exact grows_memoize before scope name result
  | native method arguments scope => exact hnative method arguments scope before

end World

/-! ## Laws of worlds -/

/-- The law that the world only ever changes as a preorder says. -/
def Law.ofWorlds (relation : World ν σ → World ν σ → Prop)
    (refl : ∀ world, relation world world)
    (trans : ∀ {first second third}, relation first second → relation second third →
      relation first third) : Law ν σ where
  holds before _ after := before.steps ≤ after.steps ∧ relation before.world after.world
  refl machine := ⟨Nat.le_refl _, refl machine.world⟩
  trans h h' := ⟨Nat.le_trans h.1 h'.1, trans h.2 h'.2⟩
  steps h := h.1

theorem Law.ofWorlds_lawful {engine : Engine ν σ} {relation : World ν σ → World ν σ → Prop}
    {refl : ∀ world, relation world world}
    {trans : ∀ {first second third}, relation first second → relation second third →
      relation first third}
    (change : ∀ {before after}, World.Change engine.invoke before after →
      relation before after) :
    engine.Lawful (Law.ofWorlds relation refl trans) where
  tick machine _ := by
    rw [Run.tick_apply]
    by_cases h : engine.limits.maxSteps < machine.steps + 1
    · rw [if_pos h]
      exact ⟨Nat.le_succ _, refl _⟩
    · rw [if_neg h]
      exact ⟨Nat.le_succ _, refl _⟩
  change _ _ _ h := ⟨Nat.le_refl _, change h⟩
  failed machine _ := ⟨Nat.le_refl _, refl _⟩
  tooDeep machine := ⟨Nat.le_refl _, refl _⟩
  finished h := ⟨h.1, trans h.2 (change (.event _ _))⟩

end CallByNeed
