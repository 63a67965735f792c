import CallByNeed.Proofs.Worlds.Growth

/-! # What making frames adds

A new frame is added after all others, without a record. So making a closure adds one frame
(`World.newScope_eq`), and a call adds a thunk for each argument and then a single call frame that
holds them (`World.newCall_eq`, `World.callFrames_newCall`).
-/

namespace CallByNeed
set_option autoImplicit false

variable {ν σ : Type}

/-- The thunks of deferred arguments, in order, the first of them with this number. -/
def Scope.thunks (number : Nat) (calling : Scope ν) (arguments : List (Expr ν)) :
    List (Scope ν) :=
  (arguments.zipIdx number).map fun argument => .thunk argument.2 argument.1 calling

namespace World

/-- The world with these frames in addition, none of which has a record. -/
def addFrames (made : List (Scope ν)) (world : World ν σ) : World ν σ :=
  ⟨world.cells ++ (made.map fun scope => ⟨scope, .empty⟩).toArray, world.values, world.host,
    world.events⟩

theorem addFrames_nil (world : World ν σ) : world.addFrames [] = world := by
  show World.mk (world.cells ++ #[]) world.values world.host world.events = world
  rw [Array.append_empty]

theorem addFrames_append (world : World ν σ) (first second : List (Scope ν)) :
    world.addFrames (first ++ second) = (world.addFrames first).addFrames second := by
  simp only [addFrames, List.map_append, Array.append_assoc, List.append_toArray]

theorem newScope_eq (world : World ν σ) (make : Nat → Scope ν) :
    world.newScope make = (make world.size, world.addFrames [make world.size]) := by
  refine Prod.ext rfl ?_
  show World.mk (world.cells.push _) world.values world.host world.events =
    ⟨world.cells ++ #[_], world.values, world.host, world.events⟩
  rw [Array.push_eq_append]
  rfl

theorem newThunks_eq (world : World ν σ) (calling : Scope ν) (arguments : List (Expr ν)) :
    world.newThunks calling arguments =
      ((Scope.thunks world.size calling arguments).map .scope,
        world.addFrames (Scope.thunks world.size calling arguments)) := by
  induction arguments generalizing world with
  | nil => exact Prod.ext rfl (addFrames_nil world).symm
  | cons argument rest ih =>
    have hthunk : world.newThunk argument calling =
        (.thunk world.size argument calling,
          world.addFrames [.thunk world.size argument calling]) := newScope_eq world _
    have hsize : (world.newThunk argument calling).2.size = world.size + 1 :=
      size_newScope world _
    have hrest := ih (world.newThunk argument calling).2
    rw [hsize, hthunk] at hrest
    rw [newThunks, hthunk]
    dsimp only
    rw [hrest, ← addFrames_append]
    rfl

/-- A call makes a thunk for each argument and then a single call frame, which holds them. -/
theorem newCall_eq (world : World ν σ) (closure calling : Scope ν) (arguments : List (Expr ν)) :
    let thunks := Scope.thunks world.size calling arguments
    let frame := Scope.call (world.size + arguments.length) closure (thunks.map .scope)
    world.newCall closure arguments calling = (frame, world.addFrames (thunks ++ [frame])) := by
  intro thunks frame
  have hsize := size_newThunks calling arguments world
  rw [newThunks_eq] at hsize
  rw [newCall, newThunks_eq]
  dsimp only at hsize ⊢
  rw [newScope_eq, hsize, addFrames_append]

theorem size_addFrames (made : List (Scope ν)) (world : World ν σ) :
    (world.addFrames made).size = world.size + made.length := by
  have hmade : (made.map fun scope => (⟨scope, .empty⟩ : Cell ν)).toArray.size = made.length := by
    rw [List.size_toArray, List.length_map]
  exact Array.size_append.trans (congrArg (world.size + ·) hmade)

/-- Frames are added without a record. -/
theorem recordAt_addFrames (made : List (Scope ν)) (world : World ν σ) (number : Nat)
    (name : String) : (world.addFrames made).recordAt number name = world.recordAt number name := by
  induction made generalizing world with
  | nil => rw [addFrames_nil]
  | cons scope rest ih =>
    have hscope := recordAt_newScope world (fun _ => scope) number name
    rw [newScope_eq] at hscope
    rw [← List.singleton_append, addFrames_append, ih]
    exact hscope

/-! ## Frames -/

/-- The frames, in the order in which they were made. -/
def frames (world : World ν σ) : List (Scope ν) :=
  world.cells.toList.map Cell.scope

theorem frames_addFrames (made : List (Scope ν)) (world : World ν σ) :
    (world.addFrames made).frames = world.frames ++ made := by
  rw [frames, frames, addFrames, Array.toList_append, List.map_append, List.map_map]
  congr
  exact List.map_id made

theorem frames_of_scopeAt {before after : World ν σ}
    (h : ∀ number, after.scopeAt number = before.scopeAt number) : after.frames = before.frames := by
  refine List.ext_getElem? fun number => ?_
  rw [frames, frames, List.getElem?_map, List.getElem?_map, Array.getElem?_toList,
    Array.getElem?_toList]
  exact h number

/-! ## Frames of calls -/

/-- The frames of calls, in the order in which they were made. -/
def callFrames (world : World ν σ) : List (Scope ν) :=
  (world.cells.toList.map Cell.scope).filter fun scope => scope.kind = .call

theorem callFrames_eq (world : World ν σ) :
    world.callFrames = world.frames.filter fun scope => scope.kind = .call := rfl

theorem callFrames_addFrames (made : List (Scope ν)) (world : World ν σ) :
    (world.addFrames made).callFrames =
      world.callFrames ++ made.filter fun scope => scope.kind = .call := by
  rw [callFrames_eq, frames_addFrames, List.filter_append]
  rfl

theorem callFrames_of_frames {before after : World ν σ}
    (h : ∀ number, after.scopeAt number = before.scopeAt number) :
    after.callFrames = before.callFrames := by
  rw [callFrames_eq, frames_of_scopeAt h]
  rfl

/-- The only frame of a call among the thunks of its arguments and itself. -/
theorem callFrames_newCall (world : World ν σ) (closure calling : Scope ν)
    (arguments : List (Expr ν)) :
    (world.newCall closure arguments calling).2.callFrames =
      world.callFrames ++ [(world.newCall closure arguments calling).1] := by
  have hthunks : (Scope.thunks world.size calling arguments).filter
      (fun scope => scope.kind = .call) = [] := by
    rw [List.filter_eq_nil_iff]
    intro scope hscope
    obtain ⟨argument, -, rfl⟩ := List.mem_map.1 hscope
    exact decide_eq_false_iff_not.1 rfl
  rw [newCall_eq]
  dsimp only
  rw [callFrames_addFrames, List.filter_append, hthunks]
  rfl

end World

end CallByNeed
