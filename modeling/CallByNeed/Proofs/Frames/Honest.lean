import CallByNeed.Host.Natives
import CallByNeed.Proofs.Frames.Runs

/-! # Hosts that forge no frames

A native method knows the scopes it is handed, those that the host has put away, and those it gets
in answer to its requests. From there it can follow parents and what frames hold. An honest program
uses no other scopes, so it keeps worlds orderly (`Program.Honest.passes`). The standard natives are
honest (`standardHost_honest`).
-/

namespace CallByNeed
set_option autoImplicit false

variable {ν σ : Type}

open Scope (Grasps)

/-- A program that uses only scopes within its reach. The state of the host holds scopes, too: the
program learns of them when it reads the state, and it may put away what it knows. -/
inductive Program.Honest (held : σ → List (Scope ν)) : List (Scope ν) → Program ν σ → Prop where
  | done {known : List (Scope ν)} {result : Expr ν} (hresult : Grasps known result.scopes) :
      Honest held known (.done result)
  | newValue {known : List (Scope ν)} {payload : Payload ν} {next : Value ν → Program ν σ}
      (hnext : ∀ value, Honest held known (next value)) :
      Honest held known (.newValue payload next)
  | newRoot {known : List (Scope ν)} {bindings : Table (Expr ν)} {next : Scope ν → Program ν σ}
      (hbindings : Grasps known bindings.scopes)
      (hnext : ∀ root, Honest held (root :: known) (next root)) :
      Honest held known (.newRoot bindings next)
  | newThunk {known : List (Scope ν)} {deferred : Expr ν} {calling : Scope ν}
      {next : Scope ν → Program ν σ} (huses : Grasps known (calling :: deferred.scopes))
      (hnext : ∀ thunk, Honest held (thunk :: known) (next thunk)) :
      Honest held known (.newThunk deferred calling next)
  | newCall {known : List (Scope ν)} {closure calling : Scope ν} {arguments : List (Expr ν)}
      {next : Scope ν → Program ν σ}
      (huses : Grasps known (closure :: calling :: scopesAll arguments))
      (hnext : ∀ frame, Honest held (frame :: known) (next frame)) :
      Honest held known (.newCall closure arguments calling next)
  | memoized {known : List (Scope ν)} {scope : Scope ν} {name : String}
      {next : Option (Terminal ν) → Program ν σ}
      (hnext : ∀ record, Honest held known (next record)) :
      Honest held known (.memoized scope name next)
  | host {known : List (Scope ν)} {change : σ → σ} {next : σ → Program ν σ}
      (hchange : ∀ before, Grasps (held before ++ known) (held (change before)))
      (hnext : ∀ before, Honest held (held before ++ known) (next before)) :
      Honest held known (.host change next)
  | evaluate {known : List (Scope ν)} {limits : Limits} {request : Evaluation ν}
      {next : Expr ν → Nat → Program ν σ} (hrequest : Grasps known request.scopes)
      (hnext : ∀ result steps, Honest held (result.scopes ++ known) (next result steps)) :
      Honest held known (.evaluate limits request next)

/-- All native methods of the host are honest programs of their arguments and the calling scope. -/
def Host.Honest (held : σ → List (Scope ν)) (host : Host ν σ) : Prop :=
  ∀ method arguments scope,
    Program.Honest held (scope :: scopesAll arguments) (host method arguments scope)

/-! ## Honest programs in orderly worlds -/

/-- The result of an evaluation, a failure included, holds only stored scopes. -/
theorem Evaluated.stored_result {held : σ → List (Scope ν)} {before : World ν σ}
    {evaluated : Evaluated ν σ (Expr ν)}
    (h : World.Passes held Expr.scopes before evaluated.outcome evaluated.world) :
    evaluated.world.StoresAll evaluated.result.scopes := by
  obtain ⟨outcome, steps, after⟩ := evaluated
  cases outcome with
  | ok result => exact h.stored rfl
  | error stop => exact .nil

theorem World.Passes.after {α : Type} {held : σ → List (Scope ν)} {scopes : α → List (Scope ν)}
    {before middle after : World ν σ} {outcome : Except Stop α}
    (h : World.Passes held scopes middle outcome after) (hgrows : before.Grows middle) :
    World.Passes held scopes before outcome after :=
  ⟨hgrows.trans h.grows, h.orderly, h.stored⟩

/-- One move of a program. An evaluation that it starts is one move. -/
def Program.advance (invoke : Invoke ν σ) :
    Program ν σ → World ν σ → Option (Program ν σ × World ν σ)
  | .done _, _ => none
  | .newValue payload next, world =>
      let (value, world) := world.buildValue payload
      some (next value, world)
  | .newRoot bindings next, world =>
      let (scope, world) := world.newRoot bindings
      some (next scope, world)
  | .newThunk deferred calling next, world =>
      let (scope, world) := world.newThunk deferred calling
      some (next scope, world)
  | .newCall closure arguments calling next, world =>
      let (scope, world) := world.newCall closure arguments calling
      some (next scope, world)
  | .memoized scope name next, world => some (next (world.memoized scope name), world)
  | .host change next, world =>
      let (before, world) := world.updateHost fun state => (state, change state)
      some (next before, world)
  | .evaluate limits request next, world =>
      let evaluated := Engine.evaluate ⟨limits, invoke⟩ request world
      some (next evaluated.result evaluated.steps, evaluated.world)

theorem Program.run_advance {invoke : Invoke ν σ} {program more : Program ν σ}
    {world after : World ν σ} (h : program.advance invoke world = some (more, after)) :
    program.run invoke world = more.run invoke after := by
  cases program <;> cases h <;> rfl

/-- An honest program that moves on in an orderly world is still honest in an orderly world. -/
theorem Program.Honest.advance {held : σ → List (Scope ν)} {invoke : Invoke ν σ}
    (hinvoke : invoke.Honest held) {known : List (Scope ν)} {program more : Program ν σ}
    (h : program.Honest held known) {world after : World ν σ} (horderly : world.Orderly held)
    (hknown : world.StoresAll known)
    (hadvance : program.advance invoke world = some (more, after)) :
    world.Grows after ∧ after.Orderly held ∧
      ∃ known, more.Honest held known ∧ after.StoresAll known := by
  cases h with
  | done hresult => cases hadvance
  | @newValue _ payload next hnext =>
    cases hadvance
    have hcells : (world.buildValue payload).2.cells = world.cells := rfl
    exact ⟨.of_cells hcells, horderly.of_cells hcells rfl, known, hnext _,
      hknown.grows (.of_cells hcells)⟩
  | @newRoot _ bindings next hbindings hnext =>
    cases hadvance
    have hmakes : World.Makes world (world.newRoot bindings).2 :=
      .root bindings (hbindings.stored horderly.consistent hknown)
    have hroot : (world.newRoot bindings).2.Stores (world.newRoot bindings).1 :=
      World.stores_newScope world (fun number => .root number bindings) rfl
    exact ⟨hmakes.grows, hmakes.orderly horderly (horderly.held.grows hmakes.grows), _, hnext _,
      .cons hroot (hknown.grows hmakes.grows)⟩
  | @newThunk _ deferred calling next huses hnext =>
    cases hadvance
    have hstored := huses.stored horderly.consistent hknown
    have hmakes : World.Makes world (world.newThunk deferred calling).2 :=
      .thunk deferred calling hstored.tail hstored.head
    have hthunk : (world.newThunk deferred calling).2.Stores (world.newThunk deferred calling).1 :=
      World.stores_newScope world (fun number => .thunk number deferred calling) rfl
    exact ⟨hmakes.grows, hmakes.orderly horderly (horderly.held.grows hmakes.grows), _, hnext _,
      .cons hthunk (hknown.grows hmakes.grows)⟩
  | @newCall _ closure calling arguments next huses hnext =>
    cases hadvance
    have hstored := huses.stored horderly.consistent hknown
    have hgrows := World.grows_newCall closure arguments calling world
    have hcall := horderly.consistent.newCall hstored.head hstored.tail.tail hstored.tail.head
    exact ⟨hgrows, horderly.newCall hstored.head hstored.tail.tail hstored.tail.head, _, hnext _,
      .cons hcall.2 (hknown.grows hgrows)⟩
  | memoized hnext =>
    cases hadvance
    exact ⟨.refl _, horderly, known, hnext _, hknown⟩
  | @host _ change next hchange hnext =>
    cases hadvance
    have hboth := horderly.held.append hknown
    have hcells : (world.updateHost fun state => (state, change state)).2.cells = world.cells :=
      rfl
    have hmakes : World.Makes world (world.updateHost fun state => (state, change state)).2 :=
      .outside hcells
    have hheld := (hchange world.host).stored horderly.consistent hboth
    exact ⟨hmakes.grows, hmakes.orderly horderly (hheld.grows hmakes.grows), _, hnext _,
      hboth.grows hmakes.grows⟩
  | @evaluate _ limits request next hrequest hnext =>
    cases hadvance
    have hpasses : World.Passes held Expr.scopes world
        (Engine.evaluate ⟨limits, invoke⟩ request world).outcome
        (Engine.evaluate ⟨limits, invoke⟩ request world).world :=
      Engine.evaluate_passes hinvoke request horderly
        (hrequest.stored horderly.consistent hknown)
    exact ⟨hpasses.grows, hpasses.orderly, _, hnext _ _,
      (Evaluated.stored_result hpasses).append (hknown.grows hpasses.grows)⟩

/-- An honest program passes to an orderly world if what it moves on to does. -/
theorem Program.Honest.passes_of_advance {held : σ → List (Scope ν)} {invoke : Invoke ν σ}
    (hinvoke : invoke.Honest held) {known : List (Scope ν)} {program more : Program ν σ}
    {world after : World ν σ} (hadvance : program.advance invoke world = some (more, after))
    (hmore : ∀ {known}, more.Honest held known → ∀ {world}, world.Orderly held →
      world.StoresAll known → World.Passes held Expr.scopes world
        (.ok (more.run invoke world).1) (more.run invoke world).2)
    (h : program.Honest held known) (horderly : world.Orderly held)
    (hknown : world.StoresAll known) : World.Passes held Expr.scopes world
      (.ok (program.run invoke world).1) (program.run invoke world).2 := by
  obtain ⟨hgrows, hafter, _, hhonest, hstored⟩ := h.advance hinvoke horderly hknown hadvance
  rw [Program.run_advance hadvance]
  exact (hmore hhonest hafter hstored).after hgrows

/-- An honest program keeps worlds orderly, and the scopes of its result are stored. -/
theorem Program.Honest.passes {held : σ → List (Scope ν)} {invoke : Invoke ν σ}
    (hinvoke : invoke.Honest held) {known : List (Scope ν)} {program : Program ν σ}
    (h : program.Honest held known) {world : World ν σ} (horderly : world.Orderly held)
    (hknown : world.StoresAll known) :
    World.Passes held Expr.scopes world (.ok (program.run invoke world).1)
      (program.run invoke world).2 := by
  induction program generalizing known world with
  | done result =>
    obtain ⟨hresult⟩ := h
    refine ⟨.refl _, horderly, fun heq => ?_⟩
    cases heq
    exact hresult.stored horderly.consistent hknown
  | newValue payload next ih => exact passes_of_advance hinvoke rfl (ih _) h horderly hknown
  | newRoot bindings next ih => exact passes_of_advance hinvoke rfl (ih _) h horderly hknown
  | newThunk deferred calling next ih =>
    exact passes_of_advance hinvoke rfl (ih _) h horderly hknown
  | newCall closure arguments calling next ih =>
    exact passes_of_advance hinvoke rfl (ih _) h horderly hknown
  | memoized scope name next ih => exact passes_of_advance hinvoke rfl (ih _) h horderly hknown
  | host change next ih => exact passes_of_advance hinvoke rfl (ih _) h horderly hknown
  | evaluate limits request next ih =>
    exact passes_of_advance hinvoke rfl (ih _ _) h horderly hknown

/-- Native methods of an honest host are honest however deeply they start evaluations. -/
theorem Host.Honest.invokeAt {held : σ → List (Scope ν)} {host : Host ν σ}
    (h : host.Honest held) (levels : Nat) : (host.invokeAt levels).Honest held := by
  induction levels with
  | zero =>
    intro method arguments scope world horderly _
    refine ⟨.refl _, horderly, fun heq => ?_⟩
    cases heq
    exact .nil
  | succ levels ih =>
    intro method arguments scope world horderly hstored
    exact (h method arguments scope).passes ih horderly hstored

/-! ## The standard natives -/

namespace Standard

/-- The scopes in the constants that the host holds. -/
def heldScopes (state : HostState) : List (Scope StandardNative) :=
  scopesAll state.constants.toList

section Natives

variable {known : List (Scope StandardNative)}

theorem honest_refuse (message : String) :
    Program.Honest heldScopes known (.refuse message : HostProgram) :=
  .done .nil

theorem honest_value (payload : Payload StandardNative) :
    Program.Honest heldScopes known (.value payload : HostProgram) :=
  .newValue fun _ => .done .nil

theorem honest_integer (value : Int) : Program.Honest heldScopes known (integer value) :=
  honest_value _

theorem honest_accumulate (name : String) (arguments : List HostExpr) (start : Int)
    (join : Int → Int → Int) :
    Program.Honest heldScopes known (accumulate name arguments start join) := by
  unfold accumulate
  cases arguments.mapM int? with
  | none => exact honest_refuse _
  | some integers => exact honest_integer _

theorem honest_withTwoIntegers (name : String) (arguments : List HostExpr)
    {next : Int → Int → HostProgram}
    (hnext : ∀ first second, Program.Honest heldScopes known (next first second)) :
    Program.Honest heldScopes known (withTwoIntegers name arguments next) := by
  unfold withTwoIntegers
  split
  · exact hnext _ _
  · exact honest_refuse _

theorem honest_withFirst (message : String) (arguments : List HostExpr)
    {next : HostExpr → HostProgram}
    (hnext : ∀ argument ∈ arguments, Program.Honest heldScopes known (next argument)) :
    Program.Honest heldScopes known (withFirst message arguments next) := by
  cases arguments with
  | nil => exact honest_refuse _
  | cons argument rest => exact hnext argument List.mem_cons_self

theorem honest_withName (message : String) (arguments : List HostExpr)
    {next : String → HostProgram}
    (hnext : ∀ name, Program.Honest heldScopes known (next name)) :
    Program.Honest heldScopes known (withName message arguments next) := by
  unfold withName
  split
  · exact hnext _
  · exact honest_refuse _

end Natives

/-- The standard natives use the scopes of their arguments, the calling scope and what these lead
to, and the constants that the host holds. -/
theorem program_honest (code : StandardNative) (arguments : List HostExpr)
    (scope : Scope StandardNative) :
    Program.Honest heldScopes (scope :: scopesAll arguments) (program code arguments scope) := by
  have hargument : ∀ argument ∈ arguments,
      Grasps (scope :: scopesAll arguments) argument.scopes := fun argument hm =>
    .of_subset fun inner hinner =>
      List.mem_cons_of_mem _ (mem_scopesAll.2 ⟨argument, hm, hinner⟩)
  have hscope : Scope.Grasped (scope :: scopesAll arguments) scope := .known List.mem_cons_self
  cases code with
  | add | mul => exact honest_accumulate _ _ _ _
  | sub => exact honest_withTwoIntegers _ _ fun _ _ => honest_integer _
  | lt | eq | pair => exact honest_withTwoIntegers _ _ fun _ _ => honest_value _
  | choose =>
    simp only [program]
    split
    · rename_i condition yes no
      cases bool? condition with
      | none => exact honest_refuse _
      | some truth =>
        cases truth with
        | true => exact .done (hargument yes (by simp))
        | false => exact .done (hargument no (by simp))
    · exact honest_refuse _
  | first => exact honest_withFirst _ _ fun argument hm => .done (hargument argument hm)
  | last =>
    exact honest_withFirst _ _ fun argument hm =>
      .done (hargument argument (List.mem_reverse.1 hm))
  | count => exact honest_integer _
  | concat =>
    simp only [program]
    split
    · exact honest_value _
    · exact honest_refuse _
  | display => exact honest_value _
  | symbol => exact honest_withName _ _ fun _ => .done .nil
  | fail => exact honest_refuse _
  | tick =>
    refine .host (fun before => ?_) fun _ => honest_integer _
    exact .of_subset fun _ hm => List.mem_append_left _ hm
  | call =>
    cases arguments with
    | nil => exact honest_refuse _
    | cons operator rest =>
      exact .done (.of_subset fun inner hm => List.mem_cons_of_mem _ hm)
  | delay =>
    refine honest_withFirst _ _ fun argument hm => .done ?_
    have hblock : (Expr.block argument).scopes = argument.scopes := by
      show argument.scopes ++ [] = _
      rw [List.append_nil]
    rw [hblock]
    exact hargument argument hm
  | thunk =>
    refine honest_withFirst _ _ fun argument hm => .newThunk ?_ fun thunk => .done (.single ?_)
    · intro inner hinner
      rcases List.mem_cons.1 hinner with rfl | hdeferred
      · exact hscope
      · exact hargument argument hm inner hdeferred
    · exact .known List.mem_cons_self
  | here => exact .done (.single hscope)
  | up =>
    simp only [program]
    split
    · rename_i parent hparent
      exact .done (.single (hscope.parent hparent))
    · exact honest_refuse _
  | peek => exact honest_withName _ _ fun name => .done (hscope.lookup name)
  | memo => exact honest_withName _ _ fun _ => .memoized fun _ => honest_value _
  | depth => exact honest_integer _
  | argc =>
    simp only [program]
    split
    · exact honest_integer _
    · exact honest_integer _
  | force =>
    refine honest_withFirst _ _ fun argument hm => .evaluate ?_ fun result steps => .done ?_
    · intro inner hinner
      rcases List.mem_cons.1 hinner with rfl | hdeferred
      · exact hscope
      · exact hargument argument hm inner hdeferred
    · exact .of_subset fun inner hinner => List.mem_append_left _ hinner
  | constant index =>
    refine .host (fun before => .of_subset fun _ hm => List.mem_append_left _ hm) fun before => ?_
    cases hconstant : before.constants[index]? with
    | none => exact honest_refuse _
    | some expr =>
      refine .done (.of_subset fun inner hm => List.mem_append_left _ ?_)
      have hmem : expr ∈ before.constants.toList :=
        Array.mem_toList_iff.2 (Array.mem_of_getElem? hconstant)
      exact mem_scopesAll.2 ⟨expr, hmem, hm⟩

end Standard

theorem standardHost_honest : standardHost.Honest Standard.heldScopes :=
  fun method arguments scope => Standard.program_honest method.code arguments scope

end CallByNeed
