import CallByNeed.Proofs.Lexical.Calls
import CallByNeed.Proofs.Reuse.Ready
import CallByNeed.Proofs.Runs.Traits

/-! # Runs that records of a ready-made frame do not matter to

Whether an identifier of a ready-made frame is recorded or not, its resolution takes as many steps:
what is recorded is what it is bound to, and either is resolved in one more step. So a run from
interchangeable machines comes to the same end, in as many steps, and leaves interchangeable
machines (`Run.Indifferent`). This is a trait of runs (`Trait.indifferent`), and evaluations have it
if natives do not look at records (`Engine.has_indifferent`).
-/

namespace CallByNeed
set_option autoImplicit false

variable {ν σ α β : Type}

/-- Machines with the same count of steps in interchangeable worlds. -/
structure Machine.Interchangeable (root : Scope ν) (machine machine' : Machine ν σ) : Prop where
  steps : machine.steps = machine'.steps
  worlds : machine.world.Interchangeable root machine'.world

namespace Run

/-- The same result or the same stop, on interchangeable machines. -/
structure SameEnd (root : Scope ν) (first second : Except Stop α × Machine ν σ) : Prop where
  outcome : first.1 = second.1
  machines : first.2.Interchangeable root second.2

theorem SameEnd.symm {root : Scope ν} {first second : Except Stop α × Machine ν σ}
    (h : SameEnd root first second) : SameEnd root second first :=
  ⟨h.outcome.symm, h.machines.steps.symm, h.machines.worlds.symm⟩

theorem SameEnd.trans {root : Scope ν} {first second third : Except Stop α × Machine ν σ}
    (h : SameEnd root first second) (h' : SameEnd root second third) : SameEnd root first third :=
  ⟨h.outcome.trans h'.outcome, h.machines.steps.trans h'.machines.steps,
    h.machines.worlds.trans h'.machines.worlds⟩

/-- As long as the root is the only scope of its number within reach of these scopes, the run ends
the same from interchangeable machines, and so it is for the scopes of what the run comes to. -/
def Indifferent (root : Scope ν) (scopes : α → List (Scope ν)) (needs : List (Scope ν))
    (run : Run ν σ α) : Prop :=
  root.Sole needs → ∀ machine machine' : Machine ν σ, machine.Interchangeable root machine' →
    SameEnd root (run machine) (run machine') ∧
      ∀ result, (run machine).1 = .ok result → root.Sole (scopes result)

variable {root : Scope ν} {scopes : β → List (Scope ν)} {needs : List (Scope ν)}

/-! ## Composition -/

theorem Indifferent.bind {between : α → List (Scope ν)} {run : Run ν σ α}
    {next : α → Run ν σ β} {property : α → Prop} (h : Indifferent root between needs run)
    (hyields : Yields property run)
    (hn : ∀ result, property result →
      Indifferent root scopes (between result ++ needs) (next result)) :
    Indifferent root scopes needs (run >>= next) := by
  intro hsole machine machine' hmachines
  obtain ⟨⟨houtcome, hafter⟩, hresult⟩ := h hsole machine machine' hmachines
  rw [bind_apply, bind_apply]
  rcases hrun : run machine with ⟨outcome, after⟩
  rcases hrun' : run machine' with ⟨outcome', after'⟩
  rw [hrun] at houtcome hafter hresult
  rw [hrun'] at houtcome hafter
  cases houtcome
  cases outcome with
  | error stop => exact ⟨⟨rfl, hafter⟩, nofun⟩
  | ok result =>
    have hnext := hn result (hyields machine result after hrun)
    exact hnext ((hresult result rfl).append hsole) after after' hafter

theorem indifferent_pure {result : β} (h : Scope.Grasps needs (scopes result)) :
    Indifferent root scopes needs (pure result : Run ν σ β) := by
  intro hsole machine machine' hmachines
  refine ⟨⟨rfl, hmachines⟩, fun other hresult => ?_⟩
  cases hresult
  exact hsole.of_grasps h

theorem indifferent_throw (stop : Stop) :
    Indifferent root scopes needs (throw stop : Run ν σ β) :=
  fun _ _ _ hmachines => ⟨⟨rfl, hmachines⟩, nofun⟩

end Run

/-- Runs that the records of the root do not matter to. -/
def Trait.indifferent (root : Scope ν) : Trait ν σ where
  holds := Run.Indifferent root
  of_pure := Run.indifferent_pure
  of_throw := Run.indifferent_throw
  of_bind := Run.Indifferent.bind
  of_grasps h hneeds hsole := h (hsole.of_grasps hneeds)

/-! ## Parts -/

namespace Run

variable {root : Scope ν} {needs : List (Scope ν)}

theorem indifferent_tick (limits : Limits) :
    Has (.indifferent root) (fun _ => []) needs (tick limits : Run ν σ Unit) := by
  intro _ machine machine' hmachines
  rw [tick_apply, tick_apply, hmachines.steps]
  by_cases h : limits.maxSteps < machine'.steps + 1
  · rw [if_pos h, if_pos h]
    exact ⟨⟨rfl, rfl, hmachines.worlds⟩, nofun⟩
  · rw [if_neg h, if_neg h]
    exact ⟨⟨rfl, rfl, hmachines.worlds⟩, fun _ _ => .nil⟩

theorem indifferent_emit (event : Event ν) :
    Has (.indifferent root) (fun _ => []) needs (emit event : Run ν σ Unit) :=
  fun _ _ _ hmachines =>
    ⟨⟨rfl, hmachines.steps, hmachines.worlds.emit event⟩, fun _ _ => .nil⟩

/-- Records of other frames than the root. -/
theorem indifferent_record (head : Head ν) {owner : Scope ν} (howner : owner.number ≠ root.number)
    (name : String) :
    Has (.indifferent root) (fun _ => []) needs (record head [(owner, name)] : Run ν σ Unit) := by
  cases head with
  | closure closure => exact has_pure_nil rfl
  | terminal result =>
    exact fun _ _ _ hmachines =>
      ⟨⟨rfl, hmachines.steps, hmachines.worlds.memoize howner name result⟩, fun _ _ => .nil⟩

/-- Changes of the world that give the same in interchangeable worlds. -/
theorem indifferent_withWorld {change : World ν σ → α × World ν σ} {scopes : α → List (Scope ν)}
    (h : root.Sole needs → ∀ {world world' : World ν σ}, world.Interchangeable root world' →
      (change world).1 = (change world').1 ∧
        (change world).2.Interchangeable root (change world').2 ∧
        root.Sole (scopes (change world).1)) :
    Has (.indifferent root) scopes needs (withWorld change) := by
  intro hsole machine machine' hmachines
  obtain ⟨hresult, hworlds, hscopes⟩ := h hsole hmachines.worlds
  refine ⟨⟨congrArg Except.ok hresult, hmachines.steps, hworlds⟩, fun result hok => ?_⟩
  cases hok
  exact hscopes

end Run

/-- The natives do not look at records: whatever is recorded in one of the frames that there are,
they give the same, and they leave the same but for these records. -/
def Invoke.IgnoresRecords (invoke : Invoke ν σ) : Prop :=
  ∀ method arguments scope {number} {world world' : World ν σ}, number < world.size →
    world.SameBut number world' →
    let after := invoke method arguments scope world
    let after' := invoke method arguments scope world'
    after.1 = after'.1 ∧ after.2.SameBut number after'.2

/-- Programs that only build values and change the state of the host look at no records. -/
theorem Program.Gives.run_sameBut {invoke : Invoke ν σ} {program : Program ν σ} {expected : Expr ν}
    (h : program.Gives expected) {number : Nat} {world world' : World ν σ}
    (hsame : world.SameBut number world') :
    (program.run invoke world).1 = (program.run invoke world').1 ∧
      (program.run invoke world).2.SameBut number (program.run invoke world').2 := by
  induction h generalizing world world' with
  | done _ => exact ⟨rfl, hsame⟩
  | @newValue payload next _ _ ih =>
    have hrun (world : World ν σ) : (Program.newValue payload next).run invoke world =
        (next ⟨.built world.values, payload⟩).run invoke (world.buildValue payload).2 := rfl
    rw [hrun, hrun, ← hsame.values]
    exact ih world.values (hsame.newValue .built payload).2
  | @host change next _ _ ih =>
    have hrun (world : World ν σ) : (Program.host change next).run invoke world =
        (next world.host).run invoke (world.updateHost fun state => (state, change state)).2 := rfl
    rw [hrun, hrun, ← hsame.host]
    exact ih world.host (hsame.updateHost change)

theorem Host.ignoresRecords {host : Host ν σ}
    {expected : Native ν → List (Expr ν) → Scope ν → Expr ν}
    (h : ∀ method arguments scope,
      (host method arguments scope).Gives (expected method arguments scope)) (levels : Nat) :
    (host.invokeAt (levels + 1)).IgnoresRecords :=
  fun method arguments scope _ _ _ _ hsame => (h method arguments scope).run_sameBut hsame

namespace Engine

/-! ## Identifiers -/

section Identifiers

variable {root : Scope ν} {loop : Expr ν → Scope ν → Run ν σ (Head ν)} {name : String}

/-- An identifier of a ready-made frame ends as what it is bound to does, recorded or not. -/
theorem identifierRun_root (hterminal : ∀ expr inner machine head, expr.isTerminal = true →
      (loop expr inner machine).1 = .ok head → head.toExpr = expr)
    {scope : Scope ν} {bound : Expr ν}
    (hfind : scope.find name = .ok (bound, root)) (hself : root.find name = .ok (bound, root))
    (hbound : bound.isTerminal = true) {machine : Machine ν σ}
    (hmachine : machine.world.RecordsBound root)
    (hafter : (loop bound root machine).2.Interchangeable root (loop bound root machine).2) :
    Run.SameEnd root (identifierRun loop name scope machine) (loop bound root machine) := by
  cases hrecord : machine.world.memoized root name with
  | some result =>
    have hsame := hmachine name result hrecord
    rw [hself] at hsame
    cases hsame
    rw [identifierRun_recorded hfind hrecord]
    exact ⟨rfl, hafter⟩
  | none =>
    rw [identifierRun_unrecorded hfind hrecord, Run.bind_apply]
    have hhead := fun head => hterminal bound root machine head hbound
    revert hafter hhead
    generalize loop bound root machine = ended
    obtain ⟨outcome, after⟩ := ended
    intro hafter hhead
    cases outcome with
    | error stop => exact ⟨rfl, hafter⟩
    | ok head =>
      cases head with
      | closure closure => exact ⟨rfl, hafter⟩
      | terminal result =>
        cases hhead _ rfl
        exact ⟨rfl, hafter.steps, .memoize_root hafter.worlds.made hafter.worlds.ready hself⟩

/-- An identifier in a scope from which the root is the only one of its number. -/
theorem identifierRun_indifferent (hready : root.ReadyMade)
    (hterminal : ∀ expr inner machine head, expr.isTerminal = true →
      (loop expr inner machine).1 = .ok head → head.toExpr = expr)
    (hloop : ∀ expr inner, Run.Has (.indifferent root) Head.scopes (inner :: expr.scopes)
      (loop expr inner)) (name : String) (scope : Scope ν) :
    Run.Has (.indifferent root) Head.scopes [scope] (identifierRun loop name scope) := by
  intro hsole machine machine' hmachines
  cases hfind : scope.find name with
  | error failure =>
    rw [identifierRun_missing hfind]
    exact Run.indifferent_throw _ hsole machine machine' hmachines
  | ok found =>
    obtain ⟨bound, owner⟩ := found
    have hneeds : root.Sole (owner :: bound.scopes) := hsole.of_grasps (.find hfind)
    obtain ⟨howner, hcontents, hself⟩ := Scope.find_owner
      (fun (h : Scope.Grasped [scope] _) hparent => h.parent hparent)
      (.known List.mem_cons_self) hfind
    by_cases hroot : owner.number = root.number
    · cases hsole owner howner hroot
      obtain ⟨hsame, hresult⟩ := hloop bound root hneeds machine machine' hmachines
      have hend := identifierRun_root hterminal hfind hself (hready bound hcontents)
        hmachines.worlds.ready (hsame.trans hsame.symm).machines
      have hend' := identifierRun_root hterminal hfind hself (hready bound hcontents)
        hmachines.worlds.ready' (hsame.symm.trans hsame).machines
      refine ⟨(hend.trans hsame).trans hend'.symm, fun result h => ?_⟩
      exact hresult result (hend.outcome.symm.trans h)
    · have hrecord : machine'.world.memoized owner name = machine.world.memoized owner name :=
        (hmachines.worlds.same.records hroot name).symm
      cases hold : machine.world.memoized owner name with
      | some result =>
        rw [identifierRun_recorded hfind hold, identifierRun_recorded hfind (hrecord.trans hold)]
        refine hloop result.toExpr owner (hneeds.subset fun inner hm => ?_) machine machine'
          hmachines
        cases result <;> exact List.mem_cons.2 (.inl (List.mem_singleton.1 hm))
      | none =>
        rw [identifierRun_unrecorded hfind hold,
          identifierRun_unrecorded hfind (hrecord.trans hold)]
        refine ((hloop bound owner).bind fun head => ?_) hneeds machine machine' hmachines
        exact (Run.indifferent_record head hroot name).then fun _ => Run.has_pure_append head _

end Identifiers

/-- The resolution of what reduces no further comes to it, if to anything. -/
theorem resolveLoop_isTerminal (engine : Engine ν σ) (nested : Nested ν σ) (rounds : Nat)
    (expr : Expr ν) (scope : Scope ν) (machine : Machine ν σ) (head : Head ν)
    (hexpr : expr.isTerminal = true)
    (h : (engine.resolveLoop nested rounds expr scope [] machine).1 = .ok head) :
    head.toExpr = expr := by
  cases rounds with
  | zero =>
    rw [resolveLoop, Run.exhaust_apply] at h
    cases h
  | succ rounds =>
    rw [resolveLoop_succ, step_eq, bind_assoc, Run.bind_apply, Run.tick_apply] at h
    by_cases hlimit : engine.limits.maxSteps < machine.steps + 1
    · rw [if_pos hlimit] at h
      cases h
    · rw [if_neg hlimit] at h
      cases expr with
      | value it => cases h; rfl
      | native method => cases h; rfl
      | failure failure => cases h
      | application | lambda | identifier | scope => cases hexpr

/-! ## Evaluations -/

section Evaluations

variable {engine : Engine ν σ} {root : Scope ν} {code : ScopeKind → Nat → Code ν}
  (hnatives : engine.invoke.ComputesByDepth code) (hignores : engine.invoke.IgnoresRecords)
include hnatives hignores

theorem indifferent_native (method : Native ν) (arguments : List (Expr ν)) (scope : Scope ν) :
    Run.Has (.indifferent root) Expr.scopes (scope :: scopesAll arguments)
      (Run.withWorld (engine.invoke method arguments scope)) := by
  refine Run.indifferent_withWorld fun hsole world world' hworlds => ?_
  obtain ⟨hresult, hsame⟩ := hignores method arguments scope hworlds.made hworlds.same
  have hsize := hnatives.size method arguments scope world
  refine ⟨hresult, ⟨hsame, Nat.lt_of_lt_of_le hworlds.made hsize, ?_, ?_⟩, ?_⟩
  · exact hworlds.ready.of_records
      (hnatives.records method arguments scope world hworlds.made)
  · exact hworlds.ready'.of_records
      (hnatives.records method arguments scope world' hworlds.symm.made)
  · refine hsole.subset fun inner hm => List.mem_cons_of_mem _ ?_
    rw [← Expr.scopes_forget, hnatives.result, Expr.scopes_forget] at hm
    exact (hnatives.uniform scope.kind scope.depth).scopes hm

theorem has_indifferent (hready : root.ReadyMade) : engine.Has (.indifferent root) where
  tick := Run.indifferent_tick engine.limits
  emit := Run.indifferent_emit
  newClosure _ _ _ := Run.indifferent_withWorld fun hsole _ _ h => h.newClosure hsole
  newCall _ _ _ := Run.indifferent_withWorld fun hsole _ _ h => h.newCall hsole
  native := indifferent_native hnatives hignores
  identifier nested rounds :=
    identifierRun_indifferent hready (engine.resolveLoop_isTerminal nested rounds)

end Evaluations

end Engine
end CallByNeed
