import CallByNeed.Proofs.Dispatch.Applications

/-! # Exact costs

`Run.Takes` says what a run does under every budget at once. With enough of it the run comes to
something after exactly so many steps, and with less it stops where the budget ends. Costs add up
along a bind (`Run.Takes.bind`), and a resolution costs one step more than what it does after its
first step (`Engine.resolve_takes`), which is said for each kind of expression. So the cost of an
evaluation is put together from those of its parts.
-/

namespace CallByNeed
set_option autoImplicit false

variable {ν σ α β : Type}

/-! ## Runs that stop -/

/-- From this machine the run stops when so many steps are taken in all, and leaves such a world. -/
def Run.Halts (run : Run ν σ α) (machine : Machine ν σ) (stop : Stop) (steps : Nat)
    (left : World ν σ → Prop) : Prop :=
  ∃ world, run machine = (.error stop, ⟨steps, world⟩) ∧ left world

/-- From this machine the run stops with the first step beyond the budget. -/
abbrev Run.Exhausts (run : Run ν σ α) (limits : Limits) (machine : Machine ν σ)
    (left : World ν σ → Prop) : Prop :=
  run.Halts machine (.outOfSteps limits.maxSteps) (limits.maxSteps + 1) left

namespace Run.Halts

variable {machine : Machine ν σ} {stop : Stop} {steps : Nat} {left : World ν σ → Prop}

theorem mono {run : Run ν σ α} {left' : World ν σ → Prop} (h : run.Halts machine stop steps left)
    (hleft : ∀ world, left world → left' world) : run.Halts machine stop steps left' := by
  obtain ⟨world, hrun, hworld⟩ := h
  exact ⟨world, hrun, hleft world hworld⟩

theorem of_eq {run other : Run ν σ α} {start : Machine ν σ} (h : run machine = other start)
    (hother : other.Halts start stop steps left) : run.Halts machine stop steps left := by
  obtain ⟨world, hrun, hworld⟩ := hother
  exact ⟨world, h.trans hrun, hworld⟩

theorem bind_left {first : Run ν σ α} (h : first.Halts machine stop steps left)
    (next : α → Run ν σ β) : (first >>= next).Halts machine stop steps left := by
  obtain ⟨world, hrun, hworld⟩ := h
  exact ⟨world, by rw [bind_apply, hrun], hworld⟩

theorem bind_right {first : Run ν σ α} {next : α → Run ν σ β} {result : α} {after : Machine ν σ}
    (h : first machine = (.ok result, after)) (hn : (next result).Halts after stop steps left) :
    (first >>= next).Halts machine stop steps left := by
  obtain ⟨world, hrun, hworld⟩ := hn
  exact ⟨world, by rw [bind_apply, h]; exact hrun, hworld⟩

end Run.Halts

/-! ## Runs that take so many steps -/

/-- From this machine the run comes to something after exactly so many steps. If the budget does not
cover them, it stops with the first step beyond the budget. What it comes to is as `holds` says, and
a world in which the budget ends is as `cut` says. -/
structure Run.Takes (run : Run ν σ α) (limits : Limits) (machine : Machine ν σ) (cost : Nat)
    (cut : World ν σ → Prop) (holds : α → World ν σ → Prop) : Prop where
  done : machine.steps + cost ≤ limits.maxSteps → ∃ result world,
    run machine = (.ok result, ⟨machine.steps + cost, world⟩) ∧ holds result world
  short : machine.steps ≤ limits.maxSteps → limits.maxSteps < machine.steps + cost →
    run.Exhausts limits machine cut

namespace Run.Takes

variable {limits : Limits} {machine : Machine ν σ} {cost more : Nat} {cut : World ν σ → Prop}

theorem of_eq {run : Run ν σ α} {holds : α → World ν σ → Prop} {result : α} {world : World ν σ}
    (h : run machine = (.ok result, ⟨machine.steps, world⟩)) (hholds : holds result world) :
    run.Takes limits machine 0 cut holds :=
  ⟨fun _ => ⟨result, world, h, hholds⟩, fun hle hlt => absurd hlt (Nat.not_lt.2 hle)⟩

theorem of_cost {run : Run ν σ α} {holds : α → World ν σ → Prop}
    (h : run.Takes limits machine cost cut holds) (hcost : cost = more) :
    run.Takes limits machine more cut holds :=
  hcost ▸ h

theorem mono {run : Run ν σ α} {holds holds' : α → World ν σ → Prop} {cut' : World ν σ → Prop}
    (h : run.Takes limits machine cost cut holds) (hcut : ∀ world, cut world → cut' world)
    (hholds : ∀ result world, holds result world → holds' result world) :
    run.Takes limits machine cost cut' holds' where
  done hle := by
    obtain ⟨result, world, hrun, hresult⟩ := h.done hle
    exact ⟨result, world, hrun, hholds result world hresult⟩
  short hle hlt := (h.short hle hlt).mono hcut

/-- What comes after a run starts where that is done, unless the budget ends before. -/
theorem bind_exhausts {first : Run ν σ α} {next : α → Run ν σ β} {left : World ν σ → Prop}
    {between : α → World ν σ → Prop} (h : first.Takes limits machine cost cut between)
    (hle : machine.steps ≤ limits.maxSteps)
    (hcut : limits.maxSteps < machine.steps + cost → ∀ world, cut world → left world)
    (hn : ∀ result world, machine.steps + cost ≤ limits.maxSteps → between result world →
      (next result).Exhausts limits ⟨machine.steps + cost, world⟩ left) :
    (first >>= next).Exhausts limits machine left := by
  by_cases hfirst : limits.maxSteps < machine.steps + cost
  · exact ((h.short hle hfirst).mono (hcut hfirst)).bind_left next
  · obtain ⟨middle, turn, hrun, hmiddle⟩ := h.done (Nat.not_lt.1 hfirst)
    exact .bind_right hrun (hn middle turn (Nat.not_lt.1 hfirst) hmiddle)

/-- Costs add up. The budget may end in either part. -/
theorem bind {first : Run ν σ α} {next : α → Run ν σ β} {between : α → World ν σ → Prop}
    {holds : β → World ν σ → Prop} (h : first.Takes limits machine cost cut between)
    (hn : ∀ result world, between result world →
      (next result).Takes limits ⟨machine.steps + cost, world⟩ more cut holds) :
    (first >>= next).Takes limits machine (cost + more) cut holds where
  done hle := by
    obtain ⟨middle, turn, hfirst, hmiddle⟩ := h.done (by omega)
    obtain ⟨result, world, hnext, hresult⟩ := (hn middle turn hmiddle).done
      (show machine.steps + cost + more ≤ limits.maxSteps by omega)
    refine ⟨result, world, ?_, hresult⟩
    rw [bind_apply, hfirst, ← Nat.add_assoc]
    exact hnext
  short hle hlt := h.bind_exhausts hle (fun _ _ hcut => hcut) fun result world hdone hbetween =>
    (hn result world hbetween).short hdone
      (show limits.maxSteps < machine.steps + cost + more by omega)

/-- What costs nothing may come first. -/
theorem bind_of_eq {first : Run ν σ α} {next : α → Run ν σ β} {holds : β → World ν σ → Prop}
    {result : α} {world : World ν σ} (h : first machine = (.ok result, ⟨machine.steps, world⟩))
    (hn : (next result).Takes limits ⟨machine.steps, world⟩ cost cut holds) :
    (first >>= next).Takes limits machine cost cut holds := by
  have hfirst : first.Takes limits machine 0 cut
      fun other after => other = result ∧ after = world := .of_eq h ⟨rfl, rfl⟩
  refine (hfirst.bind fun other after hother => ?_).of_cost (Nat.zero_add cost)
  obtain ⟨rfl, rfl⟩ := hother
  exact hn

end Run.Takes

/-! ## What a resolution does after its first step -/

namespace Engine

variable {engine : Engine ν σ} {levels : Nat} {scope owner : Scope ν} {machine : Machine ν σ}

theorem resolveTop_eq (engine : Engine ν σ) (h : engine.limits.maxDepth = levels) :
    engine.resolveTop = (engine.nested (levels + 1)).resolve := by
  funext expr scope
  rw [resolveTop, h]

section Steps

variable (h : machine.steps < engine.limits.maxSteps)
include h

theorem resolve_terminal (result : Terminal ν) :
    (engine.nested (levels + 1)).resolve result.toExpr scope machine =
      (.ok (.terminal result), machine.counted result.toExpr) := by
  rw [resolve_allowed h]
  cases result <;> rfl

theorem resolve_recorded {name : String} {bound : Expr ν} {result : Terminal ν}
    (hfind : scope.find name = .ok (bound, owner))
    (hrecord : machine.world.memoized owner name = some result) :
    (engine.nested (levels + 1)).resolve (.identifier name) scope machine =
      (engine.nested (levels + 1)).resolve result.toExpr owner
        (machine.counted (.identifier name)) := by
  have hstep : engine.stepBody (engine.nested levels) (.identifier name) scope
      ⟨machine.steps + 1, machine.world⟩ =
        (.ok (.further result.toExpr owner), machine.counted (.identifier name)) := by
    rw [stepBody, Run.bind_apply, Run.emit_apply]
    dsimp only
    rw [Run.stepIdentifier, hfind]
    dsimp only
    rw [Run.bind_apply, Run.memoized_apply,
      show (machine.world.emit _).memoized owner name = some result from hrecord]
    rfl
  rw [resolve_allowed h, Run.bind_apply, hstep]
  rfl

theorem resolve_unrecorded {name : String} {bound : Expr ν}
    (hfind : scope.find name = .ok (bound, owner))
    (hrecord : machine.world.memoized owner name = none) :
    (engine.nested (levels + 1)).resolve (.identifier name) scope machine =
      ((engine.nested (levels + 1)).resolve bound owner >>= fun head =>
        Run.record head [(owner, name)] >>= fun _ => pure head)
        (machine.counted (.identifier name)) := by
  have hstep : engine.stepBody (engine.nested levels) (.identifier name) scope
      ⟨machine.steps + 1, machine.world⟩ =
        (.ok (.binding name bound owner), machine.counted (.identifier name)) := by
    rw [stepBody, Run.bind_apply, Run.emit_apply]
    dsimp only
    rw [Run.stepIdentifier, hfind]
    dsimp only
    rw [Run.bind_apply, Run.memoized_apply,
      show (machine.world.emit _).memoized owner name = none from hrecord]
    rfl
  rw [resolve_allowed h, Run.bind_apply, hstep]
  rfl

theorem resolve_thunk {inner : Scope ν} (hkind : inner.kind = .thunk) :
    (engine.nested (levels + 1)).resolve (.scope inner) scope machine =
      (engine.nested (levels + 1)).resolve inner.body (inner.parent?.getD inner)
        (machine.counted (.scope inner)) := by
  have hstep : engine.stepBody (engine.nested levels) (.scope inner) scope
      ⟨machine.steps + 1, machine.world⟩ = (.ok inner.enter, machine.counted (.scope inner)) := rfl
  rw [resolve_allowed h, Run.bind_apply, hstep, Scope.enter, hkind]
  rfl

theorem resolve_lambda (items : List (Item ν)) :
    (engine.nested (levels + 1)).resolve (.lambda items) scope machine =
      ((engine.nested levels).close items scope >>= fun closure => pure (.closure closure))
        (machine.counted (.lambda items)) := by
  rw [resolve_allowed h, stepBody, bind_assoc, Run.bind_apply, Run.emit_apply]
  dsimp only
  rw [bind_assoc]
  rfl

end Steps

/-! ## What resolutions cost -/

variable {cost more : Nat} {cut : World ν σ → Prop} {holds : Head ν → World ν σ → Prop}
  {expr : Expr ν}

/-- A resolution exhausts the budget if what it does after its first step does, or else the step
itself. -/
theorem resolve_exhausts {rest : Run ν σ (Head ν)} (hle : machine.steps ≤ engine.limits.maxSteps)
    (hcut : engine.limits.maxSteps = machine.steps → cut machine.world)
    (hstep : machine.steps < engine.limits.maxSteps →
      (engine.nested (levels + 1)).resolve expr scope machine = rest (machine.counted expr))
    (hrest : machine.steps < engine.limits.maxSteps →
      rest.Exhausts engine.limits (machine.counted expr) cut) :
    ((engine.nested (levels + 1)).resolve expr scope).Exhausts engine.limits machine cut := by
  rcases Nat.lt_or_ge machine.steps engine.limits.maxSteps with hlimit | hlimit
  · exact .of_eq (hstep hlimit) (hrest hlimit)
  · refine ⟨machine.world, ?_, hcut (Nat.le_antisymm hlimit hle)⟩
    rw [resolve_exhausted hlimit, Nat.le_antisymm hle hlimit]

/-- A resolution takes a step more than what it does after the step. -/
theorem resolve_takes {rest : Run ν σ (Head ν)} (hcut : cut machine.world)
    (hstep : machine.steps < engine.limits.maxSteps →
      (engine.nested (levels + 1)).resolve expr scope machine = rest (machine.counted expr))
    (hrest : rest.Takes engine.limits (machine.counted expr) cost cut holds) :
    ((engine.nested (levels + 1)).resolve expr scope).Takes engine.limits machine (cost + 1) cut
      holds where
  done hle := by
    obtain ⟨result, world, hrun, hresult⟩ := hrest.done
      (show machine.steps + 1 + cost ≤ engine.limits.maxSteps by omega)
    refine ⟨result, world, ?_, hresult⟩
    rw [hstep (by omega), hrun, Nat.add_comm cost 1, ← Nat.add_assoc]
    rfl
  short hle hlt := resolve_exhausts hle (fun _ => hcut) hstep fun hlimit =>
    hrest.short (show machine.steps + 1 ≤ engine.limits.maxSteps from hlimit)
      (show engine.limits.maxSteps < machine.steps + 1 + cost by omega)

section Rules

variable (hcut : cut machine.world)
include hcut

theorem takes_terminal (result : Terminal ν)
    (hholds : holds (.terminal result) (machine.world.emit (.resolving result.toExpr))) :
    ((engine.nested (levels + 1)).resolve result.toExpr scope).Takes engine.limits machine 1 cut
      holds :=
  resolve_takes hcut (resolve_terminal · result) (.of_eq (Run.pure_apply _ _) hholds)

theorem takes_recorded {name : String} {bound : Expr ν} {result : Terminal ν}
    (hcounted : cut (machine.world.emit (.resolving (.identifier name))))
    (hfind : scope.find name = .ok (bound, owner))
    (hrecord : machine.world.memoized owner name = some result)
    (hholds : holds (.terminal result) ((machine.world.emit (.resolving (.identifier name))).emit
      (.resolving result.toExpr))) :
    ((engine.nested (levels + 1)).resolve (.identifier name) scope).Takes engine.limits machine 2
      cut holds :=
  resolve_takes hcut (resolve_recorded · hfind hrecord) (takes_terminal hcounted result hholds)

/-- What a name is bound to costs a step less than the name, and is recorded unless it is a
closure. -/
theorem takes_unrecorded {name : String} {bound : Expr ν} {between : Head ν → World ν σ → Prop}
    (hfind : scope.find name = .ok (bound, owner))
    (hrecord : machine.world.memoized owner name = none)
    (hbound : ((engine.nested (levels + 1)).resolve bound owner).Takes engine.limits
      (machine.counted (.identifier name)) cost cut between)
    (hterminal : ∀ result world, between (.terminal result) world →
      holds (.terminal result) (world.memoize owner name result))
    (hclosure : ∀ closure world, between (.closure closure) world →
      holds (.closure closure) world) :
    ((engine.nested (levels + 1)).resolve (.identifier name) scope).Takes engine.limits machine
      (cost + 1) cut holds := by
  have hrecorded (head : Head ν) (world : World ν σ) (hhead : between head world) :
      (Run.record head [(owner, name)] >>= fun _ => pure head).Takes engine.limits
        ⟨machine.steps + 1 + cost, world⟩ 0 cut holds := by
    cases head with
    | terminal result => exact .of_eq rfl (hterminal result world hhead)
    | closure closure => exact .of_eq rfl (hclosure closure world hhead)
  exact resolve_takes hcut (resolve_unrecorded · hfind hrecord) (hbound.bind hrecorded)

theorem takes_thunk {inner : Scope ν} (hkind : inner.kind = .thunk)
    (hbody : ((engine.nested (levels + 1)).resolve inner.body (inner.parent?.getD inner)).Takes
      engine.limits (machine.counted (.scope inner)) cost cut holds) :
    ((engine.nested (levels + 1)).resolve (.scope inner) scope).Takes engine.limits machine
      (cost + 1) cut holds :=
  resolve_takes hcut (resolve_thunk · hkind) hbody

theorem takes_lambda {items : List (Item ν)} {closure : Scope ν} {world : World ν σ}
    (hclose : (engine.nested levels).close items scope (machine.counted (.lambda items)) =
      (.ok closure, ⟨machine.steps + 1, world⟩))
    (hholds : holds (.closure closure) world) :
    ((engine.nested (levels + 1)).resolve (.lambda items) scope).Takes engine.limits machine 1 cut
      holds :=
  resolve_takes hcut (resolve_lambda · items) (.bind_of_eq hclose (.of_eq rfl hholds))

end Rules

end Engine

/-- Arguments that cost the same each cost so many times that, if the same holds of the world before
each of them. -/
theorem Nested.resolveAll_takes {nested : Nested ν σ} {limits : Limits} {scope : Scope ν}
    {each : Nat} {cut : World ν σ → Prop} {invariant : Nat → World ν σ → Prop}
    {arguments results : List (Expr ν)} (hlength : arguments.length = results.length)
    (h : ∀ position argument result, arguments[position]? = some argument →
      results[position]? = some result → ∀ machine : Machine ν σ, invariant position machine.world →
        (nested.resolve argument scope).Takes limits machine each cut
          fun head world => head.toExpr = result ∧ invariant (position + 1) world)
    {machine : Machine ν σ} (hstart : invariant 0 machine.world) :
    (nested.resolveAll scope arguments).Takes limits machine (each * arguments.length) cut
      fun heads world => heads = results ∧ invariant arguments.length world := by
  induction arguments generalizing results invariant machine with
  | nil =>
    obtain rfl := List.length_eq_zero_iff.1 hlength.symm
    exact .of_eq rfl ⟨rfl, hstart⟩
  | cons argument rest ih =>
    obtain _ | ⟨result, results⟩ := results
    · cases hlength
    have hrest := fun position => h (position + 1)
    rw [resolveAll_cons, List.length_cons, Nat.mul_succ, Nat.add_comm]
    refine (h 0 argument result rfl rfl machine hstart).bind fun head world hhead => ?_
    refine ((ih (Nat.succ.inj hlength) hrest hhead.2).bind fun heads last hheads => ?_).of_cost
      (Nat.add_zero _)
    exact .of_eq rfl ⟨congrArg₂ List.cons hhead.1 hheads.1, hheads.2⟩

end CallByNeed
