import CallByNeed.Proofs.Cycles.Asked
import CallByNeed.Proofs.Need.Order
import CallByNeed.Proofs.Refinement.Ends

/-! # The course of an evaluation

What an evaluation does by itself, without the evaluations that native methods start. Each of its
loops and steps is about a demand of call by name, and whatever it goes on to is about a demand that
this one asks for (`Host.Continues.follows`). If a part of the evaluation stops without a result,
all that it takes place in stops there too, for the same reason (`Host.Continues.stopsAt`).
-/

namespace CallByNeed
set_option autoImplicit false

open CallByName Relation

variable {ν σ α β : Type}

/-! ## Own activities -/

/-- What call by name is asked for in a loop. -/
def Loop.demand : Loop ν → Demand ν
  | .resolve _ expr scope _ => .evaluate expr scope
  | .name _ position scope => .name position scope

/-- What call by name is asked for in a step. Identifiers are not reduced. -/
def Expr.stepDemand (expr : Expr ν) (scope : Scope ν) : Demand ν :=
  match expr.identifier? with
  | some _ => .evaluate expr scope
  | none => .reduce expr scope

namespace Activity

/-- An activity of the evaluator, and not a program of a native method. -/
def Internal : Activity ν σ → Prop
  | .program _ _ _ => False
  | .evaluation _ _ _ _ | .loop _ _ _ _ _ | .force _ _ _ _ _ _ | .step _ _ _ _ _ _
  | .close _ _ _ _ _ _ => True

def levels : Activity ν σ → Nat
  | .evaluation levels _ _ _ | .loop levels _ _ _ _ | .force levels _ _ _ _ _
  | .step levels _ _ _ _ _ | .close levels _ _ _ _ _ | .program levels _ _ => levels

/-- The machine that the activity starts from. -/
def machine : Activity ν σ → Machine ν σ
  | .evaluation _ _ _ world | .program _ _ world => ⟨0, world⟩
  | .loop _ _ _ _ machine | .force _ _ _ _ _ machine | .step _ _ _ _ _ machine
  | .close _ _ _ _ _ machine => machine

/-- The scopes that the activity is about. What a program knows is left open. -/
def scopes : Activity ν σ → List (Scope ν)
  | .evaluation _ _ request _ => request.scopes
  | .loop _ _ _ code _ => code.scopes
  | .force _ _ _ expr scope _ | .step _ _ _ expr scope _ => scope :: expr.scopes
  | .close _ _ _ items scope _ => scope :: scopesItems items
  | .program _ _ _ => []

/-- What call by name is asked for in a loop, in a step or in the closing of a lambda. -/
def demand? : Activity ν σ → Option (Demand ν)
  | .loop _ _ _ code _ => some code.demand
  | .step _ _ _ expr scope _ => some (expr.stepDemand scope)
  | .close _ _ _ items scope _ => some (.reduce (.lambda items) scope)
  | .evaluation _ _ _ _ | .force _ _ _ _ _ _ | .program _ _ _ => none

/-- The activity can be compared with call by name under the numbering. -/
structure Faithful (host : Host ν σ) (code : Code ν) (number : Nat → Nat)
    (activity : Activity ν σ) : Prop where
  natives : (host.invokeAt activity.levels).Computes code
  ready : activity.machine.Ready code number activity.scopes

end Activity

/-- An activity of the evaluator directly starts another one. -/
def Host.Continues (host : Host ν σ) (outer inner : Activity ν σ) : Prop :=
  (∃ place, host.Starts outer place inner) ∧ outer.Internal ∧ inner.Internal

/-- An activity of the evaluator takes place in the course of another one without a native method
in between, or is that one itself. -/
abbrev Host.LeadsTo (host : Host ν σ) : Activity ν σ → Activity ν σ → Prop :=
  ReflTransGen host.Continues

/-! ## What is asked for -/

section Steps

variable {code : Code ν} {engine : Engine ν σ} {nested : Nested ν σ} {number : Nat → Nat}
  {expr : Expr ν} {scope : Scope ν} {machine after : Machine ν σ} {outcome : Outcome ν}

/-- The step of an expression that is no identifier is a reduction of call by name. -/
theorem Machine.Ready.after_step (h : machine.Ready code number (scope :: expr.scopes))
    (hnatives : engine.invoke.Computes code) (hnested : Nested.Meets code nested)
    (hexpr : expr.identifier? = none)
    (hstep : engine.step nested expr scope machine = (.ok outcome, after)) :
    machine.world.Grows after.world ∧
      after.Ready code number (outcome.scopes ++ scope :: expr.scopes) ∧
      ∃ trace, Derives code (.reduce (expr.renumber number) (scope.renumber number))
        (outcome.toResult.renumber number) trace := by
  have hcounted : Machine.Ready code number (scope :: expr.scopes)
    ⟨machine.steps + 1, machine.world⟩ := h.of_cells rfl
  rw [Engine.step_eq] at hstep
  exact hcounted.after (Engine.stepBody_meets hnatives hnested expr hexpr scope)
    (Run.ok_of_tick_bind hstep)

end Steps

namespace Loop

variable {code : Code ν} {number : Nat → Nat} {loop more : Loop ν} {expr : Expr ν}
  {scope : Scope ν} {outcome : Outcome ν}

/-- A loop asks for the reduction that it takes a step of. -/
theorem asked_step (number : Nat → Nat) (h : loop.step? = some (expr, scope)) :
    ReflTransGen (Asked code) ((expr.stepDemand scope).renumber number)
      (loop.demand.renumber number) := by
  have hsame := Expr.identifier?_renumber number expr
  rw [Expr.stepDemand]
  rcases cases_of_step h with ⟨rounds, pending, rfl⟩ | ⟨rounds, rfl, hexpr⟩
  · cases hexpr : expr.identifier? with
    | some name => exact .refl
    | none => exact .single (.reduction _ (hsame.trans hexpr))
  · rw [hexpr]
    exact .single (.position _ (hsame.trans hexpr))

/-- A loop asks for what a reduction leads to. -/
theorem asked_next {trace : Trace ν} (hstep : loop.step? = some (expr, scope))
    (hnext : loop.next? outcome = some more)
    (h : Derives code (.reduce (expr.renumber number) (scope.renumber number))
      (outcome.toResult.renumber number) trace) :
    Asked code (more.demand.renumber number) (loop.demand.renumber number) := by
  cases outcome with
  | binding name bound owner => exact h.not_reduces_name.elim
  | finished head => rcases cases_of_step hstep with ⟨_, _, rfl⟩ | ⟨_, rfl, _⟩ <;> cases hnext
  | further next inner =>
    rcases cases_of_step hstep with ⟨rounds, pending, rfl⟩ | ⟨rounds, rfl, -⟩
    · cases hnext
      exact .next h
    · cases hnext
      exact .nextName h

/-- A loop asks for what an identifier leads to. -/
theorem asked_identifier {name : String} {bound : Expr ν} {owner : Scope ν}
    (hstep : loop.step? = some (.identifier name, scope)) (hnext : loop.next? outcome = some more)
    (hfind : scope.find name = .ok (bound, owner))
    (houtcome : outcome = .binding name bound owner ∨
      ∃ result : Terminal ν, outcome = .further result.toExpr owner) :
    Asked code (more.demand.renumber number) (loop.demand.renumber number) := by
  rcases cases_of_step hstep with ⟨rounds, pending, rfl⟩ | ⟨rounds, rfl, hexpr⟩
  · rcases houtcome with rfl | ⟨result, rfl⟩
    · cases hnext
      exact .bound (Scope.find_renumber_ok number scope hfind)
    · cases hnext
      have hresult : result.toExpr.renumber number = result.forget.toExpr := by cases result <;> rfl
      show Asked code (.evaluate (result.toExpr.renumber number) _) _
      rw [hresult]
      exact .recorded name _ _ result.forget
  · cases hexpr

end Loop

namespace Host

variable {host : Host ν σ} {code : Code ν} {number : Nat → Nat} {outer inner : Activity ν σ}

/-- What remains ready and is asked for when an activity goes on to another one. -/
structure Continues.Follows (code : Code ν) (number : Nat → Nat) (outer inner : Activity ν σ) :
    Prop where
  grows : outer.machine.world.Grows inner.machine.world
  ready : inner.machine.Ready code number inner.scopes
  asked : ∀ {demand}, outer.demand? = some demand → ∃ more, inner.demand? = some more ∧
    ReflTransGen (Asked code) (more.renumber number) (demand.renumber number)

/-- A loop goes on with what its step came to. -/
theorem Continues.follows_next {levels : Nat} {limits : Limits} {depth : Nat} {loop more : Loop ν}
    {expr : Expr ν} {scope : Scope ν} {machine after : Machine ν σ} {outcome : Outcome ν}
    (hnatives : (host.invokeAt levels).Computes code)
    (hready : machine.Ready code number loop.scopes)
    (hstep : loop.step? = some (expr, scope))
    (houtcome : (host.engine levels limits).step ((host.engine levels limits).nested depth) expr
      scope machine = (.ok outcome, after))
    (hnext : loop.next? outcome = some more) :
    Follows code number (.loop levels limits depth loop machine)
      (.loop levels limits depth more after) := by
  have hengine : (host.engine levels limits).invoke.Computes code := hnatives
  rw [Loop.scopes_of_step hstep] at hready
  cases hexpr : expr.identifier? with
  | none =>
    obtain ⟨hgrows, hafter, trace, hreduce⟩ :=
      hready.after_step hengine (Engine.nested_meets hengine depth) hexpr houtcome
    refine ⟨hgrows, hafter.subset fun inner hm => ?_, ?_⟩
    · exact List.mem_append_left _ (Loop.scopes_of_next hnext ▸ hm)
    · rintro _ ⟨⟩
      exact ⟨_, rfl, .single (Loop.asked_next hstep hnext hreduce)⟩
  | some name =>
    obtain rfl := Engine.eq_identifier hexpr
    obtain ⟨rfl, bound, owner, hfind, hrecord⟩ := Engine.step_identifier houtcome
    have hcases := hrecord.imp And.right fun h => h.imp fun _ => And.right
    obtain ⟨howner, hmem, -⟩ := hready.stored.head.find hready.sound.consistent hfind
    have hbound := howner.contents hready.sound.consistent hmem
    have hstored : machine.world.StoresAll outcome.scopes := by
      rcases hcases with rfl | ⟨result, rfl⟩
      · exact .cons howner hbound
      · exact .cons howner (by cases result <;> exact .nil)
    have hmore : machine.Ready code number more.scopes :=
      ⟨hready.sound, Loop.scopes_of_next hnext ▸ hstored, hready.fresh⟩
    refine ⟨machine.grows_counted _, hmore.of_cells rfl, ?_⟩
    rintro _ ⟨⟩
    exact ⟨_, rfl, .single (Loop.asked_identifier hstep hnext hfind hcases)⟩

/-- A step resolves the parts of an application, one after another. -/
theorem Continues.follows_part {levels : Nat} {limits : Limits} {depth : Nat}
    {operator target : Expr ν} {arguments before rest heads : List (Expr ν)} {scope : Scope ν}
    {machine after : Machine ν σ} (hnatives : (host.invokeAt levels).Computes code)
    (hready : machine.Ready code number (scope :: (Expr.application operator arguments).scopes))
    (hparts : operator :: arguments = before ++ target :: rest)
    (hbefore : ((host.engine levels limits).nested (depth + 1)).resolveAll scope before
      (machine.counted (.application operator arguments)) = (.ok heads, after))
    (hoperator : ∀ value, heads.head? ≠ some (.value value)) :
    Follows code number
      (.step levels limits (depth + 1) (.application operator arguments) scope machine)
      (.loop levels limits depth (.resolve limits.maxSteps target scope []) after) := by
  have hengine : (host.engine levels limits).invoke.Computes code := hnatives
  have hscopes : (Expr.application operator arguments).scopes =
      scopesAll (before ++ target :: rest) := by rw [← hparts, scopesAll, Expr.scopes]
  have hcounted : (machine.counted (.application operator arguments)).Ready code number
    (scope :: (Expr.application operator arguments).scopes) := hready.of_cells rfl
  have hmeets := ((Engine.nested_meets hengine (depth + 1)).resolveAll scope before).weaken
    (fun _ _ _ => id) (show ∀ inner ∈ scope :: scopesAll before,
      inner ∈ scope :: (Expr.application operator arguments).scopes by grind [mem_scopesAll])
  obtain ⟨hgrows, hafter, trace, hheads⟩ := hcounted.after hmeets hbefore
  refine ⟨(machine.grows_counted _).trans hgrows, hafter.subset ?_, ?_⟩
  · grind [Activity.scopes, Loop.scopes, mem_scopesAll]
  · rintro _ ⟨⟩
    refine ⟨_, rfl, ?_⟩
    show ReflTransGen (Asked code) (.evaluate (target.renumber number) (scope.renumber number))
      (.reduce (.application (operator.renumber number) (renumberAll number arguments))
        (scope.renumber number))
    have hall := congrArg (List.map (Expr.renumber number)) hparts
    rw [List.map_cons, List.map_append, List.map_cons, ← renumberAll_eq_map] at hall
    refine asked_of_parts hall hheads fun value hvalue => ?_
    -- A renumbered expression is a value only if the expression is one itself.
    rw [List.head?_map] at hvalue
    obtain ⟨head, hhead, hrenumbered⟩ := Option.map_eq_some_iff.1 hvalue
    cases head with
    | value it => exact hoperator it hhead
    | _ => cases hrenumbered

/-- The closing of a lambda works out the names of its bindings, one after another. -/
theorem Continues.follows_names {levels : Nat} {limits : Limits} {depth : Nat}
    {items : List (Item ν)} {scope : Scope ν} {before rest : List (Lambda.Binding ν)}
    {position bound body : Expr ν} {table : Table (Expr ν)} {machine after : Machine ν σ}
    (hnatives : (host.invokeAt levels).Computes code)
    (hready : machine.Ready code number (scope :: scopesItems items))
    (hparts : Lambda.parts items = .ok (before ++ (position, bound) :: rest, body))
    (hbefore : ((host.engine levels limits).nested (depth + 1)).bindAll scope before .empty
      machine = (.ok table, after)) :
    Follows code number (.close levels limits (depth + 1) items scope machine)
      (.loop levels limits depth (.name limits.maxSteps position scope) after) := by
  have hengine : (host.engine levels limits).invoke.Computes code := hnatives
  have hmeets := ((Engine.nested_meets hengine (depth + 1)).bindAll scope before .empty).weaken
    (fun _ _ _ => id) (Lambda.before_scopes scope hparts)
  obtain ⟨hgrows, hafter, trace, entries, -, hentries⟩ := hready.after hmeets hbefore
  refine ⟨hgrows, hafter.subset fun inner hm => List.mem_append_right _ ?_, ?_⟩
  · rcases List.mem_cons.1 hm with rfl | hposition
    · exact List.mem_cons_self
    · exact List.mem_cons_of_mem _ (Lambda.position_scopes hparts inner hposition)
  · rintro _ ⟨⟩
    have hrenumbered := Lambda.parts_renumber_ok hparts number
    rw [List.map_append, List.map_cons] at hrenumbered
    exact ⟨_, rfl, (asked_of_bindings _ _ _ hentries).tail (.bindings _ hrenumbered)⟩

/-- Whatever an activity goes on to is asked for by what it is about itself. -/
theorem Continues.follows (h : host.Continues outer inner)
    (houter : outer.Faithful host code number) : Follows code number outer inner := by
  obtain ⟨hnatives, hready⟩ := houter
  obtain ⟨⟨place, hstarts⟩, hinternal, hown⟩ := h
  cases hstarts with
  | request levels limits request world =>
    refine ⟨?_, ?_, nofun⟩
    · cases request <;> exact .refl _
    · cases request with
      | resolve expr scope => exact hready
      | force expr scope => exact hready
      | interpret program root => exact hready
      | close items scope => exact hready
      | apply operator arguments scope =>
        exact hready.subset (show ∀ inner ∈ scope :: operator.scopes,
          inner ∈ scope :: (operator.scopes ++ scopesAll arguments) by grind)
  | applied | native => exact hown.elim
  | evaluate | advance => exact hinternal.elim
  | forced levels limits rounds expr scope machine => exact ⟨.refl _, hready, nofun⟩
  | @forcedAgain levels limits rounds expr scope closure machine after hclosure =>
    have hengine : (host.engine levels limits).invoke.Computes code := hnatives
    obtain ⟨hgrows, hafter, -⟩ :=
      hready.after (Engine.resolveTop_meets hengine expr scope) hclosure
    have hbody : after.Ready code number (closure :: closure.body.scopes) :=
      ⟨hafter.sound, .cons hafter.stored.head (hafter.stored.head.body hafter.sound.consistent),
        hafter.fresh⟩
    exact ⟨hgrows.trans (.of_cells rfl), hbody.of_cells rfl, nofun⟩
  | @step levels limits depth loop expr scope machine hstep =>
    refine ⟨.refl _, ?_, ?_⟩
    · rw [Activity.scopes, ← Loop.scopes_of_step hstep]
      exact hready
    · rintro _ ⟨⟩
      exact ⟨_, rfl, Loop.asked_step number hstep⟩
  | next hstep houtcome hnext => exact follows_next hnatives hready hstep houtcome hnext
  | part hlimit hparts hbefore hoperator =>
    exact follows_part hnatives hready hparts hbefore hoperator
  | closes levels depth items scope hlimit =>
    refine ⟨Machine.grows_counted _ _, hready.of_cells rfl, ?_⟩
    rintro _ ⟨⟩
    exact ⟨_, rfl, .refl⟩
  | names hparts hbefore => exact follows_names hnatives hready hparts hbefore

theorem Continues.levels (h : host.Continues outer inner) : inner.levels = outer.levels := by
  obtain ⟨⟨place, hstarts⟩, hinternal, hown⟩ := h
  cases hstarts with
  | request levels limits request world => cases request <;> rfl
  | applied | native => exact hown.elim
  | evaluate | advance => exact hinternal.elim
  | _ => rfl

/-- What an activity leads to is asked for by what it is about itself. -/
theorem LeadsTo.follows (h : host.LeadsTo outer inner) (houter : outer.Faithful host code number) :
    inner.levels = outer.levels ∧ Continues.Follows code number outer inner := by
  induction h with
  | refl => exact ⟨rfl, .refl _, houter.ready, fun hdemand => ⟨_, hdemand, .refl⟩⟩
  | @tail middle inner _ hcontinues ih =>
    obtain ⟨hlevels, hmiddle⟩ := ih
    have hinner := hcontinues.follows ⟨hlevels ▸ houter.natives, hmiddle.ready⟩
    refine ⟨hcontinues.levels.trans hlevels, hmiddle.grows.trans hinner.grows, hinner.ready, ?_⟩
    intro demand hdemand
    obtain ⟨more, hmore, hasked⟩ := hmiddle.asked hdemand
    obtain ⟨last, hlast, hlater⟩ := hinner.asked hmore
    exact ⟨last, hlast, hlater.trans hasked⟩

end Host

/-! ## Where an evaluation stops -/

/-- The run stops for this reason and leaves these frames and records. -/
def Run.StopsAt (run : Run ν σ α) (machine : Machine ν σ) (stop : Stop) (cells : Array (Cell ν)) :
    Prop :=
  ∃ after, run machine = (.error stop, after) ∧ after.world.cells = cells

section Stops

variable {machine after : Machine ν σ} {stop : Stop} {cells : Array (Cell ν)}

theorem Run.StopsAt.bind {run : Run ν σ α} (h : run.StopsAt machine stop cells)
    (next : α → Run ν σ β) : (run >>= next).StopsAt machine stop cells := by
  obtain ⟨after, hrun, hcells⟩ := h
  refine ⟨after, ?_, hcells⟩
  rw [Run.bind_apply, hrun]

theorem Run.StopsAt.map {run : Run ν σ α} (h : run.StopsAt machine stop cells) (change : α → β) :
    (change <$> run).StopsAt machine stop cells := by
  rw [map_eq_pure_bind]
  exact h.bind _

/-- If the second run of a bind stops where the first one has led to, the bind stops. -/
theorem Run.StopsAt.later {run : Run ν σ α} {next : α → Run ν σ β} {result : α}
    (hrun : run machine = (.ok result, after)) (h : (next result).StopsAt after stop cells) :
    (run >>= next).StopsAt machine stop cells := by
  obtain ⟨last, hnext, hcells⟩ := h
  refine ⟨last, ?_, hcells⟩
  rw [Run.bind_apply, hrun]
  exact hnext

namespace Nested

variable {nested : Nested ν σ} {scope : Scope ν}

theorem resolveAll_stopsAt {before heads : List (Expr ν)} {target : Expr ν} (rest : List (Expr ν))
    (hbefore : nested.resolveAll scope before machine = (.ok heads, after))
    (h : (nested.resolve target scope).StopsAt after stop cells) :
    (nested.resolveAll scope (before ++ target :: rest)).StopsAt machine stop cells := by
  rw [resolveAll_append, resolveAll_cons]
  exact .later hbefore ((h.bind _).bind _)

theorem bindAll_stopsAt {before : List (Lambda.Binding ν)} {start table : Table (Expr ν)}
    {position : Expr ν} (bound : Expr ν) (rest : List (Lambda.Binding ν))
    (hbefore : nested.bindAll scope before start machine = (.ok table, after))
    (h : (nested.bindingName position scope).StopsAt after stop cells) :
    (nested.bindAll scope (before ++ (position, bound) :: rest) start).StopsAt machine stop
      cells := by
  rw [bindAll_append]
  refine .later hbefore ?_
  rw [bindAll_cons]
  exact h.bind _

end Nested

namespace Engine

variable {engine : Engine ν σ} {nested : Nested ν σ} {scope : Scope ν}

/-- A step of an application stops where one of its parts stops. -/
theorem step_stopsAt_part {operator target : Expr ν} {arguments before rest heads : List (Expr ν)}
    (hlimit : machine.steps < engine.limits.maxSteps)
    (hparts : operator :: arguments = before ++ target :: rest)
    (hbefore : nested.resolveAll scope before
      (machine.counted (.application operator arguments)) = (.ok heads, after))
    (hoperator : ∀ value, heads.head? ≠ some (.value value))
    (h : (nested.resolve target scope).StopsAt after stop cells) :
    (engine.step nested (.application operator arguments) scope).StopsAt machine stop cells := by
  rw [Run.StopsAt, step_application hlimit]
  cases before with
  | nil =>
    cases hparts
    cases hbefore
    exact h.bind _
  | cons first before =>
    cases hparts
    obtain ⟨head, middle, others, hhead, hothers, rfl⟩ := Nested.ok_of_resolveAll_cons hbefore
    have harguments := Nested.resolveAll_stopsAt rest hothers h
    refine Run.StopsAt.later hhead ?_
    rcases head with (value | method) | closure
    · exact absurd rfl (hoperator value)
    · exact harguments.bind _
    · exact harguments.bind _

end Engine

namespace Loop

variable {engine : Engine ν σ} {depth : Nat} {loop more : Loop ν} {expr : Expr ν} {scope : Scope ν}
  {outcome : Outcome ν}

def StopsAt (engine : Engine ν σ) (depth : Nat) :
    Loop ν → Machine ν σ → Stop → Array (Cell ν) → Prop
  | .resolve rounds expr scope pending =>
      (engine.resolveLoop (engine.nested depth) rounds expr scope pending).StopsAt
  | .name rounds position scope =>
      (engine.nameLoop (engine.nested depth) rounds position scope).StopsAt

theorem stopsAt_of_step (hstep : loop.step? = some (expr, scope))
    (h : (engine.step (engine.nested depth) expr scope).StopsAt machine stop cells) :
    loop.StopsAt engine depth machine stop cells := by
  rcases cases_of_step hstep with ⟨rounds, pending, rfl⟩ | ⟨rounds, rfl, hexpr⟩
  · rw [StopsAt, Engine.resolveLoop_step]
    exact h.bind _
  · rw [StopsAt, Engine.nameLoop_succ _ _ _ _ _ hexpr]
    exact h.bind _

theorem stopsAt_of_next (hstep : loop.step? = some (expr, scope))
    (houtcome : engine.step (engine.nested depth) expr scope machine = (.ok outcome, after))
    (hnext : loop.next? outcome = some more) (h : more.StopsAt engine depth after stop cells) :
    loop.StopsAt engine depth machine stop cells := by
  rcases cases_of_step hstep with ⟨rounds, pending, rfl⟩ | ⟨rounds, rfl, hexpr⟩
  · rw [StopsAt, Engine.resolveLoop_step]
    refine .later houtcome ?_
    cases outcome <;> cases hnext <;> exact h
  · rw [StopsAt, Engine.nameLoop_succ _ _ _ _ _ hexpr]
    refine .later houtcome ?_
    cases outcome <;> cases hnext <;> exact h

end Loop

/-- The activity stops for this reason and leaves these frames and records. -/
def Activity.StopsAt (host : Host ν σ) : Activity ν σ → Stop → Array (Cell ν) → Prop
  | .evaluation levels limits request world =>
      ((host.engine levels limits).run request).StopsAt ⟨0, world⟩
  | .loop levels limits depth code machine =>
      code.StopsAt (host.engine levels limits) depth machine
  | .force levels limits rounds expr scope machine =>
      ((host.engine levels limits).forceLoop rounds expr scope).StopsAt machine
  | .step levels limits depth expr scope machine =>
      ((host.engine levels limits).step ((host.engine levels limits).nested depth) expr
        scope).StopsAt machine
  | .close levels limits depth items scope machine =>
      (((host.engine levels limits).nested depth).close items scope).StopsAt machine
  | .program _ _ _ => fun _ _ => False

namespace Host

variable {host : Host ν σ} {outer inner : Activity ν σ}

theorem stopsAt_ofRequest {levels : Nat} {limits : Limits} {request : Evaluation ν}
    {world : World ν σ}
    (h : (Activity.ofRequest levels limits ⟨0, world⟩ request).StopsAt host stop cells) :
    ((host.engine levels limits).run request).StopsAt ⟨0, world⟩ stop cells := by
  cases request with
  | resolve expr scope => exact Run.StopsAt.map h _
  | force expr scope => exact Run.StopsAt.map h _
  | close items scope => exact Run.StopsAt.map h _
  | apply operator arguments scope => exact Run.StopsAt.bind h _
  | interpret program root =>
    refine Run.StopsAt.map ?_ _
    obtain ⟨after, hforce, hcells⟩ := h
    refine ⟨⟨after.steps, after.world.emit (.finished after.steps)⟩, ?_, hcells⟩
    rw [Engine.interpretRun, show (host.engine levels limits).limits = limits from rfl, hforce]

/-- Whatever an activity goes on to stops it. -/
theorem Continues.stopsAt (h : host.Continues outer inner)
    (hinner : inner.StopsAt host stop cells) : outer.StopsAt host stop cells := by
  obtain ⟨⟨place, hstarts⟩, hinternal, hown⟩ := h
  cases hstarts with
  | request levels limits request world => exact stopsAt_ofRequest hinner
  | applied | native => exact hown.elim
  | evaluate | advance => exact hinternal.elim
  | forced levels limits rounds expr scope machine =>
    rw [Activity.StopsAt, Engine.forceLoop_succ]
    exact Run.StopsAt.bind hinner _
  | forcedAgain hclosure =>
    rw [Activity.StopsAt, Run.StopsAt, forceLoop_again hclosure]
    exact hinner
  | step machine hstep => exact Loop.stopsAt_of_step hstep hinner
  | next hstep houtcome hnext => exact Loop.stopsAt_of_next hstep houtcome hnext hinner
  | part hlimit hparts hbefore hoperator =>
    exact Engine.step_stopsAt_part hlimit hparts hbefore hoperator hinner
  | closes levels depth items scope hlimit =>
    rw [Activity.StopsAt, Run.StopsAt, Engine.step_lambda hlimit]
    exact Run.StopsAt.bind hinner _
  | names hparts hbefore =>
    rw [Activity.StopsAt, Nested.close, hparts]
    exact (Nested.bindAll_stopsAt _ _ hbefore hinner).bind _

theorem LeadsTo.stopsAt (h : host.LeadsTo outer inner) (hinner : inner.StopsAt host stop cells) :
    outer.StopsAt host stop cells := by
  induction h using ReflTransGen.head_induction_on with
  | refl => exact hinner
  | head hcontinues _ ih => exact hcontinues.stopsAt ih

end Host

end Stops
end CallByNeed
