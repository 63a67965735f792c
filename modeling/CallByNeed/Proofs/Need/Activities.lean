import CallByNeed.Proofs.Need.Recorded

/-! # What takes place in an evaluation

An evaluation is made of loops and of the steps that these take. A step resolves the operator and
the arguments of an application or computes the names that a lambda binds, each in a loop of its
own, and it may call a native method, which is a program that starts evaluations in turn.
`Host.Starts` says what an activity starts, in which order and in which world. What an honest host's
evaluation starts, it starts in an orderly world that has grown out of its own
(`Host.Starts.begins`).
-/

namespace CallByNeed
set_option autoImplicit false

variable {ν σ α β : Type}

/-! ## Activities -/

/-- A loop that takes steps, with the rounds that are left: the resolution of an expression or the
search for the name that an expression stands for. -/
inductive Loop (ν : Type) where
  | resolve (rounds : Nat) (expr : Expr ν) (scope : Scope ν) (pending : List (Scope ν × String))
  | name (rounds : Nat) (position : Expr ν) (scope : Scope ν)

namespace Loop

def scopes : Loop ν → List (Scope ν)
  | .resolve _ expr scope _ | .name _ expr scope => scope :: expr.scopes

/-- The world at the end of the loop. -/
def leaves (engine : Engine ν σ) (depth : Nat) : Loop ν → Machine ν σ → World ν σ
  | .resolve rounds expr scope pending, machine =>
      (engine.resolveLoop (engine.nested depth) rounds expr scope pending machine).2.world
  | .name rounds position scope, machine =>
      (engine.nameLoop (engine.nested depth) rounds position scope machine).2.world

/-- What the loop takes a step of. -/
def step? : Loop ν → Option (Expr ν × Scope ν)
  | .resolve (_ + 1) expr scope _ => some (expr, scope)
  | .name (_ + 1) position scope =>
      match position.identifier? with
      | some _ => none
      | none => some (position, scope)
  | _ => none

/-- How the loop goes on after a step with this outcome. -/
def next? : Loop ν → Outcome ν → Option (Loop ν)
  | .resolve (rounds + 1) _ _ pending, .further next inner =>
      some (.resolve rounds next inner pending)
  | .resolve (rounds + 1) _ _ pending, .binding found bound owner =>
      some (.resolve rounds bound owner ((owner, found) :: pending))
  | .name (rounds + 1) _ _, .further next inner => some (.name rounds next inner)
  | .name (rounds + 1) _ _, .binding _ bound owner => some (.name rounds bound owner)
  | _, _ => none

end Loop

/-- Something that takes place in a session, with the world or the machine it starts from. Native
methods may be nested in it so many levels deep, and resolutions so many more. -/
inductive Activity (ν σ : Type) where
  | evaluation (levels : Nat) (limits : Limits) (request : Evaluation ν) (world : World ν σ)
  | loop (levels : Nat) (limits : Limits) (depth : Nat) (loop : Loop ν) (machine : Machine ν σ)
  | force (levels : Nat) (limits : Limits) (rounds : Nat) (expr : Expr ν) (scope : Scope ν)
      (machine : Machine ν σ)
  | step (levels : Nat) (limits : Limits) (depth : Nat) (expr : Expr ν) (scope : Scope ν)
      (machine : Machine ν σ)
  | close (levels : Nat) (limits : Limits) (depth : Nat) (items : List (Item ν)) (scope : Scope ν)
      (machine : Machine ν σ)
  | program (levels : Nat) (program : Program ν σ) (world : World ν σ)

namespace Activity

/-- The world that the activity starts in. -/
def start : Activity ν σ → World ν σ
  | .evaluation _ _ _ world | .program _ _ world => world
  | .loop _ _ _ _ machine | .force _ _ _ _ _ machine | .step _ _ _ _ _ machine
  | .close _ _ _ _ _ machine => machine.world

/-- The world at the end of the activity, however it ends. -/
def leaves (host : Host ν σ) : Activity ν σ → World ν σ
  | .evaluation levels limits request world =>
      ((host.engine levels limits).evaluate request world).world
  | .loop levels limits depth code machine => code.leaves (host.engine levels limits) depth machine
  | .force levels limits rounds expr scope machine =>
      ((host.engine levels limits).forceLoop rounds expr scope machine).2.world
  | .step levels limits depth expr scope machine =>
      ((host.engine levels limits).step ((host.engine levels limits).nested depth) expr scope
        machine).2.world
  | .close levels limits depth items scope machine =>
      (((host.engine levels limits).nested depth).close items scope machine).2.world
  | .program levels code world => (code.run (host.invokeAt levels) world).2

/-- What an evaluation is, up to what it makes of the result. -/
def ofRequest (levels : Nat) (limits : Limits) (machine : Machine ν σ) :
    Evaluation ν → Activity ν σ
  | .resolve expr scope | .apply expr _ scope =>
      .loop levels limits limits.maxDepth (.resolve limits.maxSteps expr scope []) machine
  | .force expr scope | .interpret expr scope =>
      .force levels limits limits.maxSteps expr scope machine
  | .close items scope => .close levels limits limits.maxDepth items scope machine

end Activity

/-- The machine after a step is counted and announced. -/
def Machine.counted (machine : Machine ν σ) (expr : Expr ν) : Machine ν σ :=
  ⟨machine.steps + 1, machine.world.emit (.resolving expr)⟩

theorem Machine.grows_counted (machine : Machine ν σ) (expr : Expr ν) :
    machine.world.Grows (machine.counted expr).world :=
  .of_cells rfl

/-- An activity directly starts another one, after those with lower numbers that it starts. -/
inductive Host.Starts (host : Host ν σ) : Activity ν σ → Nat → Activity ν σ → Prop where
  | request (levels : Nat) (limits : Limits) (request : Evaluation ν) (world : World ν σ) :
      Starts host (.evaluation levels limits request world) 0
        (.ofRequest levels limits ⟨0, world⟩ request)
  | applied {levels : Nat} {limits : Limits} {operator : Expr ν} {arguments : List (Expr ν)}
      {scope : Scope ν} {world : World ν σ} {method : Native ν} {after : Machine ν σ}
      (hoperator : (host.engine (levels + 1) limits).resolveTop operator scope ⟨0, world⟩ =
        (.ok (.terminal (.native method)), after))
      (harguments : arguments.findSome? Expr.failure? = none) :
      Starts host (.evaluation (levels + 1) limits (.apply operator arguments scope) world) 1
        (.program levels (host method arguments scope)
          (after.world.emit (.invoking method arguments scope)))
  | forced (levels : Nat) (limits : Limits) (rounds : Nat) (expr : Expr ν) (scope : Scope ν)
      (machine : Machine ν σ) :
      Starts host (.force levels limits (rounds + 1) expr scope machine) 0
        (.loop levels limits limits.maxDepth (.resolve limits.maxSteps expr scope []) machine)
  | forcedAgain {levels : Nat} {limits : Limits} {rounds : Nat} {expr : Expr ν}
      {scope closure : Scope ν} {machine after : Machine ν σ}
      (hclosure : (host.engine levels limits).resolveTop expr scope machine =
        (.ok (.closure closure), after)) :
      Starts host (.force levels limits (rounds + 1) expr scope machine) 1
        (.force levels limits rounds closure.body closure
          ⟨after.steps, after.world.emit (.forcing closure)⟩)
  | step {levels : Nat} {limits : Limits} {depth : Nat} {loop : Loop ν} {expr : Expr ν}
      {scope : Scope ν} (machine : Machine ν σ) (hstep : loop.step? = some (expr, scope)) :
      Starts host (.loop levels limits depth loop machine) 0
        (.step levels limits depth expr scope machine)
  | next {levels : Nat} {limits : Limits} {depth : Nat} {loop more : Loop ν} {expr : Expr ν}
      {scope : Scope ν} {machine after : Machine ν σ} {outcome : Outcome ν}
      (hstep : loop.step? = some (expr, scope))
      (houtcome : (host.engine levels limits).step ((host.engine levels limits).nested depth) expr
        scope machine = (.ok outcome, after))
      (hnext : loop.next? outcome = some more) :
      Starts host (.loop levels limits depth loop machine) 1
        (.loop levels limits depth more after)
  /-- The operator of an application and then, unless it came to a value, each argument. -/
  | part {levels : Nat} {limits : Limits} {depth : Nat} {operator target : Expr ν}
      {arguments before rest heads : List (Expr ν)} {scope : Scope ν} {machine after : Machine ν σ}
      (hlimit : machine.steps < limits.maxSteps)
      (hparts : operator :: arguments = before ++ target :: rest)
      (hbefore : ((host.engine levels limits).nested (depth + 1)).resolveAll scope before
        (machine.counted (.application operator arguments)) = (.ok heads, after))
      (hoperator : ∀ value, heads.head? ≠ some (.value value)) :
      Starts host
        (.step levels limits (depth + 1) (.application operator arguments) scope machine)
        before.length
        (.loop levels limits depth (.resolve limits.maxSteps target scope []) after)
  | native {levels : Nat} {limits : Limits} {depth : Nat} {operator : Expr ν}
      {arguments heads : List (Expr ν)} {scope : Scope ν} {machine after : Machine ν σ}
      {method : Native ν} (hlimit : machine.steps < limits.maxSteps)
      (hparts : ((host.engine (levels + 1) limits).nested depth).resolveAll scope
        (operator :: arguments) (machine.counted (.application operator arguments)) =
          (.ok (.native method :: heads), after)) :
      Starts host (.step (levels + 1) limits depth (.application operator arguments) scope machine)
        (arguments.length + 1)
        (.program levels (host method heads scope)
          (after.world.emit (.invoking method heads scope)))
  | closes (levels : Nat) {limits : Limits} (depth : Nat) (items : List (Item ν)) (scope : Scope ν)
      {machine : Machine ν σ} (hlimit : machine.steps < limits.maxSteps) :
      Starts host (.step levels limits depth (.lambda items) scope machine) 0
        (.close levels limits depth items scope (machine.counted (.lambda items)))
  | names {levels : Nat} {limits : Limits} {depth : Nat} {items : List (Item ν)} {scope : Scope ν}
      {before rest : List (Lambda.Binding ν)} {position bound body : Expr ν}
      {table : Table (Expr ν)} {machine after : Machine ν σ}
      (hparts : Lambda.parts items = .ok (before ++ (position, bound) :: rest, body))
      (hbefore : ((host.engine levels limits).nested (depth + 1)).bindAll scope before .empty
        machine = (.ok table, after)) :
      Starts host (.close levels limits (depth + 1) items scope machine) before.length
        (.loop levels limits depth (.name limits.maxSteps position scope) after)
  | evaluate (levels : Nat) (limits : Limits) (request : Evaluation ν)
      (next : Expr ν → Nat → Program ν σ) (world : World ν σ) :
      Starts host (.program levels (.evaluate limits request next) world) 0
        (.evaluation levels limits request world)
  | advance {levels : Nat} {program more : Program ν σ} {world after : World ν σ}
      (h : program.advance (host.invokeAt levels) world = some (more, after)) :
      Starts host (.program levels program world) 1 (.program levels more after)

/-- An activity takes place in the course of another one, or is that one itself. -/
abbrev Host.Involves (host : Host ν σ) : Activity ν σ → Activity ν σ → Prop :=
  Relation.ReflTransGen fun outer inner => ∃ place, host.Starts outer place inner

/-! ## Readiness -/

/-- The world is orderly and stores these scopes. -/
structure World.Ready (held : σ → List (Scope ν)) (scopes : List (Scope ν)) (world : World ν σ) :
    Prop where
  orderly : world.Orderly held
  stored : world.StoresAll scopes

namespace World.Ready

variable {held : σ → List (Scope ν)} {world after : World ν σ} {scopes more : List (Scope ν)}

theorem subset (h : world.Ready held scopes) (hmore : ∀ inner ∈ more, inner ∈ scopes) :
    world.Ready held more :=
  ⟨h.orderly, h.stored.subset hmore⟩

theorem of_cells (h : world.Ready held scopes) (hcells : after.cells = world.cells)
    (hhost : after.host = world.host) : after.Ready held scopes :=
  ⟨h.orderly.of_cells hcells hhost, h.stored.grows (.of_cells hcells)⟩

end World.Ready

/-- A run that came to something has led to a world with all that is needed and what it came to. -/
theorem Run.Has.ends {held : σ → List (Scope ν)} {scopes : α → List (Scope ν)}
    {needs : List (Scope ν)} {run : Run ν σ α} (h : run.Has (.orderly held) scopes needs)
    {machine after : Machine ν σ} {result : α} (hrun : run machine = (.ok result, after))
    (hready : machine.world.Ready held needs) :
    machine.world.Grows after.world ∧ after.world.Ready held (scopes result ++ needs) := by
  have hpasses := h machine hready.orderly hready.stored
  rw [hrun] at hpasses
  exact ⟨hpasses.grows, hpasses.orderly,
    (hpasses.stored rfl).append (hready.stored.grows hpasses.grows)⟩

namespace Activity

/-- The activity starts in an orderly world that stores the scopes it is about. -/
def Sound (held : σ → List (Scope ν)) : Activity ν σ → Prop
  | .evaluation _ _ request world => world.Ready held request.scopes
  | .loop _ _ _ code machine => machine.world.Ready held code.scopes
  | .force _ _ _ expr scope machine | .step _ _ _ expr scope machine =>
      machine.world.Ready held (scope :: expr.scopes)
  | .close _ _ _ items scope machine => machine.world.Ready held (scope :: scopesItems items)
  | .program _ code world => ∃ known, code.Honest held known ∧ world.Ready held known

end Activity

namespace Loop

variable {loop more : Loop ν} {expr : Expr ν} {scope : Scope ν}

/-- Only loops with rounds left take steps, and a search does not take a step of an identifier. -/
theorem cases_of_step (h : loop.step? = some (expr, scope)) :
    (∃ rounds pending, loop = .resolve (rounds + 1) expr scope pending) ∨
      ∃ rounds, loop = .name (rounds + 1) expr scope ∧ expr.identifier? = none := by
  cases loop with
  | resolve rounds target inner pending =>
    cases rounds with
    | zero => cases h
    | succ rounds =>
      cases h
      exact .inl ⟨rounds, pending, rfl⟩
  | name rounds position inner =>
    cases rounds with
    | zero => cases h
    | succ rounds =>
      cases hname : position.identifier? with
      | some own =>
        simp only [step?, hname] at h
        cases h
      | none =>
        simp only [step?, hname] at h
        cases h
        exact .inr ⟨rounds, rfl, hname⟩

theorem scopes_of_step (h : loop.step? = some (expr, scope)) :
    loop.scopes = scope :: expr.scopes := by
  rcases cases_of_step h with ⟨rounds, pending, rfl⟩ | ⟨rounds, rfl, -⟩ <;> rfl

/-- A loop goes on with what the step came to. -/
theorem scopes_of_next {outcome : Outcome ν} (h : loop.next? outcome = some more) :
    more.scopes = outcome.scopes := by
  cases loop with
  | resolve rounds target inner pending =>
    cases rounds <;> cases outcome <;> cases h <;> rfl
  | name rounds position inner => cases rounds <;> cases outcome <;> cases h <;> rfl

end Loop

/-! ## What is started -/

/-- The first bindings of a lambda have only scopes of the lambda. -/
theorem Lambda.before_scopes {items : List (Item ν)} {before rest : List (Lambda.Binding ν)}
    {body : Expr ν} (scope : Scope ν) (hparts : Lambda.parts items = .ok (before ++ rest, body)) :
    ∀ inner ∈ scope :: (Lambda.bindingScopes before ++ (Table.empty : Table (Expr ν)).scopes),
      inner ∈ scope :: scopesItems items := by
  intro inner hm
  rcases List.mem_cons.1 hm with rfl | hbefore
  · exact List.mem_cons_self
  · rw [show (Table.empty : Table (Expr ν)).scopes = [] from rfl, List.append_nil] at hbefore
    refine List.mem_cons_of_mem _ (Lambda.parts_scopes hparts inner (List.mem_append_left _ ?_))
    rw [Lambda.bindingScopes, List.flatMap_append]
    exact List.mem_append_left _ hbefore

/-- The position of a binding has only scopes of its lambda. -/
theorem Lambda.position_scopes {items : List (Item ν)} {before rest : List (Lambda.Binding ν)}
    {position bound body : Expr ν}
    (hparts : Lambda.parts items = .ok (before ++ (position, bound) :: rest, body)) :
    ∀ inner ∈ position.scopes, inner ∈ scopesItems items := by
  intro inner hm
  refine Lambda.parts_scopes hparts inner (List.mem_append_left _ ?_)
  rw [Lambda.bindingScopes, List.mem_flatMap]
  exact ⟨(position, bound), by simp, List.mem_append_left _ hm⟩

namespace Host

variable {host : Host ν σ} {held : σ → List (Scope ν)} (hhost : host.Honest held)
  {outer inner : Activity ν σ} {place : Nat}
include hhost

/-- What a sound activity starts is sound, and starts in a world that has grown. -/
theorem Starts.begins (h : host.Starts outer place inner) (hsound : outer.Sound held) :
    outer.start.Grows inner.start ∧ inner.Sound held := by
  have hnatives (levels : Nat) (limits : Limits) :
      (host.engine levels limits).invoke.Honest held := hhost.invokeAt levels
  have hengine (levels : Nat) (limits : Limits) := Engine.has_orderly (hnatives levels limits)
  cases h with
  | request levels limits request world =>
    cases request with
    | resolve expr scope => exact ⟨.refl _, hsound⟩
    | force expr scope => exact ⟨.refl _, hsound⟩
    | interpret program root => exact ⟨.refl _, hsound⟩
    | close items scope => exact ⟨.refl _, hsound⟩
    | apply operator arguments scope =>
      exact ⟨.refl _, hsound.subset (by grind [Evaluation.scopes, Loop.scopes])⟩
  | @applied levels limits operator arguments scope world method after hoperator harguments =>
    have hrun := ((hengine (levels + 1) limits).resolveTop operator scope).weaken
      (show ∀ inner ∈ scope :: operator.scopes,
        inner ∈ scope :: (operator.scopes ++ scopesAll arguments) by grind)
    obtain ⟨hgrows, hready⟩ := hrun.ends hoperator hsound
    refine ⟨hgrows.trans (.of_cells rfl), _, hhost method arguments scope,
      (hready.subset ?_).of_cells rfl rfl⟩
    grind
  | forced levels limits rounds expr scope machine => exact ⟨.refl _, hsound⟩
  | @forcedAgain levels limits rounds expr scope closure machine after hclosure =>
    obtain ⟨hgrows, hready⟩ :=
      ((hengine levels limits).resolveTop expr scope).ends hclosure hsound
    have hstores : after.world.Stores closure := hready.stored.head
    refine ⟨hgrows.trans (.of_cells rfl), World.Ready.of_cells ⟨hready.orderly, ?_⟩ rfl rfl⟩
    exact .cons hstores (hstores.body hready.orderly.consistent)
  | step machine hstep =>
    refine ⟨.refl _, ?_⟩
    rw [Activity.Sound, ← Loop.scopes_of_step hstep]
    exact hsound
  | @next levels limits depth loop more expr scope machine after outcome hstep houtcome hnext =>
    rw [Activity.Sound, Loop.scopes_of_step hstep] at hsound
    have hrun := Engine.step_orderly (hnatives levels limits)
      ((hengine levels limits).nested depth) expr scope
    obtain ⟨hgrows, hready⟩ := hrun.ends houtcome hsound
    refine ⟨hgrows, hready.subset fun inner hm => List.mem_append_left _ ?_⟩
    exact Loop.scopes_of_next hnext ▸ hm
  | @part levels limits depth operator target arguments before rest heads scope machine after hlimit
      hparts hbefore hoperator =>
    have hscopes : (Expr.application operator arguments).scopes =
        scopesAll (before ++ target :: rest) := by rw [← hparts, scopesAll, Expr.scopes]
    have hnested := (hengine levels limits).nested (depth + 1)
    have hrun := (hnested.resolveAll scope before).weaken
      (show ∀ inner ∈ scope :: scopesAll before,
        inner ∈ scope :: (Expr.application operator arguments).scopes by
          grind [mem_scopesAll])
    obtain ⟨hgrows, hready⟩ := hrun.ends hbefore (hsound.of_cells rfl rfl)
    refine ⟨(machine.grows_counted _).trans hgrows, hready.subset ?_⟩
    grind [Loop.scopes, mem_scopesAll]
  | @native levels limits depth operator arguments heads scope machine after method hlimit hparts =>
    have hnested := (hengine (levels + 1) limits).nested depth
    obtain ⟨hgrows, hready⟩ :=
      (hnested.resolveAll scope (operator :: arguments)).ends hparts (hsound.of_cells rfl rfl)
    refine ⟨(machine.grows_counted _).trans (hgrows.trans (.of_cells rfl)), _,
      hhost method heads scope, (hready.subset ?_).of_cells rfl rfl⟩
    grind [scopesAll]
  | closes levels depth items scope hlimit =>
    exact ⟨.of_cells rfl, World.Ready.of_cells hsound rfl rfl⟩
  | @names levels limits depth items scope before rest position bound body table machine after
      hparts hbefore =>
    have hnested := (hengine levels limits).nested (depth + 1)
    have hrun := ((hengine levels limits).bindAll hnested scope before .empty).weaken
      (Lambda.before_scopes scope hparts)
    obtain ⟨hgrows, hready⟩ := hrun.ends hbefore hsound
    refine ⟨hgrows, hready.subset fun inner hm => List.mem_append_right _ ?_⟩
    rcases List.mem_cons.1 hm with rfl | hposition
    · exact List.mem_cons_self
    · exact List.mem_cons_of_mem _ (Lambda.position_scopes hparts inner hposition)
  | evaluate levels limits request next world =>
    obtain ⟨known, hhonest, hready⟩ := hsound
    cases hhonest with
    | evaluate hrequest hnext =>
      exact ⟨.refl _, hready.orderly,
        hrequest.stored hready.orderly.consistent hready.stored⟩
  | @advance levels program more world after hadvance =>
    obtain ⟨known, hhonest, hready⟩ := hsound
    obtain ⟨hgrows, horderly, known, hmore, hstored⟩ :=
      hhonest.advance (hhost.invokeAt levels) hready.orderly hready.stored hadvance
    exact ⟨hgrows, known, hmore, horderly, hstored⟩

end Host
end CallByNeed
