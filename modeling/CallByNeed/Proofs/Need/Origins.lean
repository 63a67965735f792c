import CallByNeed.Proofs.Names.Registered
import CallByNeed.Proofs.Need.Order
import CallByNeed.Proofs.Runs.Rounds

/-! # Where records come from

A record that an activity leaves behind was there before, or it is the result of a resolution of its
identifier that took place in the activity and found no record (`Host.Settles`). Loops are the
exception: they also write for the identifiers that they are handed as pending (`Activity.Writes`).
In either case the activity explains the record (`Host.Explains`).

A step is a sequence of loops that it starts, of calls and of runs that record nothing, so it
explains its records if these do (`Host.explains_step`).
-/

namespace CallByNeed
set_option autoImplicit false

variable {ν σ α β : Type}

/-! ## New records -/

/-- What is there stays, and if the identifier has a record only afterwards, that has a cause. -/
structure World.Gains (number : Nat) (name : String) (cause : Terminal ν → Prop)
    (before after : World ν σ) : Prop where
  grows : before.Grows after
  caused : ∀ {result}, before.recordAt number name = none →
    after.recordAt number name = some result → cause result

namespace World.Gains

variable {number : Nat} {name : String} {cause : Terminal ν → Prop} {first second third : World ν σ}

theorem of_records (hgrows : first.Grows second)
    (h : second.recordAt number name = first.recordAt number name) :
    Gains number name cause first second := by
  refine ⟨hgrows, fun hnone hsome => ?_⟩
  rw [h, hnone] at hsome
  cases hsome

theorem of_cells (h : second.cells = first.cells) : Gains number name cause first second :=
  .of_records (.of_cells h) (recordAt_of_cells h number name)

theorem refl (world : World ν σ) : Gains number name cause world world :=
  .of_cells rfl

theorem emit (world : World ν σ) (event : Event ν) :
    Gains number name cause world (world.emit event) :=
  .of_cells rfl

theorem newScope (world : World ν σ) (make : Nat → Scope ν) :
    Gains number name cause world (world.newScope make).2 :=
  .of_records (grows_newScope world make) (recordAt_newScope world make number name)

theorem trans (h : Gains number name cause first second)
    (h' : Gains number name cause second third) : Gains number name cause first third where
  grows := h.grows.trans h'.grows
  caused hnone hsome := by
    cases hmiddle : second.recordAt number name with
    | none => exact h'.caused hmiddle hsome
    | some found =>
      -- A record that is there on the way is the one at the end.
      cases (h'.grows.record hmiddle).symm.trans hsome
      exact h.caused hnone hmiddle

theorem mono {more : Terminal ν → Prop} (h : Gains number name cause first second)
    (hmore : ∀ result, cause result → more result) : Gains number name more first second :=
  ⟨h.grows, fun hnone hsome => hmore _ (h.caused hnone hsome)⟩

end World.Gains

namespace Run

variable {number : Nat} {name : String} {cause : Terminal ν → Prop}

theorem gains_bind {first : Run ν σ α} {next : α → Run ν σ β} {machine : Machine ν σ}
    (h : machine.world.Gains number name cause (first machine).2.world)
    (hn : ∀ result after, first machine = (.ok result, after) →
      after.world.Gains number name cause (next result after).2.world) :
    machine.world.Gains number name cause ((first >>= next) machine).2.world := by
  rw [bind_apply]
  rcases hrun : first machine with ⟨stop | result, after⟩
  · rw [hrun] at h
    exact h
  · rw [hrun] at h
    exact h.trans (hn result after hrun)

/-- The run adds to the world, but no records. -/
def RecordsNothing (run : Run ν σ α) : Prop :=
  ∀ machine, machine.world.Grows (run machine).2.world ∧
    ∀ number name, (run machine).2.world.recordAt number name = machine.world.recordAt number name

namespace RecordsNothing

theorem gains {run : Run ν σ α} (h : RecordsNothing run) (machine : Machine ν σ) :
    machine.world.Gains number name cause (run machine).2.world :=
  .of_records (h machine).1 ((h machine).2 number name)

theorem bind {first : Run ν σ α} {next : α → Run ν σ β} (h : RecordsNothing first)
    (hn : ∀ result, RecordsNothing (next result)) : RecordsNothing (first >>= next) := by
  intro machine
  have hfirst := h machine
  rw [bind_apply]
  rcases hrun : first machine with ⟨stop | result, after⟩
  · rw [hrun] at hfirst
    exact hfirst
  · rw [hrun] at hfirst
    obtain ⟨hgrows, hrecords⟩ := hn result after
    exact ⟨hfirst.1.trans hgrows, fun number name =>
      (hrecords number name).trans (hfirst.2 number name)⟩

end RecordsNothing

theorem recordsNothing_pure (result : α) : RecordsNothing (pure result : Run ν σ α) :=
  fun machine => ⟨.refl machine.world, fun _ _ => rfl⟩

theorem recordsNothing_throw (stop : Stop) : RecordsNothing (throw stop : Run ν σ α) :=
  fun machine => ⟨.refl machine.world, fun _ _ => rfl⟩

theorem recordsNothing_emit (event : Event ν) : RecordsNothing (emit event : Run ν σ Unit) :=
  fun _ => ⟨.of_cells rfl, fun _ _ => rfl⟩

theorem recordsNothing_memoized (scope : Scope ν) (name : String) :
    RecordsNothing (memoized scope name : Run ν σ (Option (Terminal ν))) :=
  fun machine => ⟨.refl machine.world, fun _ _ => rfl⟩

theorem recordsNothing_reportRebound (name : String) (table : Table (Expr ν)) :
    RecordsNothing (reportRebound name table : Run ν σ Unit) := by
  rw [reportRebound]
  cases table.find? name with
  | none => exact recordsNothing_pure ()
  | some dropped => exact recordsNothing_emit _

theorem recordsNothing_closing (table : Table (Expr ν)) (body : Expr ν) (scope : Scope ν) :
    RecordsNothing (emit (.closing table.size body) >>= fun _ =>
      withWorld (World.newClosure table body scope) : Run ν σ (Scope ν)) := by
  have hnew : RecordsNothing (withWorld (World.newClosure table body scope) : Run ν σ (Scope ν)) :=
    fun machine =>
      ⟨World.grows_newScope machine.world fun number => .closure number table body scope,
        World.recordAt_newScope machine.world fun number => .closure number table body scope⟩
  exact (recordsNothing_emit _).bind fun _ => hnew

theorem recordsNothing_call (closure : Scope ν) (arguments : List (Expr ν)) (scope : Scope ν) :
    RecordsNothing (call closure arguments scope : Run ν σ (Scope ν)) := by
  have hnew :
      RecordsNothing (withWorld (World.newCall closure arguments scope) : Run ν σ (Scope ν)) :=
    fun machine => ⟨World.grows_newCall closure arguments scope machine.world,
      World.newCall_records closure arguments scope machine.world⟩
  exact hnew.bind fun frame => (recordsNothing_emit _).bind fun _ => recordsNothing_pure frame

theorem recordsNothing_stepIdentifier (name : String) (scope : Scope ν) :
    RecordsNothing (stepIdentifier name scope : Run ν σ (Outcome ν)) := by
  rw [stepIdentifier]
  cases scope.find name with
  | error failure => exact recordsNothing_throw _
  | ok found =>
    refine (recordsNothing_memoized found.2 name).bind fun record => ?_
    cases record with
    | none => exact recordsNothing_pure _
    | some result => exact recordsNothing_pure _

end Run

/-! ## What records come from -/

/-- The activity is a resolution of the identifier, looked up in this frame, which was not recorded
then, and the result at which it ended is what is recorded. -/
inductive Host.Settles (host : Host ν σ) (number : Nat) (name : String) (result : Terminal ν) :
    Activity ν σ → Prop where
  | resolved {levels depth rounds : Nat} {limits : Limits} {scope owner : Scope ν} {bound : Expr ν}
      {pending : List (Scope ν × String)} {machine after : Machine ν σ}
      (hfind : scope.find name = .ok (bound, owner)) (howner : owner.number = number)
      (hstart : machine.world.recordAt number name = none)
      (hresolved : (host.engine levels limits).resolveLoop
        ((host.engine levels limits).nested depth) rounds (.identifier name) scope pending machine =
          (.ok (.terminal result), after))
      (hrecord : after.world.recordAt number name = some result) :
      Settles host number name result
        (.loop levels limits depth (.resolve rounds (.identifier name) scope pending) machine)

/-- What is pending when the activity starts. -/
def Activity.pending : Activity ν σ → List (Scope ν × String)
  | .loop _ _ _ (.resolve _ _ _ pending) _ => pending
  | _ => []

/-- The activity is a resolution that came to the result with the identifier pending at its
start. -/
inductive Activity.Writes (host : Host ν σ) (number : Nat) (name : String) (result : Terminal ν) :
    Activity ν σ → Prop where
  | pending {levels depth rounds : Nat} {limits : Limits} {expr : Expr ν} {scope owner : Scope ν}
      {pending : List (Scope ν × String)} {machine after : Machine ν σ}
      (hpending : (owner, name) ∈ pending) (howner : owner.number = number)
      (hresolved : (host.engine levels limits).resolveLoop
        ((host.engine levels limits).nested depth) rounds expr scope pending machine =
          (.ok (.terminal result), after)) :
      Writes host number name result
        (.loop levels limits depth (.resolve rounds expr scope pending) machine)

theorem Activity.Writes.mem_pending {host : Host ν σ} {number : Nat} {name : String}
    {result : Terminal ν} {activity : Activity ν σ} (h : activity.Writes host number name result) :
    ∃ owner, (owner, name) ∈ activity.pending := by
  obtain ⟨hpending, -, -⟩ := h
  exact ⟨_, hpending⟩

namespace Host

variable {host : Host ν σ} {number : Nat} {name : String}

/-- A resolution in the course of the activity has settled the record, or the activity itself was to
write it. -/
def Causes (host : Host ν σ) (number : Nat) (name : String) (activity : Activity ν σ)
    (result : Terminal ν) : Prop :=
  (∃ inner, host.Involves activity inner ∧ host.Settles number name result inner) ∨
    activity.Writes host number name result

/-- If the identifier has a record only after the activity, the activity has caused it. -/
def Explains (host : Host ν σ) (number : Nat) (name : String) (activity : Activity ν σ) : Prop :=
  activity.start.Gains number name (host.Causes number name activity) (activity.leaves host)

/-- What explains a part of an activity explains it as a part, if nothing was pending there. -/
theorem Explains.within {outer inner : Activity ν σ} {place : Nat}
    (h : host.Explains number name inner) (hstarts : host.Starts outer place inner)
    (hpending : inner.pending = []) :
    inner.start.Gains number name (host.Causes number name outer) (inner.leaves host) := by
  refine h.mono fun result hcause => ?_
  rcases hcause with ⟨settling, hinvolves, hsettles⟩ | hown
  · exact .inl ⟨settling, .head ⟨place, hstarts⟩ hinvolves, hsettles⟩
  · obtain ⟨owner, hmem⟩ := hown.mem_pending
    rw [hpending] at hmem
    exact absurd hmem List.not_mem_nil

/-! ## Parts of a step -/

section Steps

variable {held : σ → List (Scope ν)} (hhost : host.Honest held) {levels depth : Nat}
  {limits : Limits}

/-- All loops that are nested one level deeper are explained. -/
abbrev ExplainsNested (host : Host ν σ) (held : σ → List (Scope ν)) (number : Nat) (name : String)
    (levels : Nat) (limits : Limits) (depth : Nat) : Prop :=
  ∀ lower, depth = lower + 1 → ∀ loop machine,
    (Activity.loop levels limits lower loop machine).Sound held →
    host.Explains number name (.loop levels limits lower loop machine)

/-- All programs of native methods are explained. -/
abbrev ExplainsNatives (host : Host ν σ) (held : σ → List (Scope ν)) (number : Nat) (name : String)
    (levels : Nat) : Prop :=
  ∀ lower, levels = lower + 1 → ∀ code world,
    (Activity.program lower code world).Sound held →
    host.Explains number name (.program lower code world)

variable (hloops : host.ExplainsNested held number name levels limits depth)
include hhost hloops

theorem explains_close {items : List (Item ν)} {scope : Scope ν} {machine : Machine ν σ}
    (hsound : (Activity.close levels limits depth items scope machine).Sound held) :
    host.Explains number name (.close levels limits depth items scope machine) := by
  show World.Gains number name _ machine.world
    (((host.engine levels limits).nested depth).close items scope machine).2.world
  rw [Nested.close]
  cases hparts : Lambda.parts items with
  | error shape => exact .refl _
  | ok parts =>
    obtain ⟨bindings, body⟩ := parts
    -- The names of the rest are computed from wherever those before it have led to.
    have hrest (rest : List (Lambda.Binding ν)) : ∀ before table turn, bindings = before ++ rest →
        ((host.engine levels limits).nested depth).bindAll scope before .empty machine =
          (.ok table, turn) →
        turn.world.Gains number name
          (host.Causes number name (.close levels limits depth items scope machine))
          (((host.engine levels limits).nested depth).bindAll scope rest table turn).2.world := by
      induction rest with
      | nil => exact fun before table turn _ _ => .refl _
      | cons binding rest ih =>
        obtain ⟨position, bound⟩ := binding
        intro before table turn hbindings hbefore
        rw [Nested.bindAll_cons]
        refine Run.gains_bind ?_ fun own named hname =>
          Run.gains_bind ((Run.recordsNothing_reportRebound own table).gains named)
            fun _ reported hreported => ih (before ++ [(position, bound)]) _ reported ?_ ?_
        · cases depth with
          | zero => exact .refl _
          | succ lower =>
            rw [hbindings] at hparts
            have hstarts : host.Starts (.close levels limits (lower + 1) items scope machine) _ _ :=
              .names hparts hbefore
            exact (hloops lower rfl _ _ (hstarts.begins hhost hsound).2).within hstarts rfl
        · rw [hbindings, List.append_assoc, List.singleton_append]
        · rw [Nested.bindAll_append, Run.bind_apply, hbefore]
          exact Nested.bindAll_cons_iff.2 ⟨own, named, reported, hname, hreported, rfl⟩
    exact Run.gains_bind (hrest bindings [] .empty machine rfl rfl) fun table after _ =>
      (Run.recordsNothing_closing table body scope).gains after

/-- Each part of an application is resolved in a loop of its own. -/
theorem gains_part {operator target : Expr ν} {arguments before rest heads : List (Expr ν)}
    {scope : Scope ν} {machine turn : Machine ν σ}
    (hsound : (Activity.step levels limits depth (.application operator arguments) scope
      machine).Sound held) (hlimit : machine.steps < limits.maxSteps)
    (hparts : operator :: arguments = before ++ target :: rest)
    (hbefore : ((host.engine levels limits).nested depth).resolveAll scope before
      (machine.counted (.application operator arguments)) = (.ok heads, turn))
    (hoperator : ∀ value, heads.head? ≠ some (.value value)) :
    turn.world.Gains number name
      (host.Causes number name
        (.step levels limits depth (.application operator arguments) scope machine))
      (((host.engine levels limits).nested depth).resolve target scope turn).2.world := by
  cases depth with
  | zero => exact .refl _
  | succ lower =>
    have hstarts := Starts.part hlimit hparts hbefore hoperator
    exact (hloops lower rfl _ _ (hstarts.begins hhost hsound).2).within hstarts rfl

/-- The arguments of an application, from wherever its operator has led to. -/
theorem gains_arguments {operator : Expr ν} {arguments : List (Expr ν)} {scope : Scope ν}
    {machine middle : Machine ν σ} {head : Head ν}
    (hsound : (Activity.step levels limits depth (.application operator arguments) scope
      machine).Sound held) (hlimit : machine.steps < limits.maxSteps)
    (hoperator : ((host.engine levels limits).nested depth).resolve operator scope
      (machine.counted (.application operator arguments)) = (.ok head, middle))
    (hhead : ∀ value, head.toExpr ≠ .value value) :
    middle.world.Gains number name
      (host.Causes number name
        (.step levels limits depth (.application operator arguments) scope machine))
      (((host.engine levels limits).nested depth).resolveAll scope arguments middle).2.world := by
  have hrest (rest : List (Expr ν)) : ∀ done heads turn, arguments = done ++ rest →
      ((host.engine levels limits).nested depth).resolveAll scope done middle = (.ok heads, turn) →
      turn.world.Gains number name
        (host.Causes number name
          (.step levels limits depth (.application operator arguments) scope machine))
        (((host.engine levels limits).nested depth).resolveAll scope rest turn).2.world := by
    induction rest with
    | nil => exact fun done heads turn _ _ => .refl _
    | cons target rest ih =>
      intro done heads turn harguments hdone
      have hbefore : ((host.engine levels limits).nested depth).resolveAll scope (operator :: done)
          (machine.counted (.application operator arguments)) =
            (.ok (head.toExpr :: heads), turn) := by
        rw [Nested.resolveAll_cons, Run.bind_apply, hoperator]
        dsimp only
        rw [Run.bind_apply, hdone]
        rfl
      rw [Nested.resolveAll_cons]
      refine Run.gains_bind (gains_part hhost hloops hsound hlimit
        (show operator :: arguments = (operator :: done) ++ target :: rest by rw [harguments]; rfl)
        hbefore fun value hvalue => hhead value (Option.some.inj hvalue)) fun found after hfound =>
          Run.gains_bind (ih (done ++ [target]) (heads ++ [found.toExpr]) after ?_ ?_)
            fun others last _ => .refl _
      · rw [harguments, List.append_assoc, List.singleton_append]
      · rw [Nested.resolveAll_append, Run.bind_apply, hdone]
        dsimp only
        rw [Run.bind_apply, Nested.resolveAll_cons, Run.bind_apply, hfound]
        rfl
  exact hrest arguments [] [] middle rfl rfl

omit hloops in
/-- The call of a native method, from wherever the arguments have led to. -/
theorem gains_native (hnatives : host.ExplainsNatives held number name levels)
    {outer : Activity ν σ} {method : Native ν} {heads : List (Expr ν)} {scope : Scope ν}
    {turn : Machine ν σ} (hsound : outer.Sound held)
    (hstarts : ∀ lower, levels = lower + 1 → ∃ place, host.Starts outer place
      (.program lower (host method heads scope)
        (turn.world.emit (.invoking method heads scope)))) :
    turn.world.Gains number name (host.Causes number name outer)
      ((host.engine levels limits).callNative method heads scope turn).2.world := by
  have hcall : turn.world.Gains number name (host.Causes number name outer)
      ((host.engine levels limits).invoke method heads scope
        (turn.world.emit (.invoking method heads scope))).2 := by
    refine (World.Gains.emit turn.world (.invoking method heads scope)).trans ?_
    cases levels with
    | zero => exact .refl _
    | succ lower =>
      obtain ⟨place, hstarts⟩ := hstarts lower rfl
      exact (hnatives lower rfl _ _ (hstarts.begins hhost hsound).2).within hstarts rfl
  exact hcall.trans (.emit _ _)

theorem explains_application (hnatives : host.ExplainsNatives held number name levels)
    {operator : Expr ν} {arguments : List (Expr ν)} {scope : Scope ν} {machine : Machine ν σ}
    (hsound : (Activity.step levels limits depth (.application operator arguments) scope
      machine).Sound held) (hlimit : machine.steps < limits.maxSteps) :
    host.Explains number name
      (.step levels limits depth (.application operator arguments) scope machine) := by
  show World.Gains number name _ machine.world ((host.engine levels limits).step
    ((host.engine levels limits).nested depth) _ scope machine).2.world
  rw [Engine.step_application hlimit]
  refine (World.Gains.emit machine.world (.resolving (.application operator arguments))).trans ?_
  refine Run.gains_bind (gains_part hhost hloops hsound hlimit (List.nil_append _).symm rfl nofun)
    fun head middle hoperator => ?_
  rcases head with (value | method) | closure
  · exact ((Run.recordsNothing_emit _).bind fun _ => Run.recordsNothing_pure _).gains middle
  · refine Run.gains_bind (gains_arguments hhost hloops hsound hlimit hoperator nofun)
      fun heads turn hheads => Run.gains_bind ?_ fun result after _ => .refl _
    have hparts : ((host.engine levels limits).nested depth).resolveAll scope
        (operator :: arguments) (machine.counted (.application operator arguments)) =
          (.ok (.native method :: heads), turn) := by
      rw [Nested.resolveAll_cons, Run.bind_apply, hoperator]
      dsimp only
      rw [Run.bind_apply, hheads]
      rfl
    refine gains_native hhost hnatives hsound fun lower hlower => ?_
    subst hlower
    exact ⟨_, .native hlimit hparts⟩
  · exact Run.gains_bind (gains_arguments hhost hloops hsound hlimit hoperator nofun)
      fun heads turn _ => ((Run.recordsNothing_call closure heads scope).bind fun frame =>
        Run.recordsNothing_pure _).gains turn

theorem explains_step (hnatives : host.ExplainsNatives held number name levels) {expr : Expr ν}
    {scope : Scope ν} {machine : Machine ν σ}
    (hsound : (Activity.step levels limits depth expr scope machine).Sound held) :
    host.Explains number name (.step levels limits depth expr scope machine) := by
  show World.Gains number name _ machine.world ((host.engine levels limits).step
    ((host.engine levels limits).nested depth) expr scope machine).2.world
  rcases Nat.lt_or_ge machine.steps limits.maxSteps with hlimit | hlimit
  · cases expr with
    | application operator arguments =>
      exact explains_application hhost hloops hnatives hsound hlimit
    | lambda items =>
      have hstarts : host.Starts (.step levels limits depth (.lambda items) scope machine) 0 _ :=
        .closes levels depth items scope hlimit
      have hclose := explains_close hhost hloops (hstarts.begins hhost hsound).2
      rw [Engine.step_lambda hlimit]
      refine (World.Gains.emit machine.world (.resolving (.lambda items))).trans ?_
      exact Run.gains_bind (hclose.within hstarts rfl) fun closure after _ => .refl _
    | identifier own =>
      rw [Engine.step_allowed hlimit]
      exact ((Run.recordsNothing_emit _).bind fun _ =>
        Run.recordsNothing_stepIdentifier own scope).gains ⟨machine.steps + 1, machine.world⟩
    | failure failure =>
      rw [Engine.step_allowed hlimit]
      exact ((Run.recordsNothing_emit _).bind fun _ => Run.recordsNothing_throw _).gains
        ⟨machine.steps + 1, machine.world⟩
    | value value =>
      rw [Engine.step_allowed hlimit]
      exact .of_cells rfl
    | native method =>
      rw [Engine.step_allowed hlimit]
      exact .of_cells rfl
    | scope inner =>
      rw [Engine.step_allowed hlimit]
      exact .of_cells rfl
  · rw [Engine.step_exhausted hlimit]
    exact .refl _

end Steps

end Host

end CallByNeed
