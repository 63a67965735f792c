import CallByNeed.Proofs.Lexical.Opaque
import CallByNeed.Proofs.Likeness.Loops
import CallByNeed.Proofs.CallByName.PlainNatives

/-! # Calls from different frames

What a call of a closure comes to does not depend on the frame it is called from
(`Engine.force_newCall`). The arguments of a call are deferred in the calling frame, but they have
been reduced to weak head form by then: the calling frame is only ever the scope of an expression
that no scope matters to.
-/

namespace CallByNeed
set_option autoImplicit false

variable {ν σ : Type}

/-! ## Natives that look at the calling frame's kind and depth -/

/-- What is to be seen of a native call if frames are opaque. -/
structure SeenCall (ν : Type) where
  method : Native ν
  /-- The arguments, with one and the same frame in the place of all frames. -/
  arguments : List (Expr ν)
  texts : List String
  kind : ScopeKind
  depth : Nat

def NativeCall.seen : NativeCall ν → SeenCall ν
  | (method, arguments, scope) =>
      ⟨method, arguments.map (Expr.replaceScopes fun _ => .root 0 .empty),
        arguments.map Expr.display, scope.kind, scope.depth⟩

def World.seenCalls (world : World ν σ) : List (SeenCall ν) :=
  world.calls.map NativeCall.seen

/-- The natives compute a function of their arguments, with frames opaque, and of the kind and the
depth of the calling frame. They leave the records of the frames that there are alone, and whatever
natives they call in turn, these calls depend on nothing else either. -/
structure Invoke.ComputesByDepth (invoke : Invoke ν σ) (code : ScopeKind → Nat → Code ν) : Prop
    where
  uniform : ∀ kind depth, (code kind depth).Uniform
  result : ∀ method arguments scope (world : World ν σ),
    (invoke method arguments scope world).1.forget =
      (code scope.kind scope.depth method arguments).forget
  size : ∀ method arguments scope (world : World ν σ),
    world.size ≤ (invoke method arguments scope world).2.size
  records : ∀ method arguments scope (world : World ν σ) {number}, number < world.size →
    ∀ name, (invoke method arguments scope world).2.recordAt number name =
      world.recordAt number name
  calls : ∀ {method arguments arguments' scope scope'} {world world' : World ν σ},
    NativeCall.seen (method, arguments, scope) = NativeCall.seen (method, arguments', scope') →
    world.seenCalls = world'.seenCalls →
    (invoke method arguments scope world).2.seenCalls =
      (invoke method arguments' scope' world').2.seenCalls

/-! ## Arguments deferred in either frame -/

/-- One of these heads, deferred in either scope. -/
inductive Deferred (heads : List (Head ν)) (first second : Scope ν) : Expr ν → Expr ν → Prop where
  | thunk (number : Nat) {head : Head ν} (h : head ∈ heads) :
      Deferred heads first second (.scope (.thunk number head.toExpr first))
        (.scope (.thunk number head.toExpr second))

theorem deferred_showsAlike (heads : List (Head ν)) (first second : Scope ν) :
    ShowsAlike (Deferred heads first second) := by
  rintro _ _ ⟨number, _⟩
  rfl

/-- All scopes among the heads are stored closures. -/
def World.StoresHeads (world : World ν σ) (heads : List (Head ν)) : Prop :=
  ∀ closure, .closure closure ∈ heads → closure.kind = .closure ∧ world.Stores closure

/-- Stored heads are like themselves where all frames correspond to themselves. -/
theorem World.StoresHeads.alike_self {world : World ν σ} (hconsistent : world.Consistent)
    {heads : List (Head ν)} (h : world.StoresHeads heads) {loose : Expr ν → Expr ν → Prop}
    {place : Places} (hplace : ∀ number, number < world.size → place number number) {head : Head ν}
    (hhead : head ∈ heads) : head.Alike (.renewed loose) place head := by
  cases head with
  | terminal result =>
    cases result with
    | value it => exact .terminal (.value rfl)
    | native method => exact .terminal (.native method)
  | closure closure =>
    obtain ⟨hkind, hstored⟩ := h closure hhead
    exact .closure (hconsistent.alike_self hplace hstored) hkind

/-! ## The comparison -/

/-- Worlds with frames that correspond one to one, the first ones to themselves, with alike records
and with the same calls to be seen. -/
structure World.Parallel (like : Likeness ν) (base : Nat) (place : Places)
    (world world' : World ν σ) : Prop where
  same : ∀ number, number < base → place number number
  made : ∀ {number number'}, place number number' → number < world.size ∧ number' < world'.size
  unique : ∀ {number number' other other'}, place number number' → place other other' →
    (number = other ↔ number' = other')
  records : ∀ {number number'}, place number number' → ∀ name,
    Option.Rel (Terminal.Alike like) (world.recordAt number name) (world'.recordAt number' name)
  calls : world.seenCalls = world'.seenCalls

def Comparison.calls (loose : Expr ν → Expr ν → Prop) (base : Nat) : Comparison ν σ where
  like := .renewed loose
  worlds := World.Parallel (.renewed loose) base
  excused _ := False
  stops := Eq

namespace World.Parallel

variable {like : Likeness ν} {base : Nat} {place : Places} {world world' : World ν σ}
  (h : world.Parallel like base place world')
include h

theorem newScope (make make' : Nat → Scope ν) :
    let later : Places := fun number number' =>
      place number number' ∨ number = world.size ∧ number' = world'.size
    (world.newScope make).2.Parallel like base later (world'.newScope make').2 where
  same number hnumber := .inl (h.same number hnumber)
  made := by
    rw [size_newScope, size_newScope]
    rintro number number' (hplace | ⟨rfl, rfl⟩)
    · obtain ⟨hleft, hright⟩ := h.made hplace
      exact ⟨Nat.lt_succ_of_lt hleft, Nat.lt_succ_of_lt hright⟩
    · exact ⟨Nat.lt_succ_self _, Nat.lt_succ_self _⟩
  unique := by
    rintro number number' other other' (hplace | ⟨rfl, rfl⟩) (hother | ⟨rfl, rfl⟩)
    · exact h.unique hplace hother
    · obtain ⟨hleft, hright⟩ := h.made hplace
      exact ⟨fun heq => absurd heq (Nat.ne_of_lt hleft),
        fun heq => absurd heq (Nat.ne_of_lt hright)⟩
    · obtain ⟨hleft, hright⟩ := h.made hother
      exact ⟨fun heq => absurd heq (Nat.ne_of_gt hleft),
        fun heq => absurd heq (Nat.ne_of_gt hright)⟩
    · exact ⟨fun _ => rfl, fun _ => rfl⟩
  records := by
    rintro number number' (hplace | ⟨rfl, rfl⟩) name
    · rw [recordAt_newScope, recordAt_newScope]
      exact h.records hplace name
    · rw [recordAt_newScope, recordAt_newScope, recordAt_eq_none (Nat.le_refl _),
        recordAt_eq_none (Nat.le_refl _)]
      exact .none
  calls := h.calls

theorem memoize {scope scope' : Scope ν} (hscope : place scope.number scope'.number)
    (name : String) {result result' : Terminal ν} (hresult : result.Alike like result') :
    (world.memoize scope name result).Parallel like base place
      (world'.memoize scope' name result') where
  same := h.same
  made hplace := by
    rw [size_memoize, size_memoize]
    exact h.made hplace
  unique := h.unique
  records := by
    intro number number' hplace other
    rw [recordAt_memoize, recordAt_memoize]
    have hrecord := h.records hplace other
    by_cases hhere : number = scope.number ∧ other = name
    · have hhere' : number' = scope'.number := (h.unique hplace hscope).1 hhere.1
      obtain ⟨hleft, hright⟩ := h.made hplace
      rw [if_pos ⟨hhere.1, hhere.2, hleft⟩, if_pos ⟨hhere', hhere.2, hright⟩]
      revert hrecord
      generalize world.recordAt number other = first
      generalize world'.recordAt number' other = second
      intro hrecord
      cases hrecord with
      | none => exact .some hresult
      | some hold => exact .some hold
    · have hhere' : ¬(number' = scope'.number ∧ other = name) :=
        fun hboth => hhere ⟨(h.unique hplace hscope).2 hboth.1, hboth.2⟩
      rw [if_neg fun hall => hhere ⟨hall.1, hall.2.1⟩,
        if_neg fun hall => hhere' ⟨hall.1, hall.2.1⟩]
      exact hrecord
  calls := h.calls

end World.Parallel

/-- What is read off one by one from alike heads is the same if it is for each pair. -/
theorem Head.map_alike {α : Type} {like : Likeness ν} {place : Places} {read : Expr ν → α}
    (hread : ∀ {head head' : Head ν}, head.Alike like place head' →
      read head.toExpr = read head'.toExpr) {heads heads' : List (Head ν)}
    (h : List.Forall₂ (Head.Alike like place) heads heads') :
    (heads.map Head.toExpr).map read = (heads'.map Head.toExpr).map read := by
  induction h with
  | nil => rfl
  | cons hhead _ ih => simp only [List.map_cons, ih, hread hhead]

/-- Alike heads in alike scopes are seen as the same call. -/
theorem NativeCall.seen_alike {loose : Expr ν → Expr ν → Prop} {place : Places}
    (hshows : ShowsAlike loose) (method : Native ν) {heads heads' : List (Head ν)}
    {scope scope' : Scope ν}
    (hheads : List.Forall₂ (Head.Alike (.renewed loose) place) heads heads')
    (hscope : scope.Alike (.renewed loose) place scope') :
    NativeCall.seen (method, heads.map Head.toExpr, scope) =
      NativeCall.seen (method, heads'.map Head.toExpr, scope') := by
  have hopaque {head head' : Head ν} (h : head.Alike (.renewed loose) place head') :
      head.toExpr.replaceScopes (fun _ => .root 0 .empty) =
        head'.toExpr.replaceScopes fun _ => .root 0 .empty := by
    cases h with
    | closure => rfl
    | terminal hresult =>
      cases hresult with
      | value h => exact congrArg Expr.value h
      | native => rfl
  rw [seen, seen, Head.map_alike hopaque hheads,
    Head.map_alike (fun h => h.toExpr.display hshows) hheads, hscope.kind, hscope.depth]

section Fair

variable {engine : Engine ν σ} {code : ScopeKind → Nat → Code ν}
  (hnatives : engine.invoke.ComputesByDepth code)
include hnatives

theorem World.Parallel.invoke {loose : Expr ν → Expr ν → Prop} {base : Nat} {place : Places}
    {world world' : World ν σ} (h : world.Parallel (.renewed loose) base place world')
    (hshows : ShowsAlike loose) (method : Native ν) {heads heads' : List (Head ν)}
    {scope scope' : Scope ν}
    (hheads : List.Forall₂ (Head.Alike (.renewed loose) place) heads heads')
    (hscope : scope.Alike (.renewed loose) place scope') :
    (engine.invoke method (heads.map Head.toExpr) scope world).2.Parallel (.renewed loose) base
      place (engine.invoke method (heads'.map Head.toExpr) scope' world').2 where
  same := h.same
  made hplace :=
    ⟨Nat.lt_of_lt_of_le (h.made hplace).1 (hnatives.size method _ scope world),
      Nat.lt_of_lt_of_le (h.made hplace).2 (hnatives.size method _ scope' world')⟩
  unique := h.unique
  records hplace name := by
    rw [hnatives.records method _ scope world (h.made hplace).1,
      hnatives.records method _ scope' world' (h.made hplace).2]
    exact h.records hplace name
  calls := hnatives.calls (NativeCall.seen_alike hshows method hheads hscope) h.calls

theorem Comparison.calls_fair {loose : Expr ν → Expr ν → Prop} {base : Nat}
    (hshows : ShowsAlike loose)
    (hloose : ∀ {place : Places} {expr expr' : Expr ν},
      (∀ number, number < base → place number number) → loose expr expr' →
      ∃ number number' scope scope', ∃ head head' : Head ν,
        expr = .scope (.thunk number head.toExpr scope) ∧
        expr' = .scope (.thunk number' head'.toExpr scope') ∧
        head.Alike (.renewed loose) place head') :
    (Comparison.calls loose base).Fair engine where
  stops _ := rfl
  cut h := h.elim
  name h := congrArg (fun it => it.payload.name?) h
  misnamed h :=
    .inr (congrArg (fun text => Stop.failed (.invalidBindingName text)) (h.toExpr.display hshows))
  loose h hl := .inr (hloose h.same hl)
  emit {place world world' event event'} h hevent := by
    refine ⟨h.same, h.made, h.unique, h.records, ?_⟩
    rw [World.seenCalls, World.seenCalls, World.calls_emit, World.calls_emit, List.map_append,
      List.map_append]
    refine congr (congrArg _ h.calls) ?_
    cases hevent with
    | quiet hquiet hquiet' => rw [hquiet, hquiet']
    | invoking method hheads hscope =>
      exact congrArg (fun call => [call]) (NativeCall.seen_alike hshows method hheads hscope)
  newScope make make' h := ⟨_, fun _ _ => .inl, .inr ⟨rfl, rfl⟩, h.newScope make make'⟩
  record h hplace name := h.records hplace name
  memoize name h hscope hresult := h.memoize hscope name hresult
  native {place world world' heads heads' scope scope'} method h hheads hscope := by
    refine .inr ⟨place, .refl _, ?_, h.invoke hnatives hshows method hheads hscope⟩
    have hresult := hnatives.result method (heads'.map Head.toExpr) scope' world'
    rw [← hscope.kind, ← hscope.depth] at hresult
    exact (hnatives.uniform scope.kind scope.depth).alike hheads method
      (hnatives.result method _ scope world) hresult

end Fair

/-! ## Calls -/

/-- The thunks of the arguments under the same numbers, deferred in either scope. -/
theorem World.newThunks_deferred {heads : List (Head ν)} (first second : Scope ν) {place : Places}
    (rest : List (Head ν)) (hrest : ∀ head ∈ rest, head ∈ heads) {world world' : World ν σ}
    (hsize : world.size = world'.size) :
    AllAlike (.renewed (Deferred heads first second)) place
      (world.newThunks first (rest.map Head.toExpr)).1
      (world'.newThunks second (rest.map Head.toExpr)).1 := by
  induction rest generalizing world world' with
  | nil => exact .nil
  | cons head rest ih =>
    have hnext : (world.newThunk head.toExpr first).2.size =
        (world'.newThunk head.toExpr second).2.size := by
      show (world.newScope _).2.size = (world'.newScope _).2.size
      rw [size_newScope, size_newScope, hsize]
    refine .cons (.loose ?_) (ih (fun head hm => hrest head (List.mem_cons_of_mem _ hm)) hnext)
    show Deferred heads first second (.scope (.thunk world.size head.toExpr first))
      (.scope (.thunk world'.size head.toExpr second))
    rw [hsize]
    exact .thunk _ (hrest head List.mem_cons_self)

/-- Frames below a number, each corresponding to itself. -/
def Places.below (size : Nat) : Places :=
  fun number number' => number = number' ∧ number < size

/-- The worlds after calls from different frames are parallel. -/
theorem World.parallel_newCall (loose : Expr ν → Expr ν → Prop) (closure first second : Scope ν)
    (arguments : List (Expr ν)) (world : World ν σ) :
    World.Parallel (.renewed loose) world.size (.below (world.size + arguments.length + 1))
      (world.newCall closure arguments first).2 (world.newCall closure arguments second).2 := by
  have hsize (calling : Scope ν) :
      (world.newCall closure arguments calling).2.size = world.size + arguments.length + 1 := by
    show ((world.newThunks calling arguments).2.newScope _).2.size = _
    rw [size_newScope, size_newThunks]
  refine ⟨fun number hnumber => ⟨rfl, by omega⟩, ?_, ?_, ?_, ?_⟩
  · rintro number _ ⟨rfl, hnumber⟩
    rw [hsize, hsize]
    exact ⟨hnumber, hnumber⟩
  · rintro number _ other _ ⟨rfl, -⟩ ⟨rfl, -⟩
    exact Iff.rfl
  · rintro number _ ⟨rfl, -⟩ name
    rw [newCall_records, newCall_records]
    cases world.recordAt number name with
    | none => exact .none
    | some result =>
      cases result with
      | value it => exact .some (.value rfl)
      | native method => exact .some (.native method)
  · rw [seenCalls, seenCalls, calls_of_events (events_newCall closure arguments first world),
      calls_of_events (events_newCall closure arguments second world)]

/-- The scope in which a scope is to be evaluated does not matter. -/
theorem Engine.run_force_scope (engine : Engine ν σ) (inner within within' : Scope ν) :
    engine.run (.force (.scope inner) within) = engine.run (.force (.scope inner) within') := by
  have hloop (rounds : Nat) : engine.forceLoop rounds (.scope inner) within =
      engine.forceLoop rounds (.scope inner) within' := by
    cases rounds with
    | zero => rfl
    | succ rounds =>
      rw [forceLoop_succ, forceLoop_succ]
      cases hsteps : engine.limits.maxSteps with
      | zero =>
        simp only [resolveTop, nested, hsteps]
        rfl
      | succ steps =>
        simp only [resolveTop, nested, hsteps]
        rfl
  rw [run, run, hloop]

section Call

variable {code : ScopeKind → Nat → Code ν} {world : World ν σ} {closure : Scope ν}
  {heads : List (Head ν)}

/-- Calls of a closure from two frames are alike. -/
theorem World.newCall_alike (hworld : world.Consistent) (hclosure : world.Stores closure)
    (first second : Scope ν) :
    (world.newCall closure (heads.map Head.toExpr) first).1.Alike
      (.renewed (Deferred heads first second)) (.below (world.size + heads.length + 1))
      (world.newCall closure (heads.map Head.toExpr) second).1 := by
  have hself : closure.Alike (.renewed (Deferred heads first second))
      (.below (world.size + heads.length + 1)) closure :=
    hworld.alike_self (fun number hnumber => ⟨rfl, by omega⟩) hclosure
  refine hself.newCall ?_ (newThunks_deferred first second heads (fun _ h => h) rfl)
  have hsize (calling : Scope ν) :
      (world.newThunks calling (heads.map Head.toExpr)).2.size = world.size + heads.length := by
    rw [size_newThunks, List.length_map]
  exact ⟨(hsize first).trans (hsize second).symm, Nat.lt_succ_of_le (Nat.le_of_eq (hsize first))⟩

/-- Which frame a closure is called from does not matter: what the call comes to is the same up to
the identities of values that are built, the steps are as many, and so are the native calls, which
look the same. -/
theorem Engine.force_newCall {engine : Engine ν σ} (hnatives : engine.invoke.ComputesByDepth code)
    (hworld : world.Consistent) (hclosure : world.Stores closure)
    (hheads : world.StoresHeads heads) (first second : Scope ν) :
    let made := fun calling => world.newCall closure (heads.map Head.toExpr) calling
    let forced := fun calling within =>
      engine.evaluate (.force (.scope (made calling).1) within) (made calling).2
    ∀ within within',
      (forced first within).outcome.map Expr.forget =
        (forced second within').outcome.map Expr.forget ∧
      (forced first within).steps = (forced second within').steps ∧
      (forced first within).world.seenCalls = (forced second within').world.seenCalls := by
  intro made forced within within'
  have hfair : (Comparison.calls (Deferred heads first second) world.size).Fair engine := by
    refine Comparison.calls_fair hnatives (deferred_showsAlike heads first second) ?_
    rintro place _ _ hplace ⟨number, hhead⟩
    exact ⟨number, number, first, second, _, _, rfl, rfl,
      hheads.alike_self hworld hplace hhead⟩
  have hframe : (made first).1.Alike _ _ (made second).1 :=
    World.newCall_alike hworld hclosure first second
  have hparallel := World.parallel_newCall (Deferred heads first second) closure first second
    (heads.map Head.toExpr) world
  rw [List.length_map] at hparallel
  have hwithin (calling within : Scope ν) : forced calling within =
      engine.evaluate (.force (.scope (made calling).1) (made calling).1) (made calling).2 := by
    simp only [forced, evaluate, run_force_scope engine _ within (made calling).1]
  rw [hwithin first within, hwithin second within']
  rcases Engine.evaluate_force_mirrors hfair (.scope hframe) hframe hparallel with
    ⟨_, -, hexcused⟩ | ⟨_, -, hworlds, hsteps, houtcomes⟩
  · exact hexcused.elim
  · refine ⟨?_, hsteps, hworlds.calls⟩
    revert houtcomes
    generalize Evaluated.outcome _ = left
    generalize Evaluated.outcome _ = right
    rintro (hstop | hresult)
    · exact congrArg Except.error hstop
    · cases hresult with
      | value h => exact congrArg (Except.ok ∘ Expr.value) h
      | native method => rfl

end Call

/-! ## A host that looks at the depth -/

theorem Program.Gives.run_events {invoke : Invoke ν σ} {program : Program ν σ} {expected : Expr ν}
    (h : program.Gives expected) (world : World ν σ) :
    (program.run invoke world).2.events = world.events := by
  induction h generalizing world with
  | done h => rfl
  | @newValue payload _ _ _ ih => exact ih world.values (world.buildValue payload).2
  | host _ ih => exact ih world.host _

/-- A host of programs that only build values may look at the kind and the depth of the scope. -/
theorem Host.computesByDepth {host : Host ν σ} {code : ScopeKind → Nat → Code ν}
    (huniform : ∀ kind depth, (code kind depth).Uniform)
    (h : ∀ method arguments scope,
      (host method arguments scope).Gives (code scope.kind scope.depth method arguments))
    (levels : Nat) : (host.invokeAt (levels + 1)).ComputesByDepth code where
  uniform := huniform
  result method arguments scope world := ((h method arguments scope).run world).1
  size method arguments scope world :=
    Nat.le_of_eq (congrArg Array.size ((h method arguments scope).run world).2).symm
  records method arguments scope world _ _ name :=
    World.recordAt_of_cells ((h method arguments scope).run world).2 _ name
  calls {method arguments arguments' scope scope' world world'} _ hcalls := by
    have hquiet (arguments : List (Expr ν)) (scope : Scope ν) (world : World ν σ) :
        (host.invokeAt (levels + 1) method arguments scope world).2.calls = world.calls :=
      World.calls_of_events ((h method arguments scope).run_events world)
    rw [World.seenCalls, hquiet, World.seenCalls, hquiet]
    exact hcalls

namespace Standard

/-- The plain natives and the one that tells the depth of the calling frame. -/
def depthHost : Host StandardNative HostState := fun method arguments scope =>
  match method.code with
  | .depth => integer scope.depth
  | _ => plainHost method arguments scope

/-- What these natives compute, with 0 for the identity of built values. -/
def depthCode (_ : ScopeKind) (depth : Nat) : Code StandardNative := fun method arguments =>
  match method.code with
  | .depth => .value ⟨.built 0, .integer .i64 (wrap depth)⟩
  | _ => plainCode method arguments

theorem depthHost_gives (method : Native StandardNative) (arguments : List (Expr StandardNative))
    (scope : Scope StandardNative) :
    (depthHost method arguments scope).Gives
      (depthCode scope.kind scope.depth method arguments) := by
  unfold depthHost depthCode
  cases method.code with
  | depth => exact .newValue fun _ => .done rfl
  | _ => exact plainHost_gives method arguments scope

theorem depthHost_computes (levels : Nat) :
    (depthHost.invokeAt (levels + 1)).ComputesByDepth depthCode := by
  refine Host.computesByDepth (fun kind depth method arguments replace => ?_) depthHost_gives levels
  unfold depthCode
  cases method.code with
  | depth => rfl
  | _ => exact plainCode_uniform method arguments replace

end Standard

/-- A root frame that binds a number, and a closure in it that adds its argument and the depth. -/
def addingClosure : Scope StandardNative × World StandardNative HostState :=
  let depth : Expr StandardNative := .application (.native ⟨"depth", .depth⟩) []
  let sum : Expr StandardNative :=
    .application (.native ⟨"add", .add⟩) [.identifier "x", .identifier "$0", depth]
  let number : Expr StandardNative := .value ⟨.supplied 0, .integer .i64 1⟩
  let (root, world) := (World.initial .initial).newRoot (.ofList [("x", number)])
  world.newClosure .empty sum root

/-- Called from its own root frame and from a frame that binds the name anew, the closure adds one,
the argument and its own depth. -/
theorem force_newCall_addingClosure :
    let first : Scope StandardNative := .root 0 .empty
    let second : Scope StandardNative :=
      .root 7 (.ofList [("x", .value ⟨.supplied 0, .integer .i64 30⟩)])
    let forced := fun calling =>
      let (frame, world) := addingClosure.2.newCall addingClosure.1
        [.value ⟨.supplied 1, .integer .i64 2⟩] calling
      (Standard.depthHost.engine 1 ⟨30, 4⟩).evaluate (.force (.scope frame) calling) world
    Standard.int? (forced first).result = some 5 ∧
      (forced first).outcome.map Expr.forget = (forced second).outcome.map Expr.forget ∧
      (forced first).steps = (forced second).steps ∧
      (forced first).world.seenCalls = (forced second).world.seenCalls := by
  intro first second forced
  have hnatives : (Standard.depthHost.engine 1 ⟨30, 4⟩).invoke.ComputesByDepth
      Standard.depthCode := Standard.depthHost_computes 0
  have hworld : addingClosure.2.Consistent := by
    refine World.Consistent.newClosure (World.Consistent.newRoot (World.consistent_initial _) ?_)
      ?_ ?_ rfl
    · exact World.StoresAll.nil
    · exact World.StoresAll.nil
    · exact World.StoresAll.nil
  have hheads : addingClosure.2.StoresHeads
      [.terminal (.value ⟨.supplied 1, .integer .i64 2⟩)] := by
    intro closure hclosure
    cases List.mem_singleton.1 hclosure
  have hclosure : addingClosure.2.Stores addingClosure.1 := rfl
  exact ⟨by decide +kernel,
    Engine.force_newCall hnatives hworld hclosure hheads first second first second⟩

end CallByNeed
