import CallByNeed.Host.Natives
import CallByNeed.Proofs.Laziness.Holes

/-! # Natives that do not look into closures

Programs that differ in what is in a hole only do the same, up to what is in the hole. They may
start evaluations of the code in closures as long as they hand on the failures that come of it. All
standard natives but the one that shows its arguments as text are like that
(`Standard.silentHost_oblivious`).
-/

namespace CallByNeed
set_option autoImplicit false

variable {ν σ : Type}

/-- Programs that are the same up to what is in a hole. -/
inductive Program.Alike (hosts : Failure → Expr ν → σ → σ → Prop) (failure : Failure)
    (filling : Expr ν) : Program ν σ → Program ν σ → Prop where
  | done {result result' : Expr ν} (h : result.Alike (.filled failure filling) Eq result') :
      Alike hosts failure filling (.done result) (.done result')
  | newValue {payload : Payload ν} {next next' : Value ν → Program ν σ}
      (h : ∀ value, Alike hosts failure filling (next value) (next' value)) :
      Alike hosts failure filling (.newValue payload next) (.newValue payload next')
  | newThunk {deferred deferred' : Expr ν} {calling calling' : Scope ν}
      {next next' : Scope ν → Program ν σ}
      (hdeferred : deferred.Alike (.filled failure filling) Eq deferred')
      (hcalling : calling.Alike (.filled failure filling) Eq calling')
      (h : ∀ {thunk thunk'}, thunk.Alike (.filled failure filling) Eq thunk' →
        Alike hosts failure filling (next thunk) (next' thunk')) :
      Alike hosts failure filling (.newThunk deferred calling next)
        (.newThunk deferred' calling' next')
  | memoized {scope scope' : Scope ν} {name : String}
      {next next' : Option (Terminal ν) → Program ν σ}
      (hscope : scope.Alike (.filled failure filling) Eq scope')
      (h : ∀ record, Alike hosts failure filling (next record) (next' record)) :
      Alike hosts failure filling (.memoized scope name next) (.memoized scope' name next')
  | host {change change' : σ → σ} {next next' : σ → Program ν σ}
      (hchange : ∀ {state state'}, hosts failure filling state state' →
        hosts failure filling (change state) (change' state'))
      (h : ∀ {state state'}, hosts failure filling state state' →
        Alike hosts failure filling (next state) (next' state')) :
      Alike hosts failure filling (.host change next) (.host change' next')
  | force {limits : Limits} {expr expr' : Expr ν} {scope scope' : Scope ν}
      {next next' : Expr ν → Nat → Program ν σ}
      (hexpr : expr.Alike (.filled failure filling) Eq expr')
      (hscope : scope.Alike (.filled failure filling) Eq scope')
      (hreveals : ∀ other steps, failure.Reveals other →
        next (.failure other) steps = .done (.failure other))
      (h : ∀ {result result'} steps, result.Alike (.filled failure filling) Eq result' →
        Alike hosts failure filling (next result steps) (next' result' steps)) :
      Alike hosts failure filling (.evaluate limits (.force expr scope) next)
        (.evaluate limits (.force expr' scope') next')

/-- What two programs have done is the same up to what is in a hole, unless the first one gives a
failure that came of it. -/
def Program.EndsAlike (hosts : Failure → Expr ν → σ → σ → Prop) (failure : Failure)
    (filling : Expr ν) (after after' : Expr ν × World ν σ) : Prop :=
  (∃ other, after.1 = .failure other ∧ failure.Reveals other) ∨
    after.1.Alike (.filled failure filling) Eq after'.1 ∧
      after.2.Twin (hosts failure filling) after'.2

section Programs

variable {hosts : Failure → Expr ν → σ → σ → Prop} {invoke : Invoke ν σ}

/-- An evaluation that a native starts comes up with a failure that is excused, or ends alike. -/
theorem Engine.force_alike (hinvoke : invoke.Oblivious hosts) (limits : Limits)
    {failure : Failure} {filling : Expr ν} {expr expr' : Expr ν} {scope scope' : Scope ν}
    (hexpr : expr.Alike (.filled failure filling) Eq expr')
    (hscope : scope.Alike (.filled failure filling) Eq scope') {world world' : World ν σ}
    (htwin : world.Twin (hosts failure filling) world') :
    let first := Engine.evaluate ⟨limits, invoke⟩ (.force expr scope) world
    let second := Engine.evaluate ⟨limits, invoke⟩ (.force expr' scope') world'
    (∃ other, first.result = .failure other ∧ failure.Reveals other) ∨
      first.result.Alike (.filled failure filling) Eq second.result ∧
        first.steps = second.steps ∧ first.world.Twin (hosts failure filling) second.world := by
  have hfair : (Comparison.filled hosts failure filling).Fair ⟨limits, invoke⟩ :=
    Comparison.filled_fair hinvoke failure filling
  intro first second
  rcases Engine.evaluate_force_mirrors hfair hexpr hscope ⟨rfl, htwin⟩ with
    ⟨stop, hstop, hexcused⟩ | ⟨_, -, ⟨-, hafter⟩, hsteps, houtcomes⟩
  · refine .inl ⟨stop.failure, ?_, hexcused⟩
    rw [Evaluated.result, Evaluated.reported, show first.outcome = .error stop from hstop]
  · refine .inr ⟨?_, hsteps, hafter⟩
    rw [Evaluated.result, Evaluated.result, Evaluated.reported, Evaluated.reported]
    revert houtcomes
    generalize first.outcome = left
    generalize second.outcome = right
    rintro (hstop | hresult)
    · cases hstop
      exact .failure _
    · exact hresult.toExpr

theorem Program.Alike.run (hinvoke : invoke.Oblivious hosts) {failure : Failure}
    {filling : Expr ν} {program program' : Program ν σ}
    (h : program.Alike hosts failure filling program') {world world' : World ν σ}
    (htwin : world.Twin (hosts failure filling) world') :
    Program.EndsAlike hosts failure filling (program.run invoke world)
      (program'.run invoke world') := by
  induction h generalizing world world' with
  | done h => exact .inr ⟨h, htwin⟩
  | @newValue payload next next' _ ih =>
    have hvalue : (world.buildValue payload).1 = (world'.buildValue payload).1 := by
      show (⟨.built world.values, payload⟩ : Value ν) = ⟨.built world'.values, payload⟩
      rw [htwin.values]
    have hafter : (world.buildValue payload).2.Twin (hosts failure filling)
        (world'.buildValue payload).2 :=
      ⟨htwin.size, congrArg Nat.succ htwin.values, htwin.records, htwin.host⟩
    show EndsAlike hosts failure filling
      ((next (world.buildValue payload).1).run invoke (world.buildValue payload).2) _
    rw [hvalue]
    exact ih _ hafter
  | @newThunk deferred deferred' calling calling' _ _ hdeferred hcalling _ ih =>
    exact ih (hcalling.newThunk htwin.size hdeferred)
      (htwin.newScope (fun number => .thunk number deferred calling)
        (fun number => .thunk number deferred' calling'))
  | @memoized scope scope' name next next' hscope _ ih =>
    have hrecord : world.memoized scope name = world'.memoized scope' name := by
      rw [World.memoized_eq, World.memoized_eq, htwin.records]
      exact congrArg (world'.recordAt · name) hscope.number
    show EndsAlike hosts failure filling ((next (world.memoized scope name)).run invoke world) _
    rw [hrecord]
    exact ih _ htwin
  | host hchange _ ih =>
    exact ih htwin.host ⟨htwin.size, htwin.values, htwin.records, hchange htwin.host⟩
  | @force limits expr expr' scope scope' next next' hexpr hscope hreveals _ ih =>
    rcases Engine.force_alike hinvoke limits hexpr hscope htwin with
      ⟨other, hresult, hother⟩ | ⟨hresult, hsteps, hafter⟩
    · refine .inl ⟨other, ?_, hother⟩
      show ((next _ _).run invoke _).1 = _
      rw [hresult, hreveals other _ hother]
      rfl
    · show EndsAlike hosts failure filling ((next _ _).run invoke _) ((next' _ _).run invoke _)
      rw [hsteps]
      exact ih _ hresult hafter

/-- A host whose programs are alike on alike heads is oblivious at every level. -/
theorem Host.oblivious {host : Host ν σ}
    (h : ∀ failure filling method {heads heads' : List (Head ν)} {scope scope' : Scope ν},
      List.Forall₂ (Head.Alike (.filled failure filling) Eq) heads heads' →
      scope.Alike (.filled failure filling) Eq scope' →
      (host method (heads.map Head.toExpr) scope).Alike hosts failure filling
        (host method (heads'.map Head.toExpr) scope')) (levels : Nat) :
    (host.invokeAt levels).Oblivious hosts := by
  induction levels with
  | zero => exact fun failure filling _ _ _ _ _ _ _ _ _ htwin => .inr ⟨.failure _, htwin⟩
  | succ levels ih =>
    exact fun failure filling method _ _ _ _ _ _ hheads hscope htwin =>
      (h failure filling method hheads hscope).run ih htwin

end Programs

/-! ## The standard natives -/

namespace Standard

/-- The standard natives without the one that shows its arguments as text. -/
def silentHost : Host StandardNative HostState := fun method arguments scope =>
  match method.code with
  | .display => .refuse "no text of code"
  | code => program code arguments scope

/-- States of the host whose constants differ in what is in a hole only. -/
structure StatesAlike (failure : Failure) (filling : HostExpr) (state state' : HostState) : Prop
    where
  ticks : state.ticks = state'.ticks
  constants : AllAlike (.filled failure filling) Eq state.constants.toList state'.constants.toList

variable {failure : Failure} {filling : HostExpr}

/-- Programs of the standard host that are the same up to what is in a hole. -/
abbrev HostAlike (failure : Failure) (filling : HostExpr) : HostProgram → HostProgram → Prop :=
  Program.Alike StatesAlike failure filling

theorem alike_refuse (message : String) :
    HostAlike failure filling (.refuse message) (.refuse message) :=
  .done (.failure _)

theorem alike_value (payload : Payload StandardNative) :
    HostAlike failure filling (.value payload) (.value payload) :=
  .newValue fun _ => .done (.value rfl)

/-! ### What natives read off their arguments -/

theorem value?_alike {head head' : Head StandardNative}
    (h : head.Alike (.filled failure filling) Eq head') :
    head.toExpr.value? = head'.toExpr.value? := by
  cases h with
  | closure => rfl
  | terminal h =>
    cases h with
    | value h => exact congrArg some h
    | native => rfl

theorem int?_alike {head head' : Head StandardNative}
    (h : head.Alike (.filled failure filling) Eq head') :
    int? head.toExpr = int? head'.toExpr := by
  rw [int?, int?, value?_alike h]

theorem name?_alike {head head' : Head StandardNative}
    (h : head.Alike (.filled failure filling) Eq head') :
    head.toExpr.name? = head'.toExpr.name? := by
  rw [Expr.name?, Expr.name?, value?_alike h]

theorem bool?_alike {head head' : Head StandardNative}
    (h : head.Alike (.filled failure filling) Eq head') :
    bool? head.toExpr = bool? head'.toExpr := by
  cases h with
  | closure => rfl
  | terminal h =>
    cases h with
    | value h => exact congrArg (fun it => bool? (.value it)) h
    | native => rfl

section Arguments

variable {heads heads' : List (Head StandardNative)}
  (h : List.Forall₂ (Head.Alike (.filled failure filling) Eq) heads heads')
include h

theorem mapM_alike {α : Type} {read : HostExpr → Option α}
    (hread : ∀ {head head' : Head StandardNative},
      head.Alike (.filled failure filling) Eq head' → read head.toExpr = read head'.toExpr) :
    (heads.map Head.toExpr).mapM read = (heads'.map Head.toExpr).mapM read := by
  induction h with
  | nil => rfl
  | cons hhead _ ih =>
    rw [List.map_cons, List.map_cons, List.mapM_cons, List.mapM_cons, hread hhead, ih]

theorem alike_withTwoIntegers (name : String) {next : Int → Int → HostProgram}
    (hnext : ∀ first second, HostAlike failure filling (next first second) (next first second)) :
    HostAlike failure filling (withTwoIntegers name (heads.map Head.toExpr) next)
      (withTwoIntegers name (heads'.map Head.toExpr) next) := by
  unfold withTwoIntegers
  rw [mapM_alike h int?_alike]
  match (heads'.map Head.toExpr).mapM int? with
  | some [first, second] => exact hnext first second
  | none | some [] | some [_] | some (_ :: _ :: _ :: _) => exact alike_refuse _

theorem alike_accumulate (name : String) (start : Int) (join : Int → Int → Int) :
    HostAlike failure filling (accumulate name (heads.map Head.toExpr) start join)
      (accumulate name (heads'.map Head.toExpr) start join) := by
  unfold accumulate
  rw [mapM_alike h int?_alike]
  cases (heads'.map Head.toExpr).mapM int? with
  | some integers => exact alike_value _
  | none => exact alike_refuse _

theorem alike_withFirst (message : String) {next next' : HostExpr → HostProgram}
    (hnext : ∀ {head head' : Head StandardNative},
      head.Alike (.filled failure filling) Eq head' →
      HostAlike failure filling (next head.toExpr) (next' head'.toExpr)) :
    HostAlike failure filling (withFirst message (heads.map Head.toExpr) next)
      (withFirst message (heads'.map Head.toExpr) next') := by
  cases h with
  | nil => exact alike_refuse _
  | cons hhead _ => exact hnext hhead

theorem firstName_alike :
    (heads.map Head.toExpr).head?.bind Expr.name? =
      (heads'.map Head.toExpr).head?.bind Expr.name? := by
  cases h with
  | nil => rfl
  | cons hhead _ => exact name?_alike hhead

theorem alike_withName (message : String) {next next' : String → HostProgram}
    (hnext : ∀ name, HostAlike failure filling (next name) (next' name)) :
    HostAlike failure filling (withName message (heads.map Head.toExpr) next)
      (withName message (heads'.map Head.toExpr) next') := by
  unfold withName
  rw [firstName_alike h]
  cases (heads'.map Head.toExpr).head?.bind Expr.name? with
  | some name => exact hnext name
  | none => exact alike_refuse _

end Arguments

theorem lookup_alike {scope scope' : Scope StandardNative}
    (h : scope.Alike (.filled failure filling) Eq scope') (name : String) :
    (scope.lookup name).Alike (.filled failure filling) Eq (scope'.lookup name) := by
  unfold Scope.lookup
  have hfind := h.find name
  revert hfind
  generalize scope.find name = first
  generalize scope'.find name = second
  intro hfind
  cases hfind with
  | missing failure => exact .failure _
  | found hbound _ => exact hbound

theorem alike_constant (index : Nat) {state state' : HostState}
    (h : StatesAlike failure filling state state') :
    HostAlike failure filling
      (match state.constants[index]? with
      | some expr => .done expr
      | none => .refuse "no such constant")
      (match state'.constants[index]? with
      | some expr => .done expr
      | none => .refuse "no such constant") := by
  rw [← Array.getElem?_toList, ← Array.getElem?_toList]
  have hall := h.constants
  by_cases hindex : index < state.constants.toList.length
  · have hindex' : index < state'.constants.toList.length := hall.length_eq ▸ hindex
    rw [List.getElem?_eq_getElem hindex, List.getElem?_eq_getElem hindex']
    exact .done (hall.get hindex hindex')
  · have hindex' : ¬index < state'.constants.toList.length := hall.length_eq ▸ hindex
    rw [List.getElem?_eq_none (Nat.le_of_not_lt hindex),
      List.getElem?_eq_none (Nat.le_of_not_lt hindex')]
    exact alike_refuse _

/-! ### The natives one by one -/

theorem silentHost_alike (method : Native StandardNative)
    {heads heads' : List (Head StandardNative)}
    {scope scope' : Scope StandardNative}
    (hheads : List.Forall₂ (Head.Alike (.filled failure filling) Eq) heads heads')
    (hscope : scope.Alike (.filled failure filling) Eq scope') :
    HostAlike failure filling (silentHost method (heads.map Head.toExpr) scope)
      (silentHost method (heads'.map Head.toExpr) scope') := by
  obtain ⟨name, code⟩ := method
  cases code with
  | display => exact alike_refuse _
  | add | mul => exact alike_accumulate hheads _ _ _
  | sub | lt | eq | pair => exact alike_withTwoIntegers hheads _ fun _ _ => alike_value _
  | first => exact alike_withFirst hheads _ fun hhead => .done hhead.toExpr
  | last =>
    show HostAlike failure filling (withFirst _ (heads.map Head.toExpr).reverse .done)
      (withFirst _ (heads'.map Head.toExpr).reverse .done)
    rw [← List.map_reverse, ← List.map_reverse]
    exact alike_withFirst (List.rel_reverse hheads) _ fun hhead => .done hhead.toExpr
  | count =>
    show HostAlike failure filling (integer (heads.map Head.toExpr).length)
      (integer (heads'.map Head.toExpr).length)
    rw [List.length_map, List.length_map, hheads.length_eq]
    exact alike_value _
  | concat =>
    simp only [silentHost, program, mapM_alike hheads name?_alike]
    cases (heads'.map Head.toExpr).mapM Expr.name? with
    | some names => exact alike_value _
    | none => exact alike_refuse _
  | symbol => exact alike_withName hheads _ fun name => .done (.identifier name)
  | fail =>
    simp only [silentHost, program, firstName_alike hheads]
    exact alike_refuse _
  | choose =>
    rcases hheads with _ | ⟨hcondition, _ | ⟨hyes, _ | ⟨hno, _ | ⟨hmore, hrest⟩⟩⟩⟩
    · exact alike_refuse _
    · exact alike_refuse _
    · exact alike_refuse _
    · simp only [silentHost, program, List.map_cons, List.map_nil, bool?_alike hcondition]
      split
      · exact .done hyes.toExpr
      · exact .done hno.toExpr
      · exact alike_refuse _
    · exact alike_refuse _
  | tick =>
    refine .host (fun hstates => ⟨congrArg (· + 1) hstates.ticks, hstates.constants⟩)
      fun {state state'} hstates => ?_
    rw [hstates.ticks]
    exact alike_value _
  | call =>
    cases hheads with
    | nil => exact alike_refuse _
    | cons hhead hrest =>
      exact .done (.application hhead.toExpr
        (HeadsAlike.allAlike ⟨_, _, rfl, rfl, hrest⟩))
  | delay =>
    exact alike_withFirst hheads _ fun hhead => .done (.lambda (.cons (.bare hhead.toExpr) .nil))
  | thunk =>
    exact alike_withFirst hheads _ fun hhead =>
      .newThunk hhead.toExpr hscope fun hthunk => .done (.scope hthunk)
  | here => exact .done (.scope hscope)
  | up =>
    simp only [silentHost, program]
    have hparent := hscope.parent?
    revert hparent
    generalize scope.parent? = parent
    generalize scope'.parent? = parent'
    intro hparent
    cases hparent with
    | none => exact alike_refuse _
    | some hparent => exact .done (.scope hparent)
  | peek => exact alike_withName hheads _ fun name => .done (lookup_alike hscope name)
  | memo => exact alike_withName hheads _ fun name => .memoized hscope fun _ => alike_value _
  | depth =>
    show HostAlike failure filling (integer scope.depth) (integer scope'.depth)
    rw [hscope.depth]
    exact alike_value _
  | argc =>
    simp only [silentHost, program]
    have harguments := hscope.frame.role.arguments?
    revert harguments
    show Option.Rel _ scope.arguments? scope'.arguments? → _
    generalize scope.arguments? = arguments
    generalize scope'.arguments? = arguments'
    intro harguments
    cases harguments with
    | none => exact alike_value _
    | some hall =>
      simp only [hall.length_eq]
      exact alike_value _
  | force =>
    exact alike_withFirst hheads _ fun hhead =>
      .force hhead.toExpr hscope (fun _ _ _ => rfl) fun _ hresult => .done hresult
  | constant index =>
    exact .host (fun hstates => hstates) fun hstates => alike_constant index hstates

theorem silentHost_oblivious (levels : Nat) :
    (silentHost.invokeAt levels).Oblivious StatesAlike :=
  Host.oblivious (fun _ _ method _ _ _ _ hheads hscope =>
    silentHost_alike method hheads hscope) levels

theorem statesAlike_refl (failure : Failure) (filling : HostExpr) (state : HostState) :
    StatesAlike failure filling state state :=
  ⟨rfl, allAlike_refl _⟩

end Standard

/-- A block that adds two numbers, with the hole as an argument in the value of a binding that is
not used. -/
def unusedArgument : Context StandardNative :=
  let number (value : Int) : Expr StandardNative := .value ⟨.supplied 0, .integer .i64 value⟩
  .bindingValue [] (.identifier "unused") (.argument (.identifier "twice") [] .hole [])
    [.bare (.application (.native ⟨"add", .add⟩) [number 1, number 2])]

/-- The block comes to the sum in the same steps whether a failure or a block without a return
expression is in the hole. -/
theorem force_lazy_unusedArgument :
    let force := fun expr => (Standard.silentHost.engine 1 ⟨20, 4⟩).evaluate
      (.force (unusedArgument.fill expr) (.root 0 .empty)) (.initial .initial)
    let three : Expr StandardNative := .value ⟨.built 0, .integer .i64 3⟩
    (force (.failure .rootScopeMisuse)).outcome = .ok three ∧
      (force (.lambda [])).outcome = .ok three ∧
      (force (.lambda [])).steps = (force (.failure .rootScopeMisuse)).steps := by
  intro force three
  have hprobe : (force (.failure .rootScopeMisuse)).outcome = .ok three := rfl
  obtain ⟨hlazy, -⟩ := Engine.force_lazy
    (show (Standard.silentHost.engine 1 ⟨20, 4⟩).invoke.Oblivious Standard.StatesAlike from
      Standard.silentHost_oblivious 1) Standard.statesAlike_refl unusedArgument .rootScopeMisuse
    (.root 0 .empty) (.initial .initial)
  obtain ⟨houtcome, hsteps⟩ := hlazy three hprobe (.lambda [])
  exact ⟨hprobe, houtcome, hsteps⟩

end CallByNeed
