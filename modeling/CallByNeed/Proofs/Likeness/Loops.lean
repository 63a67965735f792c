import CallByNeed.Proofs.Likeness.Runs
import CallByNeed.Proofs.Worlds.Consistency

/-! # Loops that mirror each other

A step from alike expressions has alike outcomes. What is loosely alike is dealt with in the loops:
an excused failure ends the first run, and a pair of thunks comes to alike heads in the same number
of steps, whatever scopes the thunks belong to. By induction over the rounds the loops of two runs
mirror each other, and over the levels so do nested resolutions.
-/

namespace CallByNeed
set_option autoImplicit false

variable {ν σ α β : Type} {c : Comparison ν σ} {place : Places}

/-- What is to be reduced is alike: expressions and scopes are, or the expressions are heads already
and no scope matters to them. -/
inductive Ready (like : Likeness ν) (place : Places) :
    Expr ν → Scope ν → Expr ν → Scope ν → Prop where
  | alike {expr expr' : Expr ν} {scope scope' : Scope ν} (hexpr : expr.Alike like place expr')
      (hscope : scope.Alike like place scope') : Ready like place expr scope expr' scope'
  | head {head head' : Head ν} (h : head.Alike like place head') (scope scope' : Scope ν) :
      Ready like place head.toExpr scope head'.toExpr scope'

theorem Ready.mono {like : Likeness ν} {later : Places} (hlater : place.Extends later)
    {expr expr' : Expr ν} {scope scope' : Scope ν} (h : Ready like place expr scope expr' scope') :
    Ready like later expr scope expr' scope' := by
  cases h with
  | alike hexpr hscope => exact .alike (hexpr.mono hlater) (hscope.mono hlater)
  | head h => exact .head (h.mono hlater) _ _

/-- What is ready to be reduced and not loosely alike, or a pair of thunks of alike heads. -/
inductive Firm (like : Likeness ν) (place : Places) :
    Expr ν → Scope ν → Expr ν → Scope ν → Prop where
  | alike {expr expr' : Expr ν} {scope scope' : Scope ν} (hloose : ¬like.loose expr expr')
      (hexpr : expr.Alike like place expr') (hscope : scope.Alike like place scope') :
      Firm like place expr scope expr' scope'
  | head {head head' : Head ν} (h : head.Alike like place head') (scope scope' : Scope ν) :
      Firm like place head.toExpr scope head'.toExpr scope'
  | thunk (number number' : Nat) {head head' : Head ν} (h : head.Alike like place head')
      (inner inner' scope scope' : Scope ν) :
      Firm like place (.scope (.thunk number head.toExpr inner)) scope
        (.scope (.thunk number' head'.toExpr inner')) scope'

theorem Firm.mono {like : Likeness ν} {later : Places} (hlater : place.Extends later)
    {expr expr' : Expr ν} {scope scope' : Scope ν} (h : Firm like place expr scope expr' scope') :
    Firm like later expr scope expr' scope' := by
  cases h with
  | alike hloose hexpr hscope => exact .alike hloose (hexpr.mono hlater) (hscope.mono hlater)
  | head h => exact .head (h.mono hlater) _ _
  | thunk number number' h => exact .thunk number number' (h.mono hlater) _ _ _ _

theorem Firm.identifier? {like : Likeness ν} {expr expr' : Expr ν} {scope scope' : Scope ν}
    (h : Firm like place expr scope expr' scope') : expr.identifier? = expr'.identifier? := by
  cases h with
  | alike hloose hexpr _ =>
    cases hexpr with
    | loose hl => exact absurd hl hloose
    | value | native | identifier | failure | application | lambda | scope => rfl
  | head h =>
    cases h with
    | terminal hresult => cases hresult <;> rfl
    | closure => rfl
  | thunk => rfl

/-- In corresponding worlds what is ready is firm, unless the first run is about to be excused. -/
theorem Ready.firm {engine : Engine ν σ} (fair : c.Fair engine) {world world' : World ν σ}
    (hworlds : c.worlds place world world') {expr expr' : Expr ν} {scope scope' : Scope ν}
    (h : Ready c.like place expr scope expr' scope') :
    (∃ failure, expr = .failure failure ∧ c.excused (.failed failure)) ∨
      Firm c.like place expr scope expr' scope' := by
  cases h with
  | head h => exact .inr (.head h _ _)
  | alike hexpr hscope =>
    by_cases hloose : c.like.loose expr expr'
    · rcases fair.loose hworlds hloose with
        hfailure | ⟨number, number', inner, inner', head, head', rfl, rfl, hhead⟩
      · exact .inl hfailure
      · exact .inr (.thunk number number' hhead inner inner' _ _)
    · exact .inr (.alike hloose hexpr hscope)

inductive Outcome.Alike (like : Likeness ν) (place : Places) : Outcome ν → Outcome ν → Prop where
  | finished {head head' : Head ν} (h : head.Alike like place head') :
      Outcome.Alike like place (.finished head) (.finished head')
  | further {next next' : Expr ν} {inner inner' : Scope ν}
      (h : Ready like place next inner next' inner') :
      Outcome.Alike like place (.further next inner) (.further next' inner')
  | binding (name : String) {bound bound' : Expr ν} {owner owner' : Scope ν}
      (hbound : bound.Alike like place bound') (howner : owner.Alike like place owner') :
      Outcome.Alike like place (.binding name bound owner) (.binding name bound' owner')

theorem Scope.enter_thunk (number : Nat) (deferred : Expr ν) (calling : Scope ν) :
    (Scope.thunk number deferred calling).enter = .further deferred calling := by
  unfold Scope.enter
  rw [Scope.parent?_thunk]
  rfl

/-- Alike scopes lead to alike outcomes. -/
theorem Scope.Alike.enter {like : Likeness ν} {scope scope' : Scope ν}
    (h : scope.Alike like place scope') : scope.enter.Alike like place scope'.enter := by
  unfold Scope.enter
  rw [← h.kind]
  cases hkind : scope.kind with
  | closure => exact .finished (.closure h hkind)
  | call => exact .further (.alike h.body h)
  | root => exact .further (.alike h.body h)
  | thunk =>
    have hparent := h.parent?
    revert hparent
    generalize scope.parent? = parent
    generalize scope'.parent? = parent'
    intro hparent
    cases hparent with
    | none => exact .further (.alike h.body h)
    | some hparent => exact .further (.alike h.body hparent)

theorem Run.mirrors_stepIdentifier {engine : Engine ν σ} (fair : c.Fair engine) (name : String)
    {scope scope' : Scope ν} (h : scope.Alike c.like place scope') :
    Run.Mirrors c (Outcome.Alike c.like) place (Run.stepIdentifier name scope)
      (Run.stepIdentifier name scope') := by
  rw [Run.stepIdentifier, Run.stepIdentifier]
  have hfind := h.find name
  revert hfind
  generalize scope.find name = first
  generalize scope'.find name = second
  intro hfind
  cases hfind with
  | missing failure => exact Run.mirrors_fail fair failure
  | @found bound bound' owner owner' hbound howner =>
    refine (Run.mirrors_memoized fair name howner).bind fun {_ record record'} hlater hrecord => ?_
    cases hrecord with
    | none =>
      exact Run.mirrors_pure fun hmore => .binding name (hbound.mono (hlater.trans hmore))
        (howner.mono (hlater.trans hmore))
    | some hresult =>
      exact Run.mirrors_pure fun hmore => .further (.alike hresult.toExpr
        (howner.mono (hlater.trans hmore)))

namespace Engine

variable {engine : Engine ν σ} {nested : Nested ν σ} {related : Places → β → β → Prop}

/-- A call of a native method, followed by what goes on from alike results and is excused after an
excused failure. -/
theorem callNative_bind_mirrors (fair : c.Fair engine) (method : Native ν)
    {heads heads' : List (Head ν)} {scope scope' : Scope ν} {next next' : Expr ν → Run ν σ β}
    (hheads : List.Forall₂ (Head.Alike c.like place) heads heads')
    (hscope : scope.Alike c.like place scope')
    (hn : ∀ {later : Places} {result result' : Expr ν}, place.Extends later →
      result.Alike c.like later result' →
      Run.Mirrors c related later (next result) (next' result'))
    (hfail : ∀ failure, c.excused (.failed failure) → Run.Excused c (next (.failure failure))) :
    Run.Mirrors c related place
      (engine.callNative method (heads.map Head.toExpr) scope >>= next)
      (engine.callNative method (heads'.map Head.toExpr) scope' >>= next') := by
  have hcall : ∀ arguments calling (after : Expr ν → Run ν σ β),
      engine.callNative method arguments calling >>= after =
        Run.emit (.invoking method arguments calling) >>= fun _ =>
          Run.withWorld (engine.invoke method arguments calling) >>= fun result =>
            Run.emit (.returned method result) >>= fun _ => after result := by
    intro arguments calling after
    rw [callNative]
    simp only [bind_assoc, pure_bind]
  rw [hcall, hcall]
  refine (Run.mirrors_invoking fair method hheads hscope).bind fun hmiddle _ => ?_
  refine Run.mirrors_bind ?_ fun {_ result result'} hlater
      (hresult : result.Alike c.like _ result') =>
    (Run.mirrors_emit fair rfl rfl).bind fun hmore _ =>
      hn (hmiddle.trans (hlater.trans hmore)) (hresult.mono hmore)
  intro now machine machine' hnow hmachines
  have hall := hmiddle.trans hnow
  rcases fair.native method hmachines.worlds (hheads.imp fun _ _ h => h.mono hall)
    (hscope.mono hall) with ⟨failure, hresult, hexcused⟩ | ⟨later, hlater, hresult, hworlds⟩
  · have hrun : Run.withWorld (engine.invoke method (heads.map Head.toExpr) scope) machine =
        (.ok (.failure failure), ⟨machine.steps,
          (engine.invoke method (heads.map Head.toExpr) scope machine.world).2⟩) := by
      rw [Run.withWorld_apply, hresult]
    exact .inl ⟨_, _, hrun, Run.excused_emit_bind (hfail failure hexcused)⟩
  · exact .inr (.came hlater hresult ⟨hmachines.steps, hworlds⟩)

/-! ## Steps -/

section Steps

variable (fair : c.Fair engine) (hnested : nested.Mirrors c) {next next' : Outcome ν → Run ν σ β}
include fair hnested

theorem stepApplication_bind_mirrors {operator operator' : Expr ν}
    {arguments arguments' : List (Expr ν)} {scope scope' : Scope ν}
    (hoperator : operator.Alike c.like place operator')
    (harguments : AllAlike c.like place arguments arguments')
    (hscope : scope.Alike c.like place scope')
    (hn : ∀ {later : Places} {outcome outcome' : Outcome ν}, place.Extends later →
      outcome.Alike c.like later outcome' →
      Run.Mirrors c related later (next outcome) (next' outcome'))
    (hfail : ∀ failure inner, c.excused (.failed failure) →
      Run.Excused c (next (.further (.failure failure) inner))) :
    Run.Mirrors c related place
      (engine.stepApplication nested operator arguments scope >>= next)
      (engine.stepApplication nested operator' arguments' scope' >>= next') := by
  rw [stepApplication, stepApplication, bind_assoc, bind_assoc]
  refine (hnested.resolve hoperator hscope).bind fun hlater hhead => ?_
  have hheads := (hnested.resolveAll harguments hscope).mono hlater
  cases hhead with
  | closure hclosure _ =>
    simp only [bind_assoc, pure_bind]
    refine hheads.bind fun hmiddle hheads => ?_
    refine (Run.mirrors_call fair (hclosure.mono hmiddle) hheads.allAlike
      (hscope.mono (hlater.trans hmiddle))).bind fun hmore hframe => ?_
    exact hn (hlater.trans (hmiddle.trans hmore)) (.further (.alike hframe.body hframe))
  | terminal hresult =>
    cases hresult with
    | value hvalue =>
      simp only [bind_assoc, pure_bind]
      refine (Run.mirrors_emit fair rfl rfl).bind fun hmore _ => ?_
      exact hn (hlater.trans hmore) (.finished (.terminal (.value hvalue)))
    | native method =>
      simp only [bind_assoc, pure_bind]
      refine hheads.bind ?_
      rintro middle _ _ hmiddle ⟨heads, heads', rfl, rfl, hheads⟩
      have hscope := hscope.mono (hlater.trans hmiddle)
      refine callNative_bind_mirrors fair method hheads hscope (fun hmore hresult => ?_)
        fun failure hexcused => hfail failure scope hexcused
      exact hn (hlater.trans (hmiddle.trans hmore)) (.further (.alike hresult (hscope.mono hmore)))

/-- What a step does after it is counted. -/
theorem stepBody_bind_mirrors {expr expr' : Expr ν} {scope scope' : Scope ν}
    (h : Firm c.like place expr scope expr' scope')
    (hn : ∀ {later : Places} {outcome outcome' : Outcome ν}, place.Extends later →
      outcome.Alike c.like later outcome' →
      Run.Mirrors c related later (next outcome) (next' outcome'))
    (hfail : ∀ failure inner, c.excused (.failed failure) →
      Run.Excused c (next (.further (.failure failure) inner))) :
    Run.Mirrors c related place (engine.stepBody nested expr scope >>= next)
      (engine.stepBody nested expr' scope' >>= next') := by
  unfold stepBody
  rw [bind_assoc, bind_assoc]
  refine (Run.mirrors_emit fair rfl rfl).bind fun {later _ _} hlater _ => ?_
  cases h with
  | head hhead =>
    cases hhead with
    | terminal hresult =>
      cases hresult with
      | value hvalue => exact hn hlater (.finished (.terminal (.value hvalue)))
      | native method => exact hn hlater (.finished (.terminal (.native method)))
    | closure hclosure => exact hn hlater (hclosure.mono hlater).enter
  | @thunk number number' head head' hhead inner inner' =>
    have houtcome : Outcome.Alike c.like later (Scope.thunk number head.toExpr inner).enter
        (Scope.thunk number' head'.toExpr inner').enter := by
      rw [Scope.enter_thunk, Scope.enter_thunk]
      exact .further (.head (hhead.mono hlater) inner inner')
    exact hn hlater houtcome
  | alike hloose hexpr hscope =>
    replace hscope := hscope.mono hlater
    cases hexpr with
    | loose hl => exact absurd hl hloose
    | value hvalue => exact hn hlater (.finished (.terminal (.value hvalue)))
    | native method => exact hn hlater (.finished (.terminal (.native method)))
    | failure failure =>
      exact Run.Mirrors.bind (Run.mirrors_fail fair failure)
        fun hmore (houtcome : Outcome.Alike c.like _ _ _) => hn (hlater.trans hmore) houtcome
    | identifier name =>
      exact (Run.mirrors_stepIdentifier fair name hscope).bind
        fun hmore houtcome => hn (hlater.trans hmore) houtcome
    | scope hinner => exact hn hlater (hinner.mono hlater).enter
    | lambda hitems =>
      simp only [bind_assoc, pure_bind]
      refine (hnested.close fair (itemsAlike_mono hlater hitems) hscope).bind
        fun hmore hframe => ?_
      exact hn (hlater.trans hmore) (.finished (.closure hframe.1 hframe.2))
    | application hoperator harguments =>
      exact stepApplication_bind_mirrors fair hnested (hoperator.mono hlater)
        (allAlike_mono hlater harguments) hscope
        (fun hmore houtcome => hn (hlater.trans hmore) houtcome) hfail

theorem step_bind_mirrors {expr expr' : Expr ν} {scope scope' : Scope ν}
    (h : Firm c.like place expr scope expr' scope')
    (hn : ∀ {later : Places} {outcome outcome' : Outcome ν}, place.Extends later →
      outcome.Alike c.like later outcome' →
      Run.Mirrors c related later (next outcome) (next' outcome'))
    (hfail : ∀ failure inner, c.excused (.failed failure) →
      Run.Excused c (next (.further (.failure failure) inner))) :
    Run.Mirrors c related place (engine.step nested expr scope >>= next)
      (engine.step nested expr' scope' >>= next') := by
  rw [step_eq, step_eq, bind_assoc, bind_assoc]
  refine (Run.mirrors_tick fair engine.limits).bind fun hlater _ => ?_
  exact stepBody_bind_mirrors fair hnested (h.mono hlater)
    (fun hmore houtcome => hn (hlater.trans hmore) houtcome) hfail

end Steps

/-! ## Excused failures -/

section Failures

variable (fair : c.Fair engine) {failure : Failure} (hexcused : c.excused (.failed failure))
include fair hexcused

theorem excused_exhaust : Run.Excused c (Run.exhaust engine.limits : Run ν σ β) :=
  Run.excused_tick_bind (fair.cut hexcused _) (Run.excused_throw (fair.cut hexcused _))

theorem excused_step (scope : Scope ν) {next : Outcome ν → Run ν σ β} :
    Run.Excused c (engine.step nested (.failure failure) scope >>= next) := by
  rw [step_eq, bind_assoc]
  refine Run.excused_tick_bind (fair.cut hexcused _) ?_
  unfold stepBody
  rw [bind_assoc]
  exact Run.excused_emit_bind (Run.excused_throw hexcused).bind

theorem excused_resolveLoop (rounds : Nat) (scope : Scope ν) :
    Run.Excused c (engine.resolveLoop nested rounds (.failure failure) scope []) := by
  cases rounds with
  | zero => exact excused_exhaust fair hexcused
  | succ rounds =>
    rw [resolveLoop_succ]
    exact excused_step fair hexcused scope

theorem excused_nameLoop (rounds : Nat) (scope : Scope ν) :
    Run.Excused c (engine.nameLoop nested rounds (.failure failure) scope) := by
  cases rounds with
  | zero => exact excused_exhaust fair hexcused
  | succ rounds =>
    rw [nameLoop_succ engine nested rounds (.failure failure) scope rfl]
    exact excused_step fair hexcused scope

end Failures

/-! ## Loops -/

section Loops

variable (fair : c.Fair engine) (hnested : nested.Mirrors c)
include fair hnested

/-- One round of a resolution, once the rounds that are left mirror each other. -/
theorem resolveLoop_succ_mirrors {rounds : Nat}
    (ih : ∀ {place : Places} {expr expr' : Expr ν} {scope scope' : Scope ν},
      Ready c.like place expr scope expr' scope' →
      Run.Mirrors c (Head.Alike c.like) place
        (engine.resolveLoop nested rounds expr scope [])
        (engine.resolveLoop nested rounds expr' scope' []))
    {expr expr' : Expr ν} {scope scope' : Scope ν}
    (h : Firm c.like place expr scope expr' scope') :
    Run.Mirrors c (Head.Alike c.like) place
      (engine.resolveLoop nested (rounds + 1) expr scope [])
      (engine.resolveLoop nested (rounds + 1) expr' scope' []) := by
  rw [resolveLoop_succ, resolveLoop_succ]
  refine step_bind_mirrors fair hnested h (fun _ houtcome => ?_)
    fun failure inner hexcused => excused_resolveLoop fair hexcused rounds inner
  cases houtcome with
  | finished hhead => exact Run.mirrors_pure fun hmore => hhead.mono hmore
  | further hready => exact ih hready
  | binding name hbound howner =>
    refine (ih (.alike hbound howner)).bind fun hmore hhead => ?_
    refine (Run.mirrors_record fair name hhead (howner.mono hmore)).bind fun hend _ => ?_
    exact Run.mirrors_pure fun hlast => hhead.mono (hend.trans hlast)

theorem resolveLoop_mirrors (rounds : Nat) {place : Places} {expr expr' : Expr ν}
    {scope scope' : Scope ν} (h : Ready c.like place expr scope expr' scope') :
    Run.Mirrors c (Head.Alike c.like) place (engine.resolveLoop nested rounds expr scope [])
      (engine.resolveLoop nested rounds expr' scope' []) := by
  induction rounds generalizing place expr expr' scope scope' with
  | zero => exact Run.mirrors_exhaust fair engine.limits
  | succ rounds ih =>
    intro now machine machine' hnow hmachines
    rcases (h.mono hnow).firm fair hmachines.worlds with ⟨failure, rfl, hexcused⟩ | hfirm
    · exact (excused_resolveLoop fair hexcused (rounds + 1) scope).ends machine _
    · exact resolveLoop_succ_mirrors fair hnested (fun hready => ih hready) hfirm
        now machine machine' (.refl _) hmachines

omit hnested in
theorem ownName_mirrors (name : String) :
    Run.Mirrors c (fun _ name name' => name = name') place (ownName name : Run ν σ String)
      (ownName name) := by
  rw [ownName]
  cases positional? name with
  | some index => exact Run.mirrors_fail fair _
  | none => exact Run.mirrors_pure fun _ => rfl

omit hnested in
theorem nameAfterStep_mirrors {rounds : Nat} {head head' : Head ν}
    (h : head.Alike c.like place head') :
    Run.Mirrors c (fun _ name name' => name = name') place
      (engine.nameAfterStep nested rounds (.finished head))
      (engine.nameAfterStep nested rounds (.finished head')) := by
  have hname : head.name? = head'.name? := by
    cases h with
    | closure => rfl
    | terminal hresult =>
      cases hresult with
      | value hvalue => exact fair.name hvalue
      | native => rfl
  rw [nameAfterStep, nameAfterStep, hname]
  cases head'.name? with
  | some name => exact Run.mirrors_pure fun _ => rfl
  | none =>
    rcases fair.misnamed h with hexcused | hstops
    · exact fun _ machine _ _ _ => Run.Excused.ends (Run.excused_throw hexcused) machine _
    · exact Run.mirrors_throw hstops

theorem nameLoop_mirrors (rounds : Nat) {place : Places} {position position' : Expr ν}
    {scope scope' : Scope ν} (h : Ready c.like place position scope position' scope') :
    Run.Mirrors c (fun _ name name' => name = name') place
      (engine.nameLoop nested rounds position scope)
      (engine.nameLoop nested rounds position' scope') := by
  induction rounds generalizing place position position' scope scope' with
  | zero =>
    intro now machine machine' hnow hmachines
    rcases (h.mono hnow).firm fair hmachines.worlds with ⟨failure, rfl, hexcused⟩ | hfirm
    · exact (excused_nameLoop fair hexcused 0 scope).ends machine _
    · rw [nameLoop, nameLoop, hfirm.identifier?]
      cases position'.identifier? with
      | some name => exact ownName_mirrors fair name now machine machine' (.refl _) hmachines
      | none =>
        exact Run.mirrors_exhaust fair engine.limits now machine machine' (.refl _) hmachines
  | succ rounds ih =>
    intro now machine machine' hnow hmachines
    rcases (h.mono hnow).firm fair hmachines.worlds with ⟨failure, rfl, hexcused⟩ | hfirm
    · exact (excused_nameLoop fair hexcused (rounds + 1) scope).ends machine _
    cases hname : position'.identifier? with
    | some name =>
      rw [nameLoop, nameLoop, hfirm.identifier?, hname]
      exact ownName_mirrors fair name now machine machine' (.refl _) hmachines
    | none =>
      rw [nameLoop_succ engine nested rounds position' scope' hname,
        nameLoop_succ engine nested rounds position scope (hfirm.identifier?.trans hname)]
      refine step_bind_mirrors fair hnested hfirm (fun _ houtcome => ?_)
        (fun failure inner hexcused => excused_nameLoop fair hexcused rounds inner)
        now machine machine' (.refl _) hmachines
      cases houtcome with
      | finished hhead => exact nameAfterStep_mirrors fair hhead
      | further hready => exact ih hready
      | binding _ hbound howner => exact ih (.alike hbound howner)

end Loops

/-! ## Evaluations -/

section Evaluations

variable (fair : c.Fair engine)
include fair

theorem nested_mirrors (levels : Nat) : (engine.nested levels).Mirrors c := by
  induction levels with
  | zero => exact ⟨fun _ _ => Run.mirrors_throw (fair.stops _),
      fun _ _ => Run.mirrors_throw (fair.stops _)⟩
  | succ levels ih =>
    exact ⟨fun hexpr hscope => resolveLoop_mirrors fair ih _ (.alike hexpr hscope),
      fun hposition hscope => nameLoop_mirrors fair ih _ (.alike hposition hscope)⟩

/-- Forcing alike expressions comes to related results in the same number of steps. -/
theorem forceLoop_mirrors (rounds : Nat) {place : Places} {expr expr' : Expr ν}
    {scope scope' : Scope ν} (hexpr : expr.Alike c.like place expr')
    (hscope : scope.Alike c.like place scope') :
    Run.Mirrors c (fun _ => Terminal.Alike c.like) place (engine.forceLoop rounds expr scope)
      (engine.forceLoop rounds expr' scope') := by
  induction rounds generalizing place expr expr' scope scope' with
  | zero => exact Run.mirrors_exhaust fair engine.limits
  | succ rounds ih =>
    rw [forceLoop_succ, forceLoop_succ]
    refine ((nested_mirrors fair _).resolve hexpr hscope).bind fun _ hhead => ?_
    cases hhead with
    | terminal hresult => exact Run.mirrors_pure fun _ => hresult
    | closure hclosure _ =>
      refine (Run.mirrors_emit fair rfl rfl).bind fun hmore _ => ?_
      exact ih (hclosure.body.mono hmore) (hclosure.mono hmore)

/-- Two evaluations force alike expressions in corresponding worlds. The first one is excused, or
they take the same steps, end alike and leave corresponding worlds. -/
theorem evaluate_force_mirrors {expr expr' : Expr ν} {scope scope' : Scope ν}
    (hexpr : expr.Alike c.like place expr') (hscope : scope.Alike c.like place scope')
    {world world' : World ν σ} (hworlds : c.worlds place world world') :
    let first := engine.evaluate (.force expr scope) world
    let second := engine.evaluate (.force expr' scope') world'
    (∃ stop, first.outcome = .error stop ∧ c.excused stop) ∨
      ∃ later : Places, place.Extends later ∧ c.worlds later first.world second.world ∧
        first.steps = second.steps ∧ c.OutcomesAlike first.outcome second.outcome := by
  have hrun : Run.Mirrors c
      (fun _ result result' => ∃ terminal terminal' : Terminal ν, terminal.Alike c.like terminal' ∧
        result = terminal.toExpr ∧ result' = terminal'.toExpr) place
      (engine.run (.force expr scope)) (engine.run (.force expr' scope')) := by
    rw [run, run, map_eq_pure_bind, map_eq_pure_bind]
    exact (forceLoop_mirrors fair engine.limits.maxSteps hexpr hscope).bind
      fun _ hresult => Run.mirrors_pure fun _ => ⟨_, _, hresult, rfl, rfl⟩
  have hends := hrun place ⟨0, world⟩ ⟨0, world'⟩ (.refl _) ⟨rfl, hworlds⟩
  simp only [evaluate, Run.execute]
  revert hends
  generalize engine.run (.force expr scope) ⟨0, world⟩ = first
  generalize engine.run (.force expr' scope') ⟨0, world'⟩ = second
  intro hends
  cases hends with
  | excused h => exact .inl ⟨_, rfl, h⟩
  | stopped hlater hstop hmachines =>
    exact .inr ⟨_, hlater, hmachines.worlds, hmachines.steps, .stopped hstop⟩
  | came hlater hresult hmachines =>
    obtain ⟨terminal, terminal', hresult, rfl, rfl⟩ := hresult
    exact .inr ⟨_, hlater, hmachines.worlds, hmachines.steps, .came hresult⟩

end Evaluations

end Engine
end CallByNeed
