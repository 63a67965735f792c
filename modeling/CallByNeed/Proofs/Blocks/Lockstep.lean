import CallByNeed.Proofs.Appliers.Failures
import CallByNeed.Proofs.Blocks.Twins

/-! # Evaluations in lockstep

Two evaluations that do the same in paired scopes make their moves together. What is left to do in
the one is what is left to do in the other over paired scopes, and the steps counted differ by what
they differed by at first. Where one move makes frames, the frames become a pair.

The limits of the two need not be the same, as long as they refuse neither (`Engine.after_abreast`).
-/

namespace CallByNeed
set_option autoImplicit false

variable {ν σ : Type} {rel later : Pairing ν}

/-! ## What is left to do -/

inductive Outcome.Over (rel : Pairing ν) : Outcome ν → Outcome ν → Prop where
  | finished {head head' : Head ν} (h : head.Over rel.held head') :
      Outcome.Over rel (.finished head) (.finished head')
  | further {next next' : Expr ν} (hnext : next.Over rel.held next') {scope scope' : Scope ν}
      (hscope : rel scope scope') : Outcome.Over rel (.further next scope) (.further next' scope')
  | binding (name : String) {bound bound' : Expr ν} (hbound : bound.Over rel.held bound')
      {owner owner' : Scope ν} (howner : rel owner owner') :
      Outcome.Over rel (.binding name bound owner) (.binding name bound' owner')

inductive Callee.Over (rel : Pairing ν) : Callee ν → Callee ν → Prop where
  | native (method : Native ν) : Callee.Over rel (.native method) (.native method)
  | closure {scope scope' : Scope ν} (h : rel.held scope scope') :
      Callee.Over rel (.closure scope) (.closure scope')

/-- Heads that are the same over paired scopes, as expressions. -/
def HeadsOver (rel : Pairing ν) (exprs exprs' : List (Expr ν)) : Prop :=
  ∃ heads heads' : List (Head ν), exprs = heads.map Head.toExpr ∧
    exprs' = heads'.map Head.toExpr ∧ List.Forall₂ (Head.Over rel.held) heads heads'

/-- The same names of paired scopes. -/
abbrev PendingOver (rel : Pairing ν) : List (Scope ν × String) → List (Scope ν × String) → Prop :=
  List.Forall₂ fun owner owner' => rel owner.1 owner'.1 ∧ owner.2 = owner'.2

abbrev BindingsOver (rel : Pairing ν) : List (Lambda.Binding ν) → List (Lambda.Binding ν) → Prop :=
  Lambda.BindingsAlike (.over rel.held) fun _ _ => False

/-- The same rest of a forced expression, over paired scopes. -/
inductive Rest.Over (rel : Pairing ν) : {part : Part} → Rest ν part → Rest ν part → Prop where
  | forced : Rest.Over rel .forced .forced
  | operator {arguments arguments' : List (Expr ν)}
      (harguments : List.Forall₂ (Expr.Over rel.held) arguments arguments') {scope scope' : Scope ν}
      (hscope : rel scope scope') {rest rest' : Rest ν .outcome} (hrest : Rest.Over rel rest rest') :
      Rest.Over rel (.operator arguments scope rest) (.operator arguments' scope' rest')
  | argument {callee callee' : Callee ν} (hcallee : callee.Over rel callee')
      {done done' : List (Expr ν)} (hdone : HeadsOver rel done done') {more more' : List (Expr ν)}
      (hmore : List.Forall₂ (Expr.Over rel.held) more more') {scope scope' : Scope ν}
      (hscope : rel scope scope') {rest rest' : Rest ν .outcome} (hrest : Rest.Over rel rest rest') :
      Rest.Over rel (.argument callee done more scope rest)
        (.argument callee' done' more' scope' rest')
  | binding {bound bound' : Expr ν} (hbound : bound.Over rel.held bound')
      {more more' : List (Lambda.Binding ν)} (hmore : BindingsOver rel more more')
      {table table' : Table (Expr ν)} (htable : table.Over rel.held table') {body body' : Expr ν}
      (hbody : body.Over rel.held body') {scope scope' : Scope ν} (hscope : rel scope scope')
      {rest rest' : Rest ν .closure} (hrest : Rest.Over rel rest rest') :
      Rest.Over rel (.binding bound more table body scope rest)
        (.binding bound' more' table' body' scope' rest')
  | toHead {pending pending' : List (Scope ν × String)} (hpending : PendingOver rel pending pending')
      {rest rest' : Rest ν .head} (hrest : Rest.Over rel rest rest') :
      Rest.Over rel (.toHead pending rest) (.toHead pending' rest')
  | toName {rest rest' : Rest ν .name} (hrest : Rest.Over rel rest rest') :
      Rest.Over rel (.toName rest) (.toName rest')
  | lambda {rest rest' : Rest ν .outcome} (hrest : Rest.Over rel rest rest') :
      Rest.Over rel (.lambda rest) (.lambda rest')
  | step {rest rest' : Rest ν .outcome} (hrest : Rest.Over rel rest rest') :
      Rest.Over rel (.step rest) (.step rest')

/-- The same is done next, over paired scopes. -/
inductive Control.Over (rel : Pairing ν) : Control ν → Control ν → Prop where
  | enter {expr expr' : Expr ν} (hexpr : expr.Over rel.held expr') {scope scope' : Scope ν}
      (hscope : rel scope scope') {rest rest' : Rest ν .head} (hrest : rest.Over rel rest') :
      Control.Over rel (.enter expr scope rest) (.enter expr' scope' rest')
  | enterName {expr expr' : Expr ν} (hexpr : expr.Over rel.held expr') {scope scope' : Scope ν}
      (hscope : rel scope scope') {rest rest' : Rest ν .name} (hrest : rest.Over rel rest') :
      Control.Over rel (.enterName expr scope rest) (.enterName expr' scope' rest')
  | position {expr expr' : Expr ν} (hexpr : expr.Over rel.held expr') {scope scope' : Scope ν}
      (hscope : rel scope scope') {rest rest' : Rest ν .name} (hrest : rest.Over rel rest') :
      Control.Over rel (.position expr scope rest) (.position expr' scope' rest')
  | count {expr expr' : Expr ν} (hexpr : expr.Over rel.held expr') {scope scope' : Scope ν}
      (hscope : rel scope scope') {rest rest' : Rest ν .outcome} (hrest : rest.Over rel rest') :
      Control.Over rel (.count expr scope rest) (.count expr' scope' rest')
  | report {expr expr' : Expr ν} (hexpr : expr.Over rel.held expr') {scope scope' : Scope ν}
      (hscope : rel scope scope') {rest rest' : Rest ν .outcome} (hrest : rest.Over rel rest') :
      Control.Over rel (.report expr scope rest) (.report expr' scope' rest')
  | reduce {expr expr' : Expr ν} (hexpr : expr.Over rel.held expr') {scope scope' : Scope ν}
      (hscope : rel scope scope') {rest rest' : Rest ν .outcome} (hrest : rest.Over rel rest') :
      Control.Over rel (.reduce expr scope rest) (.reduce expr' scope' rest')
  | outcome {result result' : Outcome ν} (hresult : result.Over rel result')
      {rest rest' : Rest ν .outcome} (hrest : rest.Over rel rest') :
      Control.Over rel (.outcome result rest) (.outcome result' rest')
  | head {result result' : Head ν} (hresult : result.Over rel.held result')
      {rest rest' : Rest ν .head} (hrest : rest.Over rel rest') :
      Control.Over rel (.head result rest) (.head result' rest')
  | name (name : String) {rest rest' : Rest ν .name} (hrest : rest.Over rel rest') :
      Control.Over rel (.name name rest) (.name name rest')
  | close {items items' : List (Item ν)}
      (hitems : List.Forall₂ (Item.Alike (.over rel.held) fun _ _ => False) items items')
      {scope scope' : Scope ν} (hscope : rel scope scope') {rest rest' : Rest ν .closure}
      (hrest : rest.Over rel rest') :
      Control.Over rel (.close items scope rest) (.close items' scope' rest')
  | bind {bindings bindings' : List (Lambda.Binding ν)}
      (hbindings : BindingsOver rel bindings bindings') {table table' : Table (Expr ν)}
      (htable : table.Over rel.held table') {body body' : Expr ν} (hbody : body.Over rel.held body')
      {scope scope' : Scope ν} (hscope : rel scope scope') {rest rest' : Rest ν .closure}
      (hrest : rest.Over rel rest') :
      Control.Over rel (.bind bindings table body scope rest)
        (.bind bindings' table' body' scope' rest')
  | closure {frame frame' : Scope ν} (hframe : rel.held frame frame') {rest rest' : Rest ν .closure}
      (hrest : rest.Over rel rest') : Control.Over rel (.closure frame rest) (.closure frame' rest')
  | arguments {callee callee' : Callee ν} (hcallee : callee.Over rel callee')
      {done done' : List (Expr ν)} (hdone : HeadsOver rel done done') {more more' : List (Expr ν)}
      (hmore : List.Forall₂ (Expr.Over rel.held) more more') {scope scope' : Scope ν}
      (hscope : rel scope scope') {rest rest' : Rest ν .outcome} (hrest : rest.Over rel rest') :
      Control.Over rel (.arguments callee done more scope rest)
        (.arguments callee' done' more' scope' rest')
  | hand {callee callee' : Callee ν} (hcallee : callee.Over rel callee')
      {handed handed' : List (Expr ν)} (hhanded : HeadsOver rel handed handed')
      {scope scope' : Scope ν} (hscope : rel scope scope') {rest rest' : Rest ν .call}
      (hrest : rest.Over rel rest') :
      Control.Over rel (.hand callee handed scope rest) (.hand callee' handed' scope' rest')
  | raise (stop : Stop) {part : Part} {rest rest' : Rest ν part} (hrest : rest.Over rel rest') :
      Control.Over rel (.raise stop rest) (.raise stop rest')
  | ended {result result' : Except Stop (Expr ν)}
      (hresult : result.map Expr.forget = result'.map Expr.forget) :
      Control.Over rel (.ended result) (.ended result')

/-- The second moment does the same as the first one, with so many more steps counted. -/
structure Moment.Over (rel : Pairing ν) (gap : Nat) (moment moment' : Moment ν σ) : Prop where
  control : moment.control.Over rel moment'.control
  worlds : moment.machine.world.Abreast rel moment'.machine.world
  steps : moment'.machine.steps = moment.machine.steps + gap

def Moment.Abreast (gap : Nat) (moment moment' : Moment ν σ) : Prop :=
  ∃ rel : Pairing ν, moment.Over rel gap moment'

/-! ## More pairs -/

section Mono

variable (hlater : rel.Within later)
include hlater

theorem allOver_within {exprs exprs' : List (Expr ν)}
    (h : List.Forall₂ (Expr.Over rel.held) exprs exprs') :
    List.Forall₂ (Expr.Over later.held) exprs exprs' :=
  h.imp fun _ _ hexpr => hexpr.within hlater

theorem Callee.Over.within {callee callee' : Callee ν} (h : callee.Over rel callee') :
    callee.Over later callee' := by
  cases h with
  | native method => exact .native method
  | closure h => exact .closure (hlater.held _ _ h)

theorem HeadsOver.within {exprs exprs' : List (Expr ν)} (h : HeadsOver rel exprs exprs') :
    HeadsOver later exprs exprs' := by
  obtain ⟨heads, heads', rfl, rfl, hheads⟩ := h
  exact ⟨heads, heads', rfl, rfl, hheads.imp fun _ _ hhead => hhead.within hlater⟩

theorem BindingsOver.within {bindings bindings' : List (Lambda.Binding ν)}
    (h : BindingsOver rel bindings bindings') : BindingsOver later bindings bindings' :=
  h.imp fun _ _ hbinding =>
    ⟨Expr.Over.within hlater hbinding.1, Expr.Over.within hlater hbinding.2⟩

theorem Rest.Over.within {part : Part} {rest rest' : Rest ν part} (h : rest.Over rel rest') :
    rest.Over later rest' := by
  induction h with
  | forced => exact .forced
  | operator harguments hscope _ ih =>
    exact .operator (allOver_within hlater harguments) (hlater _ _ hscope) ih
  | argument hcallee hdone hmore hscope _ ih =>
    exact .argument (hcallee.within hlater) (hdone.within hlater) (allOver_within hlater hmore)
      (hlater _ _ hscope) ih
  | binding hbound hmore htable hbody hscope _ ih =>
    exact .binding (hbound.within hlater) (BindingsOver.within hlater hmore) (htable.within hlater)
      (hbody.within hlater) (hlater _ _ hscope) ih
  | toHead hpending _ ih =>
    exact .toHead (hpending.imp fun _ _ howner => ⟨hlater _ _ howner.1, howner.2⟩) ih
  | toName _ ih => exact .toName ih
  | lambda _ ih => exact .lambda ih
  | step _ ih => exact .step ih

end Mono

/-! ## Moves -/

theorem HeadsOver.nil : HeadsOver rel [] [] :=
  ⟨[], [], rfl, rfl, .nil⟩

theorem HeadsOver.concat {exprs exprs' : List (Expr ν)} (h : HeadsOver rel exprs exprs')
    {head head' : Head ν} (hhead : head.Over rel.held head') :
    HeadsOver rel (exprs ++ [head.toExpr]) (exprs' ++ [head'.toExpr]) := by
  obtain ⟨heads, heads', rfl, rfl, hheads⟩ := h
  refine ⟨heads ++ [head], heads' ++ [head'], ?_, ?_, List.rel_append hheads (.cons hhead .nil)⟩
  · rw [List.map_append, List.map_singleton]
  · rw [List.map_append, List.map_singleton]

/-- Results that are equal up to identities are the same syntax. -/
theorem Terminal.over_toExpr {result result' : Terminal ν} (h : result.forget = result'.forget) :
    result.toExpr.Over rel.held result'.toExpr := by
  cases result with
  | value it =>
    cases result' with
    | value it' => exact .value (Terminal.value.inj h)
    | native method => cases h
  | native method =>
    cases result' with
    | value it' => cases h
    | native method' =>
      cases h
      exact .native method

section Identifiers

variable {scope : Scope ν} {name : String}

theorem Run.stepIdentifier_missing {failure : Failure} (hfind : scope.find name = .error failure)
    (machine : Machine ν σ) :
    stepIdentifier name scope machine = (.error (.failed failure), machine) := by
  rw [stepIdentifier, hfind]
  rfl

/-- What an identifier comes to in a step, once it is found. -/
theorem Run.stepIdentifier_found {bound : Expr ν} {owner : Scope ν}
    (hfind : scope.find name = .ok (bound, owner)) (machine : Machine ν σ) :
    stepIdentifier name scope machine =
      (.ok (match machine.world.recordAt owner.number name with
        | some result => .further result.toExpr owner
        | none => .binding name bound owner), machine) := by
  rw [stepIdentifier, hfind]
  simp only
  rw [bind_apply, memoized_apply, World.memoized_eq]
  cases machine.world.recordAt owner.number name <;> rfl

end Identifiers

section Moves

variable {gap : Nat} {machine machine' : Machine ν σ}
  (hworlds : machine.world.Abreast rel machine'.world)

include hworlds in
/-- Paired scopes of one kind are entered alike. -/
theorem World.Abreast.enter {scope scope' : Scope ν} (h : rel.held scope scope') :
    scope.enter.Over rel scope'.enter := by
  obtain ⟨hrel, hkind⟩ := h
  have htwin := hworlds.twins hrel
  unfold Scope.enter
  rw [← hkind]
  cases hscope : scope.kind with
  | closure => exact .finished (.closure ⟨hrel, hkind⟩)
  | call => exact .further htwin.body hrel
  | root => exact .further htwin.body hrel
  | thunk =>
    have hparent := htwin.parent
    revert hparent
    cases scope.parent? <;> cases scope'.parent? <;> intro hparent <;> cases hparent
    · exact .further htwin.body hrel
    · rename_i hparent
      exact .further htwin.body hparent

variable (hsteps : machine'.steps = machine.steps + gap)
include hworlds hsteps

namespace Moment

theorem abreast_ofHead {head head' : Head ν} (hhead : head.Over rel.held head')
    {rest rest' : Rest ν .head} (hrest : rest.Over rel rest') :
    (ofHead head rest machine).Abreast gap (ofHead head' rest' machine') := by
  cases hrest with
  | forced =>
    cases hhead with
    | value hvalue =>
      exact ⟨rel, .ended (congrArg (Except.ok ∘ Expr.value) hvalue), hworlds, hsteps⟩
    | native method => exact ⟨rel, .ended rfl, hworlds, hsteps⟩
    | closure hclosure =>
      have hbody := (hworlds.twins hclosure.1).body
      exact ⟨rel, .enter hbody hclosure.1 .forced, hworlds.emit _ _, hsteps⟩
  | operator harguments hscope hrest =>
    cases hhead with
    | value hvalue =>
      exact ⟨rel, .outcome (.finished (.value hvalue)) hrest, hworlds.emit _ _, hsteps⟩
    | native method =>
      exact ⟨rel, .arguments (.native method) .nil harguments hscope hrest, hworlds, hsteps⟩
    | closure hclosure =>
      exact ⟨rel, .arguments (.closure hclosure) .nil harguments hscope hrest, hworlds, hsteps⟩
  | argument hcallee hdone hmore hscope hrest =>
    exact ⟨rel, .arguments hcallee (hdone.concat hhead) hmore hscope hrest, hworlds, hsteps⟩

theorem abreast_ofOutcome {outcome outcome' : Outcome ν} (houtcome : outcome.Over rel outcome')
    {rest rest' : Rest ν .outcome} (hrest : rest.Over rel rest') :
    (ofOutcome outcome rest machine).Abreast gap (ofOutcome outcome' rest' machine') := by
  cases hrest with
  | toHead hpending hrest =>
    cases houtcome with
    | further hnext hscope =>
      exact ⟨rel, .count hnext hscope (.toHead hpending hrest), hworlds, hsteps⟩
    | binding name hbound howner =>
      refine ⟨rel, .count hbound howner (.toHead ?_ hrest), hworlds, hsteps⟩
      exact List.Forall₂.cons ⟨howner, rfl⟩ hpending
    | finished hhead =>
      cases hhead with
      | value hvalue =>
        have hresult : (Terminal.value _).forget = (Terminal.value _).forget :=
          congrArg Terminal.value hvalue
        exact ⟨rel, .head (.value hvalue) hrest, hworlds.memoizeAll hresult hpending, hsteps⟩
      | native method =>
        exact ⟨rel, .head (.native method) hrest, hworlds.memoizeAll rfl hpending, hsteps⟩
      | closure hclosure => exact ⟨rel, .head (.closure hclosure) hrest, hworlds, hsteps⟩
  | toName hrest =>
    cases houtcome with
    | further hnext hscope => exact ⟨rel, .position hnext hscope hrest, hworlds, hsteps⟩
    | binding name hbound howner => exact ⟨rel, .position hbound howner hrest, hworlds, hsteps⟩
    | finished hhead =>
      rw [ofOutcome, ofOutcome, hhead.name?, hworlds.display hhead.toExpr]
      cases Head.name? _ with
      | some name => exact ⟨rel, .name name hrest, hworlds, hsteps⟩
      | none => exact ⟨rel, .raise _ hrest, hworlds, hsteps⟩

/-- An identifier has the same record on both sides, or is bound to the same. -/
theorem abreast_stepIdentifier (name : String) {scope scope' : Scope ν} (hscope : rel scope scope')
    {rest rest' : Rest ν .outcome} (hrest : rest.Over rel rest') :
    (ofStep (.identifier name) scope rest machine).Abreast gap
      (ofStep (.identifier name) scope' rest' machine') := by
  have hfind := (hworlds.twins hscope).find name
  generalize hfound : scope.find name = found at hfind
  generalize hfound' : scope'.find name = found' at hfind
  rw [ofStep, ofStep]
  cases hfind with
  | missing failure =>
    rw [afterRun_error (Run.stepIdentifier_missing hfound machine),
      afterRun_error (Run.stepIdentifier_missing hfound' machine')]
    exact ⟨rel, .raise _ hrest, hworlds, hsteps⟩
  | found hbound howner =>
    have hrecord := hworlds.records howner name
    rw [afterRun_ok (Run.stepIdentifier_found hfound machine),
      afterRun_ok (Run.stepIdentifier_found hfound' machine')]
    refine ⟨rel, .outcome ?_ hrest, hworlds, hsteps⟩
    revert hrecord
    cases machine.world.recordAt _ name <;> cases machine'.world.recordAt _ name <;> intro hrecord
    · exact .binding name hbound howner
    · cases hrecord
    · cases hrecord
    · exact .further (Terminal.over_toExpr (Option.some.inj hrecord)) howner

theorem abreast_ofStep {expr expr' : Expr ν} (hexpr : expr.Over rel.held expr')
    {scope scope' : Scope ν} (hscope : rel scope scope') {rest rest' : Rest ν .outcome}
    (hrest : rest.Over rel rest') :
    (ofStep expr scope rest machine).Abreast gap (ofStep expr' scope' rest' machine') := by
  cases hexpr with
  | loose h =>
    cases h with
    | scope hinner => exact ⟨rel, .outcome (hworlds.enter hinner) hrest, hworlds, hsteps⟩
  | value hvalue => exact ⟨rel, .outcome (.finished (.value hvalue)) hrest, hworlds, hsteps⟩
  | native method => exact ⟨rel, .outcome (.finished (.native method)) hrest, hworlds, hsteps⟩
  | failure failure => exact ⟨rel, .raise _ hrest, hworlds, hsteps⟩
  | identifier name => exact abreast_stepIdentifier hworlds hsteps name hscope hrest
  | lambda hitems => exact ⟨rel, .close hitems hscope (.lambda hrest), hworlds, hsteps⟩
  | application hoperator harguments =>
    exact ⟨rel, .enter hoperator hscope (.operator harguments hscope hrest), hworlds, hsteps⟩
  | scope h => exact absurd h.number not_false

theorem abreast_ofStop (stop : Stop) {part : Part} {rest rest' : Rest ν part}
    (hrest : rest.Over rel rest') :
    (ofStop stop rest machine).Abreast gap (ofStop stop rest' machine') := by
  cases hrest with
  | forced => exact ⟨rel, .ended rfl, hworlds, hsteps⟩
  | operator _ _ hrest => exact ⟨rel, .raise stop hrest, hworlds, hsteps⟩
  | argument _ _ _ _ hrest => exact ⟨rel, .raise stop hrest, hworlds, hsteps⟩
  | binding _ _ _ _ _ hrest => exact ⟨rel, .raise stop hrest, hworlds, hsteps⟩
  | toHead _ hrest => exact ⟨rel, .raise stop hrest, hworlds, hsteps⟩
  | toName hrest => exact ⟨rel, .raise stop hrest, hworlds, hsteps⟩
  | lambda hrest => exact ⟨rel, .raise stop hrest, hworlds, hsteps⟩
  | step hrest => exact ⟨rel, .raise stop hrest, hworlds, hsteps⟩

end Moment
end Moves

namespace Engine

variable {gap : Nat} {invoke : Invoke ν σ} {code : Code ν} (hnatives : invoke.Computes code)
include hnatives

/-- The callee gets the same arguments on both sides. -/
theorem abreast_hand (limits limits' : Limits) {callee callee' : Callee ν}
    (hcallee : callee.Over rel callee') {handed handed' : List (Expr ν)}
    (hhanded : HeadsOver rel handed handed') {scope scope' : Scope ν} (hscope : rel scope scope')
    {rest rest' : Rest ν .call} (hrest : rest.Over rel rest') {machine machine' : Machine ν σ}
    (hworlds : machine.world.Abreast rel machine'.world)
    (hsteps : machine'.steps = machine.steps + gap) :
    (move ⟨limits, invoke⟩ ⟨.hand callee handed scope rest, machine⟩).Abreast gap
      (move ⟨limits', invoke⟩ ⟨.hand callee' handed' scope' rest', machine'⟩) := by
  obtain ⟨heads, heads', rfl, rfl, hheads⟩ := hhanded
  cases hrest with
  | step hrest =>
    cases hcallee with
    | native method =>
      obtain ⟨hresult, hcalled⟩ := (hworlds.emit (.invoking method (heads.map Head.toExpr) scope)
        (.invoking method (heads'.map Head.toExpr) scope')).invoke hnatives method hheads hscope
      exact ⟨rel, .outcome (.further hresult hscope) hrest, hcalled.emit _ _, hsteps⟩
    | closure hclosure =>
      obtain ⟨later, hlater, hframe, hcalled⟩ :=
        hworlds.newCall hclosure.1 (headsBetween_toExpr hheads) hscope
      exact ⟨later, .outcome (.further (hcalled.twins hframe).body hframe) (hrest.within hlater),
        hcalled.emit _ _, hsteps⟩

/-- Two evaluations that make their moves together still do after one more, unless the limits refuse
one of them. -/
theorem move_abreast (limits limits' : Limits) {moment moment' : Moment ν σ}
    (h : moment.Abreast gap moment') (hrefuses : ¬Refuses ⟨limits, invoke⟩ moment)
    (hrefuses' : ¬Refuses ⟨limits', invoke⟩ moment') :
    (move ⟨limits, invoke⟩ moment).Abreast gap (move ⟨limits', invoke⟩ moment') := by
  obtain ⟨control, machine⟩ := moment
  obtain ⟨control', machine'⟩ := moment'
  obtain ⟨rel, hcontrol, hworlds, hsteps⟩ := h
  replace hcontrol : control.Over rel control' := hcontrol
  replace hworlds : machine.world.Abreast rel machine'.world := hworlds
  replace hsteps : machine'.steps = machine.steps + gap := hsteps
  cases hcontrol with
  | enter hexpr hscope hrest =>
    rw [move, move, permit_of_le (Nat.le_of_not_lt fun hlt => hrefuses (.inr hlt)),
      permit_of_le (Nat.le_of_not_lt fun hlt => hrefuses' (.inr hlt))]
    exact ⟨rel, .count hexpr hscope (.toHead .nil hrest), hworlds, hsteps⟩
  | enterName hexpr hscope hrest =>
    rw [move, move, permit_of_le (Nat.le_of_not_lt fun hlt => hrefuses (.inr hlt)),
      permit_of_le (Nat.le_of_not_lt fun hlt => hrefuses' (.inr hlt))]
    exact ⟨rel, .position hexpr hscope hrest, hworlds, hsteps⟩
  | @position position position' hexpr _ _ hscope _ _ hrest =>
    rw [move, move, hexpr.identifier?]
    cases position'.identifier? with
    | none => exact ⟨rel, .count hexpr hscope (.toName hrest), hworlds, hsteps⟩
    | some name =>
      simp only [ownName]
      cases positional? name with
      | none => exact ⟨rel, .name name hrest, hworlds, hsteps⟩
      | some index => exact ⟨rel, .raise _ hrest, hworlds, hsteps⟩
  | count hexpr hscope hrest =>
    rw [move_count_allowed fun hlt => hrefuses (.inl hlt),
      move_count_allowed fun hlt => hrefuses' (.inl hlt)]
    refine ⟨rel, .report hexpr hscope hrest, hworlds, ?_⟩
    show machine'.steps + 1 = machine.steps + 1 + gap
    rw [hsteps, Nat.add_right_comm]
  | report hexpr hscope hrest => exact ⟨rel, .reduce hexpr hscope hrest, hworlds.emit _ _, hsteps⟩
  | reduce hexpr hscope hrest => exact Moment.abreast_ofStep hworlds hsteps hexpr hscope hrest
  | outcome houtcome hrest => exact Moment.abreast_ofOutcome hworlds hsteps houtcome hrest
  | head hhead hrest => exact Moment.abreast_ofHead hworlds hsteps hhead hrest
  | name name hrest =>
    cases hrest with
    | @binding bound bound' hbound more more' hmore table table' htable body body' hbody scope scope'
        hscope rest rest' hrest =>
      have hbind := Control.Over.bind hmore (htable.insert name hbound) hbody hscope hrest
      have hfind := htable.find? name
      simp only [move, Run.reportRebound]
      revert hfind
      cases table.find? name <;> cases table'.find? name <;> intro hfind <;> cases hfind
      · exact ⟨rel, hbind, hworlds, hsteps⟩
      · exact ⟨rel, hbind, hworlds.emit _ _, hsteps⟩
  | close hitems hscope hrest =>
    have hparts := Lambda.parts_alike hitems
    rw [move, move]
    revert hparts
    generalize Lambda.parts _ = parts
    generalize Lambda.parts _ = parts'
    intro hparts
    cases hparts with
    | defect shape => exact ⟨rel, .raise _ hrest, hworlds, hsteps⟩
    | parts hbindings hbody => exact ⟨rel, .bind hbindings .nil hbody hscope hrest, hworlds, hsteps⟩
  | bind hbindings htable hbody hscope hrest =>
    cases hbindings with
    | nil =>
      obtain ⟨later, hlater, hframe, hclosed⟩ :=
        (hworlds.emit (.closing _ _) (.closing _ _)).newClosure htable hbody hscope
      exact ⟨later, .closure hframe (hrest.within hlater), hclosed, hsteps⟩
    | cons hbinding hmore =>
      exact ⟨rel, .enterName hbinding.1 hscope (.binding hbinding.2 hmore htable hbody hscope hrest),
        hworlds, hsteps⟩
  | closure hframe hrest =>
    cases hrest with
    | lambda hrest => exact ⟨rel, .outcome (.finished (.closure hframe)) hrest, hworlds, hsteps⟩
  | arguments hcallee hdone hmore hscope hrest =>
    cases hmore with
    | nil => exact ⟨rel, .hand hcallee hdone hscope (.step hrest), hworlds, hsteps⟩
    | cons hargument hmore =>
      exact ⟨rel, .enter hargument hscope (.argument hcallee hdone hmore hscope hrest), hworlds,
        hsteps⟩
  | hand hcallee hhanded hscope hrest =>
    exact abreast_hand hnatives limits limits' hcallee hhanded hscope hrest hworlds hsteps
  | raise stop hrest => exact Moment.abreast_ofStop hworlds hsteps stop hrest
  | ended hresult => exact ⟨rel, .ended hresult, hworlds, hsteps⟩

/-- As long as the limits refuse neither. -/
theorem after_abreast (limits limits' : Limits) {moment moment' : Moment ν σ}
    (h : moment.Abreast gap moment')
    (hrefuses : ∀ moves, ¬Refuses ⟨limits, invoke⟩ (after ⟨limits, invoke⟩ moves moment))
    (hrefuses' : ∀ moves, ¬Refuses ⟨limits', invoke⟩ (after ⟨limits', invoke⟩ moves moment'))
    (moves : Nat) :
    (after ⟨limits, invoke⟩ moves moment).Abreast gap (after ⟨limits', invoke⟩ moves moment') := by
  induction moves with
  | zero => exact h
  | succ moves ih =>
    rw [after_succ, after_succ]
    exact move_abreast hnatives limits limits' ih (hrefuses moves) (hrefuses' moves)

/-- Evaluations that hit no limit and come to make their moves together end alike, and with as many
more steps. -/
theorem evaluate_abreast (limits limits' : Limits) {request request' : Evaluation ν}
    {world world' : World ν σ} {first first' : Nat}
    (h : (after ⟨limits, invoke⟩ first (request.start world)).Abreast gap
      (after ⟨limits', invoke⟩ first' (request'.start world'))) :
    let evaluated := evaluate ⟨limits, invoke⟩ request world
    let evaluated' := evaluate ⟨limits', invoke⟩ request' world'
    evaluated.isCut = false → evaluated'.isCut = false →
      evaluated.outcome.map Expr.forget = evaluated'.outcome.map Expr.forget ∧
        evaluated'.steps = evaluated.steps + gap := by
  intro evaluated evaluated' hcut hcut'
  obtain ⟨total, hover⟩ := evaluate_over ⟨limits, invoke⟩ request world
  obtain ⟨total', hover'⟩ := evaluate_over ⟨limits', invoke⟩ request' world'
  have hlater := after_abreast hnatives limits limits' h
    (fun moves => by rw [← after_add]; exact not_refuses hcut _)
    (fun moves => by rw [← after_add]; exact not_refuses hcut' _) (total + total')
  have hend : after ⟨limits, invoke⟩ (total + total') (after ⟨limits, invoke⟩ first
      (request.start world)) = evaluated.moment := by
    rw [← after_add]
    exact hover _ (by omega)
  have hend' : after ⟨limits', invoke⟩ (total + total') (after ⟨limits', invoke⟩ first'
      (request'.start world')) = evaluated'.moment := by
    rw [← after_add]
    exact hover' _ (by omega)
  rw [hend, hend'] at hlater
  obtain ⟨rel, hcontrol, -, hsteps⟩ := hlater
  cases hcontrol with
  | ended hresult => exact ⟨hresult, hsteps⟩

end Engine

end CallByNeed
