import CallByNeed.Proofs.Deferral.Settled

/-! # Call by name with settled arguments

Call by name comes to the same where arguments are deferred as they are and where the heads they
evaluate to are (`CallByName.Derives.settled`). An argument that is deferred as it is may be
evaluated again wherever it is used, or not at all; the head is found right there.
-/

namespace CallByNeed
set_option autoImplicit false

open CallByName

variable {ν : Type} {code : Code ν}

/-! ## Heads over related scopes -/

section Forms

variable {rel : Scope ν → Scope ν → Prop}

namespace Head.Over

variable {head head' : Head ν} (h : head.Over rel head')
include h

theorem isOperator : head.isOperator = head'.isOperator := by
  cases h <;> rfl

theorem name? : head.name? = head'.name? := by
  cases h with
  | value h => exact congrArg (fun it => it.payload.name?) h
  | native | closure => rfl

end Head.Over

theorem Head.over_refl (hrel : ∀ scope, rel scope scope) (head : Head ν) : head.Over rel head := by
  rcases head with (it | method) | closure
  · exact .value rfl
  · exact .native method
  · exact .closure (hrel closure)

/-- Natives that treat frames as opaque give the same syntax over related scopes. -/
theorem Code.Uniform.over_of_heads (huniform : code.Uniform) {heads heads' : List (Head ν)}
    (h : List.Forall₂ (Head.Over rel) heads heads') (method : Native ν) :
    (code method (heads.map Head.toExpr)).Over rel (code method (heads'.map Head.toExpr)) :=
  huniform.over h method (fun _ _ hscope => .loose (.scope hscope)) rfl rfl

/-- Tables of entries over related scopes. -/
theorem Table.ofList_over {entries entries' : List (String × Expr ν)}
    (h : List.Forall₂ (Entry.Alike (.over rel) fun _ _ => False) entries entries') :
    (Table.ofList entries).Over rel (.ofList entries') := by
  have hfold {table table' : Table (Expr ν)} (htable : table.Over rel table') :
      (entries.foldl (fun table entry => table.insert entry.1 entry.2) table).Over rel
        (entries'.foldl (fun table entry => table.insert entry.1 entry.2) table') := by
    induction h generalizing table table' with
    | nil => exact htable
    | cons hentry _ ih =>
      obtain ⟨hbound⟩ := hentry
      exact ih (htable.insert _ hbound)
  exact hfold .nil

end Forms

/-! ## Demands and results -/

namespace CallByName

/-- The same demand over settled scopes. -/
inductive Demand.Settled (code : Code ν) : Demand ν → Demand ν → Prop where
  | reduce {expr expr' : Expr ν} (hexpr : expr.Over (CallByNeed.Settled code) expr')
      {scope scope' : Scope ν} (hscope : CallByNeed.Settled code scope scope') :
      Settled code (.reduce expr scope) (.reduce expr' scope')
  | evaluate {expr expr' : Expr ν} (hexpr : expr.Over (CallByNeed.Settled code) expr')
      {scope scope' : Scope ν} (hscope : CallByNeed.Settled code scope scope') :
      Settled code (.evaluate expr scope) (.evaluate expr' scope')
  | evaluateAll {exprs exprs' : List (Expr ν)}
      (hexprs : List.Forall₂ (Expr.Over (CallByNeed.Settled code)) exprs exprs')
      {scope scope' : Scope ν} (hscope : CallByNeed.Settled code scope scope') :
      Settled code (.evaluateAll exprs scope) (.evaluateAll exprs' scope')
  | name {position position' : Expr ν}
      (hposition : position.Over (CallByNeed.Settled code) position') {scope scope' : Scope ν}
      (hscope : CallByNeed.Settled code scope scope') :
      Settled code (.name position scope) (.name position' scope')
  | bind {bindings bindings' : List (Lambda.Binding ν)}
      (hbindings : Lambda.BindingsAlike (.over (CallByNeed.Settled code)) (fun _ _ => False)
        bindings bindings')
      {scope scope' : Scope ν} (hscope : CallByNeed.Settled code scope scope') :
      Settled code (.bind bindings scope) (.bind bindings' scope')

/-- The same result over settled scopes. -/
inductive Result.Settled (code : Code ν) : Result ν → Result ν → Prop where
  | failed (failure : Failure) : Settled code (.failed failure) (.failed failure)
  | head {head head' : Head ν} (h : head.Over (CallByNeed.Settled code) head') :
      Settled code (.head head) (.head head')
  | next {expr expr' : Expr ν} (hexpr : expr.Over (CallByNeed.Settled code) expr')
      {scope scope' : Scope ν} (hscope : CallByNeed.Settled code scope scope') :
      Settled code (.next expr scope) (.next expr' scope')
  | heads {heads heads' : List (Head ν)}
      (h : List.Forall₂ (Head.Over (CallByNeed.Settled code)) heads heads') :
      Settled code (.heads (heads.map Head.toExpr)) (.heads (heads'.map Head.toExpr))
  | name (name : String) : Settled code (.name name) (.name name)
  | bound {entries entries' : List (String × Expr ν)}
      (h : List.Forall₂ (Entry.Alike (.over (CallByNeed.Settled code)) fun _ _ => False)
        entries entries') :
      Settled code (.bound entries) (.bound entries')

/-! ## Heads -/

/-- A head is evaluated already. -/
theorem reduces_head (code : Code ν) {head : Head ν} (h : head.Fits) (scope : Scope ν) :
    Derives code (.reduce head.toExpr scope) (.head head) [] := by
  rcases head with (it | method) | closure
  · exact .value it scope
  · exact .native method scope
  · exact .closure scope h

/-- A thunk is evaluated where it was deferred. -/
theorem Derives.of_thunk {deferred : Expr ν} {calling scope : Scope ν} {result : Result ν}
    {trace : Trace ν}
    (h : Derives code (.evaluate (.scope (.thunk 0 deferred calling)) scope) result trace) :
    Derives code (.evaluate deferred calling) result trace := by
  refine h.of_next ?_
  show (Scope.thunk 0 deferred calling).parent?.map _ = _
  rw [Scope.parent?_thunk]
  rfl

theorem Derives.thunk_next {deferred : Expr ν} {calling : Scope ν} {result : Result ν}
    {trace : Trace ν} (h : Derives code (.evaluate deferred calling) result trace)
    (scope : Scope ν) :
    Derives code (.evaluate (.scope (.thunk 0 deferred calling)) scope) result trace :=
  .next (.thunk scope rfl (Scope.parent?_thunk _ _ _)) h

/-- What is found in settled scopes evaluates to the same head if it was settled itself. -/
theorem Derives.of_deferred {bound bound' : Expr ν} {owner : Scope ν} {result : Result ν}
    {trace : Trace ν} (hdeferred : DeferredSettled code bound bound')
    (h : Derives code (.evaluate bound owner) result trace) (owner' : Scope ν) :
    ∃ trace', Derives code (.evaluate bound' owner') result trace' ∧
      ∃ head, result = .head head := by
  obtain ⟨calling, head, rfl, hfits, first, hargument⟩ := hdeferred
  obtain ⟨rfl, -⟩ := h.of_thunk.deterministic hargument
  have hhead := Derives.head (reduces_head code hfits calling)
  exact ⟨_, hhead.thunk_next owner', head, rfl⟩

/-! ## The simulation -/

/-- The demand has the same result, over settled scopes. -/
def Comes (code : Code ν) (result : Result ν) (demand : Demand ν) : Prop :=
  ∃ found trace, Derives code demand found trace ∧ result.Settled code found

namespace Comes

variable {demand : Demand ν}

theorem of_failed {failure : Failure} {trace : Trace ν}
    (h : Derives code demand (.failed failure) trace) : Comes code (.failed failure) demand :=
  ⟨_, _, h, .failed failure⟩

theorem failed {failure : Failure} (h : Comes code (.failed failure) demand) :
    ∃ trace, Derives code demand (.failed failure) trace := by
  obtain ⟨found, trace, hderives, hresult⟩ := h
  cases hresult
  exact ⟨trace, hderives⟩

theorem head {head : Head ν} (h : Comes code (.head head) demand) :
    ∃ head' trace, Derives code demand (.head head') trace ∧
      head.Over (CallByNeed.Settled code) head' := by
  obtain ⟨found, trace, hderives, hresult⟩ := h
  cases hresult with
  | head hhead => exact ⟨_, trace, hderives, hhead⟩

theorem next {next : Expr ν} {inner : Scope ν} (h : Comes code (.next next inner) demand) :
    ∃ next' inner' trace, Derives code demand (.next next' inner') trace ∧
      next.Over (CallByNeed.Settled code) next' ∧ CallByNeed.Settled code inner inner' := by
  obtain ⟨found, trace, hderives, hresult⟩ := h
  cases hresult with
  | next hnext hinner => exact ⟨_, _, trace, hderives, hnext, hinner⟩

theorem heads {heads : List (Expr ν)} (h : Comes code (.heads heads) demand) :
    ∃ all all' trace, heads = all.map Head.toExpr ∧
      Derives code demand (.heads (all'.map Head.toExpr)) trace ∧
      List.Forall₂ (Head.Over (CallByNeed.Settled code)) all all' := by
  obtain ⟨found, trace, hderives, hresult⟩ := h
  cases hresult with
  | heads hall => exact ⟨_, _, trace, rfl, hderives, hall⟩

theorem name {name : String} (h : Comes code (.name name) demand) :
    ∃ trace, Derives code demand (.name name) trace := by
  obtain ⟨found, trace, hderives, hresult⟩ := h
  cases hresult
  exact ⟨trace, hderives⟩

theorem bound {entries : List (String × Expr ν)} (h : Comes code (.bound entries) demand) :
    ∃ entries' trace, Derives code demand (.bound entries') trace ∧
      List.Forall₂ (Entry.Alike (.over (CallByNeed.Settled code)) fun _ _ => False)
        entries entries' := by
  obtain ⟨found, trace, hderives, hresult⟩ := h
  cases hresult with
  | bound hentries => exact ⟨_, trace, hderives, hentries⟩

end Comes

/-- Settled scopes are reduced to the same. -/
theorem reduct?_settled {inner inner' : Scope ν} (h : CallByNeed.Settled code inner inner')
    {result : Result ν} (hreduct : reduct? inner = some result) :
    ∃ result', reduct? inner' = some result' ∧ result.Settled code result' := by
  have hparents := h.agrees.parent
  unfold reduct? at hreduct ⊢
  rw [← h.agrees.kind]
  cases hkind : inner.kind with
  | closure =>
    rw [hkind] at hreduct
    cases hreduct
    exact ⟨_, rfl, .head (.closure h)⟩
  | thunk =>
    rw [hkind] at hreduct
    obtain ⟨parent, hparent, rfl⟩ := Option.map_eq_some_iff.1 hreduct
    rw [hparent] at hparents
    generalize inner'.parent? = found at hparents
    cases hparents with
    | some hboth => exact ⟨_, rfl, .next h.agrees.body hboth⟩
  | call =>
    rw [hkind] at hreduct
    cases hreduct
    exact ⟨_, rfl, .next h.agrees.body h⟩
  | root =>
    rw [hkind] at hreduct
    cases hreduct
    exact ⟨_, rfl, .next (.failure _) h⟩

theorem Derives.scope_settled {inner scope : Scope ν} {result : Result ν} {trace : Trace ν}
    (h : Derives code (.reduce (.scope inner) scope) result trace) {demand : Demand ν}
    (hdemand : (Demand.reduce (.scope inner) scope).Settled code demand) :
    Comes code result demand := by
  have .reduce hexpr hscope := hdemand
  obtain ⟨inner', rfl, hinner⟩ := hexpr.of_scope
  obtain ⟨result', hreduct, hresult⟩ := reduct?_settled hinner h.of_scope.1
  exact ⟨result', _, .of_reduct? hreduct _, hresult⟩

/-- Over settled scopes, call by name comes to the same result. -/
theorem Derives.settled (huniform : code.Uniform) {demand demand' : Demand ν} {result : Result ν}
    {trace : Trace ν} (h : Derives code demand result trace) (hdemand : demand.Settled code demand') :
    Comes code result demand' := by
  induction h generalizing demand' with
  | value it scope =>
    have .reduce hexpr hscope := hdemand
    obtain ⟨it', rfl, hit⟩ := hexpr.of_value
    exact ⟨_, _, .value it' _, .head (.value hit)⟩
  | native method scope =>
    have .reduce hexpr hscope := hdemand
    cases hexpr.of_native
    exact ⟨_, _, .native method _, .head (.native method)⟩
  | failure failure scope =>
    have .reduce hexpr hscope := hdemand
    cases hexpr.of_failure
    exact .of_failed (.failure failure _)
  | closure scope hkind => exact (Derives.closure scope hkind).scope_settled hdemand
  | thunk scope hkind hparent => exact (Derives.thunk scope hkind hparent).scope_settled hdemand
  | call scope hkind => exact (Derives.call scope hkind).scope_settled hdemand
  | root scope hkind => exact (Derives.root scope hkind).scope_settled hdemand
  | malformed scope hparts =>
    have .reduce hexpr hscope := hdemand
    obtain ⟨items', rfl, hitems⟩ := hexpr.of_lambda
    exact .of_failed (.malformed _ (hparts ▸ Lambda.parts_alike hitems).of_defect)
  | lambdaFails hparts _ ih =>
    have .reduce hexpr hscope := hdemand
    obtain ⟨items', rfl, hitems⟩ := hexpr.of_lambda
    obtain ⟨bindings', body', hparts', hbindings, hbody⟩ :=
      (hparts ▸ Lambda.parts_alike hitems).of_parts
    obtain ⟨trace', hbind'⟩ := (ih (.bind hbindings hscope)).failed
    exact .of_failed (.lambdaFails hparts' hbind')
  | lambda hparts _ ih =>
    have .reduce hexpr hscope := hdemand
    obtain ⟨items', rfl, hitems⟩ := hexpr.of_lambda
    obtain ⟨bindings', body', hparts', hbindings, hbody⟩ :=
      (hparts ▸ Lambda.parts_alike hitems).of_parts
    obtain ⟨entries', trace', hbind', hentries⟩ := (ih (.bind hbindings hscope)).bound
    exact ⟨_, _, .lambda hparts' hbind',
      .head (.closure (.closure (fun _ _ h => h) (Table.ofList_over hentries) hbody hscope))⟩
  | operatorFails arguments _ ih =>
    have .reduce hexpr hscope := hdemand
    obtain ⟨operator', arguments', rfl, hoperator, harguments⟩ := hexpr.of_application
    obtain ⟨trace', hoperator'⟩ := (ih (.evaluate hoperator hscope)).failed
    exact .of_failed (.operatorFails arguments' hoperator')
  | plainValue arguments _ ih =>
    have .reduce hexpr hscope := hdemand
    obtain ⟨operator', arguments', rfl, hoperator, harguments⟩ := hexpr.of_application
    obtain ⟨head', trace', hoperator', hhead⟩ := (ih (.evaluate hoperator hscope)).head
    cases hhead with
    | value hit => exact ⟨_, _, .plainValue arguments' hoperator', .head (.value hit)⟩
  | argumentFails _ happlies _ ihoperator iharguments =>
    have .reduce hexpr hscope := hdemand
    obtain ⟨operator', arguments', rfl, hoperator, harguments⟩ := hexpr.of_application
    obtain ⟨head', trace', hoperator', hhead⟩ := (ihoperator (.evaluate hoperator hscope)).head
    obtain ⟨more', harguments'⟩ := (iharguments (.evaluateAll harguments hscope)).failed
    exact .of_failed (.argumentFails hoperator' (hhead.isOperator ▸ happlies) harguments')
  | nativeCall _ _ ihoperator iharguments =>
    have .reduce hexpr hscope := hdemand
    obtain ⟨operator', arguments', rfl, hoperator, harguments⟩ := hexpr.of_application
    obtain ⟨head', trace', hoperator', hhead⟩ := (ihoperator (.evaluate hoperator hscope)).head
    obtain ⟨all, all', more', rfl, harguments', hall⟩ :=
      (iharguments (.evaluateAll harguments hscope)).heads
    cases hhead with
    | native method =>
      exact ⟨_, _, .nativeCall hoperator' harguments',
        .next (huniform.over_of_heads hall _) hscope⟩
  | closureCall _ _ ihoperator iharguments =>
    have .reduce hexpr hscope := hdemand
    obtain ⟨operator', arguments', rfl, hoperator, harguments⟩ := hexpr.of_application
    obtain ⟨head', trace', hoperator', hhead⟩ := (ihoperator (.evaluate hoperator hscope)).head
    obtain ⟨all, all', more', rfl, harguments', hall⟩ :=
      (iharguments (.evaluateAll harguments hscope)).heads
    cases hhead with
    | closure hclosure =>
      exact ⟨_, _, .closureCall hoperator' harguments', .next hclosure.agrees.body
        (.call (fun _ _ h => h) hclosure (headsBetween_toExpr hall) hscope)⟩
  | @missing name scope failure hfind =>
    have .evaluate hexpr hscope := hdemand
    cases hexpr.of_identifier
    exact .of_failed (.missing (hfind ▸ hscope.find name).of_missing)
  | @identifier name scope owner bound result trace hfind hbound ih =>
    have .evaluate hexpr hscope := hdemand
    cases hexpr.of_identifier
    obtain ⟨bound', owner', hfind', hheld, howner⟩ := (hfind ▸ hscope.find name).of_found
    -- An argument is settled, or what was found is the same syntax over settled scopes.
    rcases hheld with hover | hdeferred
    · obtain ⟨result', trace', hbound', hresult⟩ := ih (.evaluate hover howner)
      exact ⟨result', _, .identifier hfind' hbound', hresult⟩
    · obtain ⟨trace', hbound', head, rfl⟩ := hbound.of_deferred hdeferred owner'
      exact ⟨_, _, .identifier hfind' hbound', .head (head.over_refl .same)⟩
  | fails _ ih =>
    have .evaluate hexpr hscope := hdemand
    obtain ⟨trace', hreduce'⟩ := (ih (.reduce hexpr hscope)).failed
    exact .of_failed (.fails hreduce')
  | head _ ih =>
    have .evaluate hexpr hscope := hdemand
    obtain ⟨head', trace', hreduce', hhead⟩ := (ih (.reduce hexpr hscope)).head
    exact ⟨_, _, .head hreduce', .head hhead⟩
  | next _ _ ihreduce ihnext =>
    have .evaluate hexpr hscope := hdemand
    obtain ⟨_, _, trace', hreduce', hnext, hinner⟩ := (ihreduce (.reduce hexpr hscope)).next
    obtain ⟨result', more', hnext', hresult⟩ := ihnext (.evaluate hnext hinner)
    exact ⟨result', _, .next hreduce' hnext', hresult⟩
  | noArgument scope =>
    have .evaluateAll hexprs hscope := hdemand
    cases hexprs
    exact ⟨_, _, .noArgument _, .heads .nil⟩
  | firstFails rest _ ih =>
    have .evaluateAll (.cons hargument hrest) hscope := hdemand
    obtain ⟨trace', hargument'⟩ := (ih (.evaluate hargument hscope)).failed
    exact .of_failed (.firstFails _ hargument')
  | laterFails _ _ ihargument ihrest =>
    have .evaluateAll (.cons hargument hrest) hscope := hdemand
    obtain ⟨head', trace', hargument', hhead⟩ := (ihargument (.evaluate hargument hscope)).head
    obtain ⟨more', hrest'⟩ := (ihrest (.evaluateAll hrest hscope)).failed
    exact .of_failed (.laterFails hargument' hrest')
  | arguments _ _ ihargument ihrest =>
    have .evaluateAll (.cons hargument hrest) hscope := hdemand
    obtain ⟨head', trace', hargument', hhead⟩ := (ihargument (.evaluate hargument hscope)).head
    obtain ⟨all, all', more', rfl, hrest', hall⟩ := (ihrest (.evaluateAll hrest hscope)).heads
    exact ⟨_, _, .arguments hargument' hrest', .heads (.cons hhead hall)⟩
  | ownName scope hname =>
    have .name hposition hscope := hdemand
    cases hposition.of_identifier
    exact ⟨_, _, .ownName _ hname, .name _⟩
  | positional scope hname =>
    have .name hposition hscope := hdemand
    cases hposition.of_identifier
    exact .of_failed (.positional _ hname)
  | nameFails _ ih =>
    have .name hposition hscope := hdemand
    obtain ⟨trace', hreduce'⟩ := (ih (.reduce hposition hscope)).failed
    exact .of_failed (.nameFails hreduce')
  | name _ hname ih =>
    have .name hposition hscope := hdemand
    obtain ⟨head', trace', hreduce', hhead⟩ := (ih (.reduce hposition hscope)).head
    exact ⟨_, _, .name hreduce' (hhead.name? ▸ hname), .name _⟩
  | noName _ hname ih =>
    have .name hposition hscope := hdemand
    obtain ⟨head', trace', hreduce', hhead⟩ := (ih (.reduce hposition hscope)).head
    have hnone := Derives.noName hreduce' (hhead.name? ▸ hname)
    rw [← Expr.Over.display hhead.toExpr] at hnone
    exact .of_failed hnone
  | nextName _ _ ihreduce ihnext =>
    have .name hposition hscope := hdemand
    obtain ⟨_, _, trace', hreduce', hnext, hinner⟩ := (ihreduce (.reduce hposition hscope)).next
    obtain ⟨result', more', hnext', hresult⟩ := ihnext (.name hnext hinner)
    exact ⟨result', _, .nextName hreduce' hnext', hresult⟩
  | noBinding scope =>
    have .bind hbindings hscope := hdemand
    cases hbindings
    exact ⟨_, _, .noBinding _, .bound .nil⟩
  | bindingFails bound rest _ ih =>
    have .bind (.cons hbinding hrest) hscope := hdemand
    obtain ⟨trace', hname'⟩ := (ih (.name hbinding.1 hscope)).failed
    exact .of_failed (.bindingFails _ _ hname')
  | laterBindingFails bound _ _ ihname ihrest =>
    have .bind (.cons hbinding hrest) hscope := hdemand
    obtain ⟨trace', hname'⟩ := (ihname (.name hbinding.1 hscope)).name
    obtain ⟨more', hrest'⟩ := (ihrest (.bind hrest hscope)).failed
    exact .of_failed (.laterBindingFails _ hname' hrest')
  | binding bound _ _ ihname ihrest =>
    have .bind (.cons hbinding hrest) hscope := hdemand
    obtain ⟨trace', hname'⟩ := (ihname (.name hbinding.1 hscope)).name
    obtain ⟨entries', more', hrest', hentries⟩ := (ihrest (.bind hrest hscope)).bound
    exact ⟨_, _, .binding _ hname' hrest', .bound (.cons (.entry hbinding.2) hentries)⟩

/-- Forcing comes to the same answer over settled scopes. -/
theorem Forces.settled (huniform : code.Uniform) {expr expr' : Expr ν} {scope scope' : Scope ν}
    {answer : Except Failure (Terminal ν)} {trace : Trace ν}
    (h : Forces code expr scope answer trace) (hexpr : expr.Over (CallByNeed.Settled code) expr')
    (hscope : CallByNeed.Settled code scope scope') :
    ∃ answer' trace', Forces code expr' scope' answer' trace' ∧
      answer.map Terminal.forget = answer'.map Terminal.forget := by
  induction h generalizing expr' scope' with
  | fails heval =>
    obtain ⟨trace', heval'⟩ := (heval.settled huniform (.evaluate hexpr hscope)).failed
    exact ⟨_, _, .fails heval', rfl⟩
  | terminal heval =>
    obtain ⟨head', trace', heval', hhead⟩ :=
      (heval.settled huniform (.evaluate hexpr hscope)).head
    cases hhead with
    | value hit => exact ⟨_, _, .terminal heval', congrArg (Except.ok ∘ Terminal.value) hit⟩
    | native method => exact ⟨_, _, .terminal heval', rfl⟩
  | closure heval _ ih =>
    obtain ⟨head', trace', heval', hhead⟩ :=
      (heval.settled huniform (.evaluate hexpr hscope)).head
    cases hhead with
    | closure hclosure =>
      obtain ⟨answer', more', hbody', hanswer⟩ := ih hclosure.agrees.body hclosure
      exact ⟨answer', _, .closure heval' hbody', hanswer⟩

end CallByName
end CallByNeed
