import CallByNeed.Proofs.CallByName.Inversion

/-! # Call by name is deterministic

A demand has at most one result, with at most one trace (`Derives.deterministic`). The demand that it
asks for first has one result, which tells whether there is more to ask for.
-/

namespace CallByNeed
set_option autoImplicit false

namespace CallByName

variable {ν : Type} {code : Code ν}

theorem Derives.scope_unique {inner scope : Scope ν} {first second : Result ν}
    {trace more : Trace ν} (h : Derives code (.reduce (.scope inner) scope) first trace)
    (h' : Derives code (.reduce (.scope inner) scope) second more) :
    first = second ∧ trace = more := by
  obtain ⟨hfirst, rfl⟩ := h.of_scope
  obtain ⟨hsecond, rfl⟩ := h'.of_scope
  exact ⟨Option.some.inj (hfirst.symm.trans hsecond), rfl⟩

/-- Two derivations for one demand have one result and one trace. -/
theorem Derives.deterministic {demand : Demand ν} {first second : Result ν} {trace more : Trace ν}
    (h : Derives code demand first trace) (h' : Derives code demand second more) :
    first = second ∧ trace = more := by
  induction h generalizing second more with
  | value | native | failure | noArgument | noBinding =>
    cases h'
    exact ⟨rfl, rfl⟩
  | closure scope hkind => exact (Derives.closure scope hkind).scope_unique h'
  | thunk scope hkind hparent => exact (Derives.thunk scope hkind hparent).scope_unique h'
  | call scope hkind => exact (Derives.call scope hkind).scope_unique h'
  | root scope hkind => exact (Derives.root scope hkind).scope_unique h'
  | malformed scope hparts =>
    rcases h'.of_lambda with ⟨_, hparts', rfl, rfl⟩ | ⟨_, _, _, hparts', -⟩
    · cases hparts.symm.trans hparts'
      exact ⟨rfl, rfl⟩
    · cases hparts.symm.trans hparts'
  | lambdaFails hparts _ ih | lambda hparts _ ih =>
    rcases h'.of_lambda with ⟨_, hparts', -⟩ | ⟨_, _, _, hparts', hbind', rfl⟩
    · cases hparts.symm.trans hparts'
    · cases hparts.symm.trans hparts'
      obtain ⟨rfl, rfl⟩ := ih hbind'
      exact ⟨rfl, rfl⟩
  | operatorFails arguments _ ih =>
    rcases h'.of_application with ⟨hoperator', -⟩ | ⟨_, _, _, _, hoperator', -⟩
    · exact ih hoperator'
    · cases (ih hoperator').1
  | plainValue arguments _ ih =>
    rcases h'.of_application with ⟨hoperator', -⟩ | ⟨_, _, _, _, hoperator', hhead, -⟩
    · exact ih hoperator'
    · cases (ih hoperator').1
      cases hhead
  | argumentFails _ hhead _ ihoperator iharguments =>
    rcases h'.of_application with ⟨hoperator', hstops⟩ | ⟨_, _, _, _, hoperator', -, hall', rfl, rfl⟩
    · obtain ⟨rfl, -⟩ := ihoperator hoperator'
      cases hhead.symm.trans (hstops _ rfl)
    · obtain ⟨-, rfl⟩ := ihoperator hoperator'
      obtain ⟨rfl, rfl⟩ := iharguments hall'
      exact ⟨rfl, rfl⟩
  | nativeCall _ _ ihoperator iharguments | closureCall _ _ ihoperator iharguments =>
    rcases h'.of_application with ⟨hoperator', hstops⟩ | ⟨_, _, _, _, hoperator', -, hall', rfl, rfl⟩
    · obtain ⟨rfl, -⟩ := ihoperator hoperator'
      cases hstops _ rfl
    · obtain ⟨hsame, rfl⟩ := ihoperator hoperator'
      cases hsame
      obtain ⟨rfl, rfl⟩ := iharguments hall'
      exact ⟨rfl, rfl⟩
  | missing hfind =>
    rcases h'.of_identifier with ⟨_, hfind', rfl, rfl⟩ | ⟨_, _, _, hfind', -⟩
    · cases hfind.symm.trans hfind'
      exact ⟨rfl, rfl⟩
    · cases hfind.symm.trans hfind'
  | identifier hfind _ ih =>
    rcases h'.of_identifier with ⟨_, hfind', -⟩ | ⟨_, _, _, hfind', hbound', rfl⟩
    · cases hfind.symm.trans hfind'
    · cases hfind.symm.trans hfind'
      obtain ⟨rfl, rfl⟩ := ih hbound'
      exact ⟨rfl, rfl⟩
  | fails hreduce ih | head hreduce ih =>
    rcases h'.of_evaluate hreduce.identifier?_eq_none with
      ⟨hreduce', -⟩ | ⟨_, _, _, _, hreduce', -⟩
    · exact ih hreduce'
    · cases (ih hreduce').1
  | next hreduce _ ihreduce ihnext =>
    rcases h'.of_evaluate hreduce.identifier?_eq_none with
      ⟨hreduce', hstops⟩ | ⟨_, _, _, _, hreduce', hnext', rfl⟩
    · exact absurd (ihreduce hreduce').1.symm (hstops _ _)
    · obtain ⟨hsame, rfl⟩ := ihreduce hreduce'
      cases hsame
      obtain ⟨rfl, rfl⟩ := ihnext hnext'
      exact ⟨rfl, rfl⟩
  | firstFails rest _ ih =>
    rcases h'.of_arguments with ⟨_, hargument', rfl⟩ | ⟨_, _, _, _, hargument', -⟩
    · exact ih hargument'
    · cases (ih hargument').1
  | laterFails _ _ ihargument ihrest | arguments _ _ ihargument ihrest =>
    rcases h'.of_arguments with ⟨_, hargument', -⟩ | ⟨_, _, _, _, hargument', hrest', rfl, rfl⟩
    · cases (ihargument hargument').1
    · obtain ⟨hsame, rfl⟩ := ihargument hargument'
      cases hsame
      obtain ⟨rfl, rfl⟩ := ihrest hrest'
      exact ⟨rfl, rfl⟩
  | ownName scope hname =>
    cases h' with
    | ownName _ _ => exact ⟨rfl, rfl⟩
    | positional _ hname' => cases hname.symm.trans hname'
    | nameFails hreduce' | name hreduce' _ | noName hreduce' _ | nextName hreduce' _ =>
      cases hreduce'
  | positional scope hname =>
    cases h' with
    | ownName _ hname' => cases hname.symm.trans hname'
    | positional _ _ => exact ⟨rfl, rfl⟩
    | nameFails hreduce' | name hreduce' _ | noName hreduce' _ | nextName hreduce' _ =>
      cases hreduce'
  | nameFails hreduce ih =>
    rcases h'.of_position hreduce.identifier?_eq_none with
      ⟨_, hreduce', -, rfl⟩ | ⟨_, _, _, _, hreduce', -⟩
    · obtain ⟨rfl, rfl⟩ := ih hreduce'
      exact ⟨rfl, rfl⟩
    · cases (ih hreduce').1
  | name hreduce hname ih | noName hreduce hname ih =>
    rcases h'.of_position hreduce.identifier?_eq_none with
      ⟨_, hreduce', -, rfl⟩ | ⟨_, _, _, _, hreduce', -⟩
    · obtain ⟨rfl, rfl⟩ := ih hreduce'
      rw [Result.named, hname]
      exact ⟨rfl, rfl⟩
    · cases (ih hreduce').1
  | nextName hreduce _ ihreduce ihnext =>
    rcases h'.of_position hreduce.identifier?_eq_none with
      ⟨_, hreduce', hstops, -⟩ | ⟨_, _, _, _, hreduce', hnext', rfl⟩
    · exact absurd (ihreduce hreduce').1.symm (hstops _ _)
    · obtain ⟨hsame, rfl⟩ := ihreduce hreduce'
      cases hsame
      obtain ⟨rfl, rfl⟩ := ihnext hnext'
      exact ⟨rfl, rfl⟩
  | bindingFails bound rest _ ih =>
    rcases h'.of_bindings with ⟨_, hname', rfl⟩ | ⟨_, _, _, _, hname', -⟩
    · exact ih hname'
    · cases (ih hname').1
  | laterBindingFails bound _ _ ihname ihrest | binding bound _ _ ihname ihrest =>
    rcases h'.of_bindings with ⟨_, hname', -⟩ | ⟨_, _, _, _, hname', hrest', rfl, rfl⟩
    · cases (ihname hname').1
    · obtain ⟨hsame, rfl⟩ := ihname hname'
      cases hsame
      obtain ⟨rfl, rfl⟩ := ihrest hrest'
      exact ⟨rfl, rfl⟩

/-- Forcing has one answer, with one trace. -/
theorem Forces.deterministic {expr : Expr ν} {scope : Scope ν}
    {first second : Except Failure (Terminal ν)} {trace more : Trace ν}
    (h : Forces code expr scope first trace) (h' : Forces code expr scope second more) :
    first = second ∧ trace = more := by
  induction h generalizing second more with
  | fails heval =>
    cases h' with
    | fails heval' =>
      obtain ⟨hresult, htrace⟩ := heval.deterministic heval'
      cases hresult
      exact ⟨rfl, htrace⟩
    | terminal heval' => cases (heval.deterministic heval').1
    | closure heval' _ => cases (heval.deterministic heval').1
  | terminal heval =>
    cases h' with
    | fails heval' => cases (heval.deterministic heval').1
    | terminal heval' =>
      obtain ⟨hresult, htrace⟩ := heval.deterministic heval'
      cases hresult
      exact ⟨rfl, htrace⟩
    | closure heval' _ => cases (heval.deterministic heval').1
  | closure heval hbody ih =>
    cases h' with
    | fails heval' => cases (heval.deterministic heval').1
    | terminal heval' => cases (heval.deterministic heval').1
    | closure heval' hbody' =>
      obtain ⟨hresult, htrace⟩ := heval.deterministic heval'
      cases hresult
      obtain ⟨hanswer, hmore⟩ := ih hbody'
      exact ⟨hanswer, by rw [htrace, hmore]⟩

end CallByName
end CallByNeed
