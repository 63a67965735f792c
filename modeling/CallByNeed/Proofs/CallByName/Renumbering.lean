import CallByNeed.Proofs.CallByName.Basic

/-! # Call by name under other numbers

Natives that treat frames as opaque cannot tell frames of other numbers apart, and neither can the
rules of call by name: every derivation is a derivation with other numbers for the frames, as long as
0 stays the number of the frames that are made on the way.
-/

namespace CallByNeed
set_option autoImplicit false

variable {ν : Type}

/-- The natives treat frames as opaque and look at no identity that an evaluation gave to a value:
what they make of other scopes is the same with these scopes in it. This leaves out a native that
holds a frame of its own: in a result every frame is one of the arguments' (`Uniform.scopes`). -/
def Code.Uniform (code : Code ν) : Prop :=
  ∀ method arguments (replace : Scope ν → Scope ν),
    code method (arguments.map (Expr.replaceScopes replace)) =
      (code method arguments).replaceScopes replace

/-- Other frames than those of the arguments cannot come out of an opaque native. -/
theorem Code.Uniform.scopes {code : Code ν} (h : code.Uniform) {method : Native ν}
    {arguments : List (Expr ν)} {inner : Scope ν}
    (hinner : inner ∈ (code method arguments).scopes) : inner ∈ scopesAll arguments := by
  classical
  -- Changing all scopes but those of the arguments leaves the arguments and so the result.
  let change : Scope ν → Scope ν := fun scope =>
    if scope ∈ scopesAll arguments then scope
    else ⟨⟨scope.frame.number + 1, scope.frame.role, scope.frame.bindings, scope.frame.body⟩,
      scope.outer⟩
  have harguments : arguments.map (Expr.replaceScopes change) =
      arguments.map (Expr.replaceScopes id) := by
    refine List.map_congr_left fun argument hm => argument.replaceScopes_congr fun scope hs => ?_
    have hall : scope ∈ scopesAll arguments := mem_scopesAll.2 ⟨argument, hm, hs⟩
    simp only [change, if_pos hall, id]
  have hresult : (code method arguments).replaceScopes change =
      (code method arguments).replaceScopes id := by
    rw [← h, ← h, harguments]
  have hscopes := congrArg Expr.scopes hresult
  rw [Expr.scopes_replaceScopes, Expr.scopes_replaceScopes] at hscopes
  have hfixed : change inner = id inner := List.map_inj_left.1 hscopes inner hinner
  by_cases hin : inner ∈ scopesAll arguments
  · exact hin
  · have hnumber := congrArg Scope.number hfixed
    simp only [change, if_neg hin, Scope.number, id] at hnumber
    omega

theorem Code.Uniform.renumber {code : Code ν} (h : code.Uniform) (method : Native ν)
    (arguments : List (Expr ν)) (number : Nat → Nat) :
    code method (arguments.map (Expr.renumber number)) =
      (code method arguments).renumber number := by
  have harguments : arguments.map (Expr.renumber number) =
      arguments.map (Expr.replaceScopes (Scope.renumber number)) :=
    List.map_congr_left fun argument _ => argument.renumber_eq number
  rw [harguments, h, Expr.renumber_eq]

namespace CallByName

def Entry.renumber (number : Nat → Nat) (entry : Entry ν) : Entry ν :=
  ⟨number entry.owner, entry.name, entry.result.forget⟩

def renumberBound (number : Nat → Nat) (entries : List (String × Expr ν)) :
    List (String × Expr ν) :=
  entries.map fun entry => (entry.1, entry.2.renumber number)

def Demand.renumber (number : Nat → Nat) : Demand ν → Demand ν
  | .reduce expr scope => .reduce (expr.renumber number) (scope.renumber number)
  | .evaluate expr scope => .evaluate (expr.renumber number) (scope.renumber number)
  | .evaluateAll exprs scope =>
      .evaluateAll (exprs.map (Expr.renumber number)) (scope.renumber number)
  | .name position scope => .name (position.renumber number) (scope.renumber number)
  | .bind bindings scope =>
      .bind (bindings.map (Lambda.Binding.renumber number)) (scope.renumber number)

def Result.renumber (number : Nat → Nat) : Result ν → Result ν
  | .failed failure => .failed failure
  | .head it => .head (it.renumber number)
  | .next expr scope => .next (expr.renumber number) (scope.renumber number)
  | .heads exprs => .heads (exprs.map (Expr.renumber number))
  | .name text => .name text
  | .bound entries => .bound (renumberBound number entries)

theorem entries_renumber (number : Nat → Nat) (owner : Scope ν) (name : String)
    (result : Result ν) :
    entries (owner.renumber number) name (result.renumber number) =
      (entries owner name result).map (Entry.renumber number) := by
  cases result with
  | head head =>
    cases head with
    | terminal result =>
      simp only [Result.renumber, Head.renumber, entries, List.map_cons, List.map_nil,
        Entry.renumber, Scope.renumber_number]
    | closure scope => rfl
  | failed failure => rfl
  | next expr scope => rfl
  | heads heads => rfl
  | name name => rfl
  | bound entries => rfl

theorem ofList_renumberBound (number : Nat → Nat) (entries : List (String × Expr ν)) :
    Table.ofList (renumberBound number entries) =
      (Table.ofList entries).map (Expr.renumber number) := by
  have hfold : ∀ table : Table (Expr ν),
      (renumberBound number entries).foldl (fun table entry => table.insert entry.1 entry.2)
          (table.map (Expr.renumber number)) =
        (entries.foldl (fun table entry => table.insert entry.1 entry.2) table).map
          (Expr.renumber number) := by
    induction entries with
    | nil =>
      intro table
      rfl
    | cons entry rest ih =>
      intro table
      simp only [renumberBound, List.map_cons, List.foldl_cons]
      rw [← Table.insert_map]
      exact ih _
  exact hfold .empty

theorem calledFrame_renumber {number : Nat → Nat} (hnumber : number 0 = 0) (closure : Scope ν)
    (arguments : List (Expr ν)) (calling : Scope ν) :
    (calledFrame closure arguments calling).renumber number =
      calledFrame (closure.renumber number) (arguments.map (Expr.renumber number))
        (calling.renumber number) := by
  unfold calledFrame
  rw [Scope.renumber_call, hnumber, List.map_map, List.map_map]
  congr 1
  refine List.map_congr_left fun argument _ => ?_
  simp only [Function.comp, Expr.renumber]
  rw [Scope.renumber_thunk, hnumber]

/-- The rules of call by name do not tell the numbers of frames apart. -/
theorem Derives.renumber {code : Code ν} (huniform : code.Uniform) {number : Nat → Nat}
    (hnumber : number 0 = 0) {demand : Demand ν} {result : Result ν} {trace : Trace ν}
    (h : Derives code demand result trace) :
    Derives code (demand.renumber number) (result.renumber number)
      (trace.map (Entry.renumber number)) := by
  induction h with
  | value it scope => exact .value it.forget _
  | native method scope => exact .native method _
  | failure failure scope => exact .failure failure _
  | @closure inner scope hkind =>
    exact .closure _ ((inner.renumber_kind number).trans hkind)
  | @thunk inner parent scope hkind hparent =>
    have hparent' : (inner.renumber number).parent? = some (parent.renumber number) := by
      rw [Scope.renumber_parent?, hparent]
      rfl
    have hkind' := (inner.renumber_kind number).trans hkind
    show Derives code (.reduce (.scope _) _) (.next (inner.body.renumber number) _) _
    rw [← Scope.renumber_body]
    exact .thunk _ hkind' hparent'
  | @call inner scope hkind =>
    have hkind' := (inner.renumber_kind number).trans hkind
    show Derives code (.reduce (.scope _) _) (.next (inner.body.renumber number) _) _
    rw [← Scope.renumber_body]
    exact .call _ hkind'
  | @root inner scope hkind => exact .root _ ((inner.renumber_kind number).trans hkind)
  | @malformed items shape scope hparts =>
    refine .malformed _ ?_
    rw [Lambda.parts_renumber, hparts]
    rfl
  | lambdaFails hparts _ ih => exact .lambdaFails (Lambda.parts_renumber_ok hparts number) ih
  | @lambda items bindings body scope bound trace hparts _ ih =>
    have hlambda := Derives.lambda (Lambda.parts_renumber_ok hparts number) ih
    rw [ofList_renumberBound] at hlambda
    show Derives code _ (.head (.closure (Scope.renumber number _))) _
    rw [Scope.renumber_closure, hnumber]
    exact hlambda
  | operatorFails arguments _ ih => exact .operatorFails _ ih
  | plainValue arguments _ ih => exact .plainValue _ ih
  | @argumentFails operator arguments scope head failure trace more _ hhead _ ihoperator
      iharguments =>
    rw [List.map_append]
    show Derives code (.reduce (.application _ (renumberAll number arguments)) _) _ _
    rw [renumberAll_eq_map]
    refine .argumentFails ihoperator ?_ iharguments
    rcases head with (_ | _) | _
    · exact hhead
    · exact hhead
    · exact hhead
  | @nativeCall operator arguments heads scope method trace more _ _ ihoperator iharguments =>
    rw [List.map_append]
    show Derives code (.reduce (.application _ (renumberAll number arguments)) _)
      (.next ((code method heads).renumber number) _) _
    rw [renumberAll_eq_map, ← huniform.renumber]
    exact .nativeCall ihoperator iharguments
  | @closureCall operator arguments heads scope closure trace more _ _ ihoperator iharguments =>
    rw [List.map_append]
    show Derives code (.reduce (.application _ (renumberAll number arguments)) _)
      (.next (closure.body.renumber number) ((calledFrame closure heads scope).renumber number)) _
    rw [renumberAll_eq_map, calledFrame_renumber hnumber, ← Scope.renumber_body]
    exact .closureCall ihoperator iharguments
  | missing hfind => exact .missing (Scope.find_renumber_error number _ hfind)
  | @identifier name scope owner bound result trace hfind _ ih =>
    rw [List.map_append, ← entries_renumber]
    exact .identifier (Scope.find_renumber_ok number scope hfind) ih
  | fails _ ih => exact .fails ih
  | head _ ih => exact .head ih
  | next _ _ ihreduce ihnext =>
    rw [List.map_append]
    exact .next ihreduce ihnext
  | noArgument scope => exact .noArgument _
  | firstFails rest _ ih => exact .firstFails _ ih
  | laterFails _ _ ihargument ihrest =>
    rw [List.map_append]
    exact .laterFails ihargument ihrest
  | @arguments argument rest heads scope head trace more _ _ ihargument ihrest =>
    rw [List.map_append]
    show Derives code _ (.heads (head.toExpr.renumber number :: heads.map _)) _
    rw [← Head.toExpr_renumber]
    exact .arguments ihargument ihrest
  | ownName scope hname => exact .ownName _ hname
  | positional scope hname => exact .positional _ hname
  | nameFails _ ih => exact .nameFails ih
  | @name position scope head name trace _ hname ih =>
    exact .name ih ((head.name?_renumber number).trans hname)
  | @noName position scope head trace _ hname ih =>
    have hnone := Derives.noName ih ((head.name?_renumber number).trans hname)
    rwa [Head.display_renumber] at hnone
  | nextName _ _ ihreduce ihnext =>
    rw [List.map_append]
    exact .nextName ihreduce ihnext
  | noBinding scope => exact .noBinding _
  | bindingFails bound rest _ ih => exact .bindingFails _ _ ih
  | laterBindingFails bound _ _ ihname ihrest =>
    rw [List.map_append]
    exact .laterBindingFails _ ihname ihrest
  | binding bound _ _ ihname ihrest =>
    rw [List.map_append]
    exact .binding _ ihname ihrest

end CallByName
end CallByNeed
