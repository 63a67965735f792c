import CallByNeed.Proofs.Records.Meets
import CallByNeed.Proofs.Worlds.Reach

/-! # The reducer meets call by name

One statement for each function of the reducer: the run meets the goal that the rules of call by
name set for it. A step of an expression that is no identifier is a reduction of call by name
(`Engine.stepBody_meets`). Identifiers are read from records or resolved and recorded
(`Engine.identifier_meets`); this is the only place where records are written.
-/

namespace CallByNeed
set_option autoImplicit false

open CallByName

variable {ν σ α β : Type}

/-! ## Making frames -/

namespace World

/-- A world with more frames but the same records. -/
structure Furnished (before after : World ν σ) : Prop where
  grows : before.Grows after
  consistent : before.Consistent → after.Consistent
  records : ∀ place name, after.recordAt place name = before.recordAt place name

theorem Furnished.sound {code : Code ν} {before after : World ν σ} (h : before.Furnished after)
    (hsound : before.Sound code) : after.Sound code :=
  hsound.grows (h.consistent hsound.consistent) h.grows h.records

theorem Makes.furnished {before after : World ν σ}
    (h : Relation.ReflTransGen Makes before after) : before.Furnished after := by
  induction h with
  | refl => exact ⟨.refl _, id, fun _ _ => rfl⟩
  | tail _ hmakes ih =>
    refine ⟨ih.grows.trans hmakes.grows, fun h => hmakes.consistent (ih.consistent h), ?_⟩
    intro place name
    rw [hmakes.records, ih.records]

/-- New thunks have the number 0 under a numbering that gives it to all new frames. -/
theorem newThunks_renumber {number : Nat → Nat} (calling : Scope ν) (exprs : List (Expr ν))
    (world : World ν σ) (hnumber : ∀ place, world.size ≤ place → number place = 0) :
    (world.newThunks calling exprs).1.map (Expr.renumber number) =
      (exprs.map (Expr.renumber number)).map fun expr =>
        .scope (.thunk 0 expr (calling.renumber number)) := by
  induction exprs generalizing world with
  | nil => rfl
  | cons expr rest ih =>
    have hgrows : world.Grows (world.newThunk expr calling).2 := grows_newScope world _
    have hrest := ih (world.newThunk expr calling).2
      fun place hplace => hnumber place (Nat.le_trans hgrows.size hplace)
    show Expr.scope (Scope.renumber number (.thunk world.size expr calling)) ::
      (World.newThunks calling rest (world.newThunk expr calling).2).1.map _ = _
    rw [Scope.renumber_thunk, hnumber world.size (Nat.le_refl _), hrest]
    rfl

theorem newCall_renumber {number : Nat → Nat} (closure : Scope ν) (arguments : List (Expr ν))
    (calling : Scope ν) (world : World ν σ)
    (hnumber : ∀ place, world.size ≤ place → number place = 0) :
    (world.newCall closure arguments calling).1.renumber number =
      calledFrame (closure.renumber number) (arguments.map (Expr.renumber number))
        (calling.renumber number) := by
  have hgrows := grows_newThunks calling arguments world
  show Scope.renumber number (.call (World.newThunks calling arguments world).2.size closure
    (World.newThunks calling arguments world).1) = _
  rw [Scope.renumber_call, newThunks_renumber calling arguments world hnumber,
    hnumber _ hgrows.size]
  rfl

end World

namespace Run

variable {code : Code ν} {goal : Goal ν β} {scopes : β → List (Scope ν)}
  {needs : List (Scope ν)}

/-- A change that furnishes worlds, followed by a run that meets the goal where what the change says
about its result is known. -/
theorem meets_withWorld_bind {change : World ν σ → α × World ν σ}
    (known : (Nat → Nat) → α → Prop) (between : α → List (Scope ν)) {next : α → Run ν σ β}
    (h : ∀ world, world.Consistent → world.StoresAll needs →
      world.Furnished (change world).2 ∧ (change world).2.StoresAll (between (change world).1) ∧
        ∀ number : Nat → Nat, (∀ place, world.size ≤ place → number place = 0) →
          known number (change world).1)
    (hn : ∀ result, Meets code (goal.given fun number => known number result) scopes
      (between result ++ needs) (next result)) :
    Meets code goal scopes needs (withWorld change >>= next) := by
  intro machine hsound hstored
  obtain ⟨hfurnished, hresult, hknown⟩ := h machine.world hsound.consistent hstored
  rw [bind_apply, withWorld_apply]
  have hlater := hn (change machine.world).1 ⟨machine.steps, (change machine.world).2⟩
    (hfurnished.sound hsound) (hresult.append (hstored.grows hfurnished.grows))
  refine ⟨hfurnished.grows.trans hlater.grows, hlater.sound, hlater.stored, ?_⟩
  intro answer hanswer number hnumber
  obtain ⟨trace, hmet, haccounts⟩ := hlater.goal hanswer number
    fun place hplace => hnumber place (Nat.le_trans hfurnished.grows.size hplace)
  have hrecords : World.Accounts number machine.world (change machine.world).2 [] :=
    .nil hfurnished.records
  exact ⟨trace, hmet (hknown number hnumber), hrecords.append haccounts hlater.grows⟩

/-- A new closure frame has the number 0 under a numbering that gives it to all new frames. -/
theorem meets_newClosure {table : Table (Expr ν)} {body : Expr ν} {scope : Scope ν}
    {goal : Goal ν (Scope ν)}
    (hgoal : ∀ (number : Nat → Nat) place, number place = 0 →
      goal number (.ok (.closure place table body scope)) [])
    (hneeds : ∀ inner ∈ scope :: (table.scopes ++ body.scopes), inner ∈ needs) :
    Meets code goal (fun frame => [frame]) needs
      (withWorld (World.newClosure table body scope) : Run ν σ (Scope ν)) := by
  rw [← bind_pure (withWorld (World.newClosure table body scope) : Run ν σ (Scope ν))]
  refine meets_withWorld_bind (fun number frame => ∃ place, number place = 0 ∧
    frame = .closure place table body scope) (fun frame => [frame]) ?_ fun frame => ?_
  · intro world hconsistent hstored
    have hall := hstored.subset hneeds
    refine ⟨⟨World.grows_newScope world _, fun _ => ?_, ?_⟩, ?_, ?_⟩
    · exact hconsistent.newClosure hall.tail.left hall.tail.right hall.head
    · exact World.recordAt_newScope world _
    · exact .cons (World.stores_newScope world _ rfl) .nil
    · exact fun number hnumber => ⟨world.size, hnumber _ (Nat.le_refl _), rfl⟩
  · refine meets_pure ?_ fun inner hm => List.mem_append_left _ hm
    rintro number ⟨place, hplace, rfl⟩
    exact hgoal number place hplace

/-- The frame of a call is the one of call by name. -/
theorem call_bind_meets {closure scope : Scope ν} {arguments : List (Expr ν)}
    {next : Scope ν → Run ν σ β}
    (hneeds : ∀ inner ∈ closure :: scope :: scopesAll arguments, inner ∈ needs)
    (hn : ∀ frame, Meets code
      (goal.given fun number => Scope.renumber number frame =
        calledFrame (closure.renumber number) (arguments.map (Expr.renumber number))
          (scope.renumber number)) scopes (frame :: needs) (next frame)) :
    Meets code goal scopes needs (Run.call closure arguments scope >>= next) := by
  rw [Run.call, bind_assoc]
  refine meets_withWorld_bind (fun number frame => Scope.renumber number frame =
    calledFrame (closure.renumber number) (arguments.map (Expr.renumber number))
      (scope.renumber number)) (fun frame => [frame]) ?_ fun frame => ?_
  · intro world hconsistent hstored
    have hall := hstored.subset hneeds
    obtain ⟨hafter, hframe⟩ := hconsistent.newCall hall.head hall.tail.tail hall.tail.head
    refine ⟨⟨World.grows_newCall _ _ _ _, fun _ => hafter, ?_⟩, .cons hframe .nil, ?_⟩
    · exact World.newCall_records closure arguments scope world
    · exact fun number hnumber =>
        World.newCall_renumber closure arguments scope world hnumber
  · rw [bind_assoc]
    exact Meets.quiet_bind (quiet_emit _) fun _ => hn frame

end Run

namespace Engine

/-- A native gives what call by name takes it to give. -/
theorem callNative_bind_meets {code : Code ν} {engine : Engine ν σ}
    (hnatives : engine.invoke.Computes code) {method : Native ν} {arguments : List (Expr ν)}
    {scope : Scope ν} {goal : Goal ν β} {scopes : β → List (Scope ν)} {needs : List (Scope ν)}
    {next : Expr ν → Run ν σ β}
    (hneeds : ∀ inner ∈ scope :: scopesAll arguments, inner ∈ needs)
    (hn : ∀ result, Run.Meets code
      (goal.given fun number => Expr.renumber number result =
        code method (arguments.map (Expr.renumber number))) scopes (result.scopes ++ needs)
      (next result)) :
    Run.Meets code goal scopes needs (engine.callNative method arguments scope >>= next) := by
  rw [callNative, bind_assoc]
  refine Run.Meets.quiet_bind (Run.quiet_emit _) fun _ => ?_
  rw [bind_assoc]
  refine Run.meets_withWorld_bind (fun number result => Expr.renumber number result =
    code method (arguments.map (Expr.renumber number))) Expr.scopes ?_ fun result => ?_
  · intro world hconsistent hstored
    have hall := hstored.subset hneeds
    have hfurnished := World.Makes.furnished
      (hnatives.effects method arguments scope world hconsistent hall.tail hall.head)
    refine ⟨hfurnished, ?_, ?_⟩
    · have hscopes : ∀ inner ∈ (engine.invoke method arguments scope world).1.scopes,
          inner ∈ scopesAll arguments :=
        hnatives.scopes hconsistent hall.tail hall.head
      exact (hall.tail.subset hscopes).grows hfurnished.grows
    · exact fun number _ => hnatives.renumber hconsistent hall.tail hall.head number
  · rw [bind_assoc]
    exact Run.Meets.quiet_bind (Run.quiet_emit _) fun _ => hn result

end Engine

/-! ## Arguments and lambdas -/

/-- The resolutions one level deeper meet call by name. -/
structure Nested.Meets (code : Code ν) (nested : Nested ν σ) : Prop where
  resolve : ∀ expr scope, Run.Meets code (.derives code (.evaluate expr scope) .head)
    Head.scopes (scope :: expr.scopes) (nested.resolve expr scope)
  bindingName : ∀ position scope, Run.Meets code (.derives code (.name position scope) .name)
    (fun _ => []) (scope :: position.scopes) (nested.bindingName position scope)

namespace Nested.Meets

variable {code : Code ν} {nested : Nested ν σ} (h : Nested.Meets code nested)
include h

theorem resolveAll (scope : Scope ν) (arguments : List (Expr ν)) :
    Run.Meets code (.derives code (.evaluateAll arguments scope) .heads) scopesAll
      (scope :: scopesAll arguments) (nested.resolveAll scope arguments) := by
  induction arguments with
  | nil =>
    exact Run.meets_pure (fun number => .noArgument _) fun inner hm => absurd hm List.not_mem_nil
  | cons argument rest ih =>
    rw [Nested.resolveAll_cons]
    have hfirst := (h.resolve argument scope).weaken (fun _ _ _ => id)
      (show ∀ inner ∈ scope :: argument.scopes, inner ∈ scope :: scopesAll (argument :: rest) by
        grind [scopesAll])
    refine hfirst.bind (fun head => ?_) fun number failure trace hfails => .firstFails _ hfails
    have hrest := ih.weaken (fun _ _ _ => id)
      (show ∀ inner ∈ scope :: scopesAll rest,
        inner ∈ head.scopes ++ scope :: scopesAll (argument :: rest) by grind [scopesAll])
    refine hrest.bind (fun heads => ?_) ?_
    · refine Run.meets_pure ?_ ?_
      · intro number more hheads trace hhead
        have hall := Derives.arguments hhead hheads
        rw [Head.toExpr_renumber] at hall
        rw [List.append_nil]
        exact hall
      · intro inner hm
        rw [scopesAll, Head.scopes_toExpr] at hm
        grind
    · intro number failure more hfails trace hhead
      exact .laterFails hhead hfails

/-- What the names of bindings and what they bind come to, entered into a table. -/
def bindsGoal (code : Code ν) (bindings : List (Lambda.Binding ν)) (scope : Scope ν)
    (table : Table (Expr ν)) : Goal ν (Table (Expr ν)) :=
  fun number answer trace =>
    match answer with
    | .error failure =>
        Derives code ((Demand.bind bindings scope).renumber number) (.failed failure) trace
    | .ok result => ∃ entries,
        result = entries.foldl (fun table entry => table.insert entry.1 entry.2) table ∧
        Derives code ((Demand.bind bindings scope).renumber number)
          (.bound (renumberBound number entries)) trace

theorem bindAll (scope : Scope ν) (bindings : List (Lambda.Binding ν)) (table : Table (Expr ν)) :
    Run.Meets code (bindsGoal code bindings scope table) Table.scopes
      (scope :: (Lambda.bindingScopes bindings ++ table.scopes))
      (nested.bindAll scope bindings table) := by
  induction bindings generalizing table with
  | nil =>
    refine Run.meets_pure (fun number => ⟨[], rfl, .noBinding _⟩) ?_
    grind
  | cons binding rest ih =>
    obtain ⟨position, bound⟩ := binding
    rw [Nested.bindAll_cons]
    have hname := (h.bindingName position scope).weaken (fun _ _ _ => id)
      (show ∀ inner ∈ scope :: position.scopes, inner ∈ scope ::
          (Lambda.bindingScopes ((position, bound) :: rest) ++ table.scopes) by
        grind [Lambda.bindingScopes])
    refine hname.bind (fun name => ?_) fun number failure trace hfails =>
      .bindingFails _ _ hfails
    refine Run.Meets.quiet_bind (Run.quiet_reportRebound name table) fun _ => ?_
    refine (ih (table.insert name bound)).weaken ?_ ?_
    · intro number answer more hmet trace hposition
      cases answer with
      | error failure => exact .laterBindingFails _ hposition hmet
      | ok result =>
        obtain ⟨entries, hresult, hentries⟩ := hmet
        exact ⟨(name, bound) :: entries, hresult, .binding _ hposition hentries⟩
    · intro inner hm
      have hinsert : inner ∈ (table.insert name bound).scopes →
          inner ∈ bound.scopes ∨ inner ∈ table.scopes := Table.scopes_insert
      grind [Lambda.bindingScopes]

theorem close (items : List (Item ν)) (scope : Scope ν) :
    Run.Meets code (.derives code (.reduce (.lambda items) scope) fun frame =>
        .head (.closure frame))
      (fun frame => [frame]) (scope :: scopesItems items) (nested.close items scope) := by
  rw [Nested.close]
  cases hparts : Lambda.parts items with
  | error shape =>
    refine Run.meets_fail fun number => .malformed _ ?_
    rw [Lambda.parts_renumber, hparts]
    rfl
  | ok parts =>
    obtain ⟨bindings, body⟩ := parts
    have hscopes := Lambda.parts_scopes hparts
    have hparts' := Lambda.parts_renumber_ok hparts
    have hbind := (h.bindAll scope bindings .empty).weaken (fun _ _ _ => id)
      (show ∀ inner ∈ scope :: (Lambda.bindingScopes bindings ++ Table.empty.scopes),
          inner ∈ scope :: scopesItems items by
        simp only [show (Table.empty : Table (Expr ν)).scopes = [] from rfl]
        grind)
    refine hbind.bind (fun table => ?_) fun number failure trace hfails =>
      .lambdaFails (hparts' number) hfails
    refine Run.Meets.quiet_bind (Run.quiet_emit _) fun _ => Run.meets_newClosure ?_ ?_
    · intro number place hplace trace hmet
      obtain ⟨entries, rfl, hentries⟩ := hmet
      have hlambda := Derives.lambda (hparts' number) hentries
      rw [ofList_renumberBound] at hlambda
      show Derives code _ (.head (.closure (Scope.renumber number _))) _
      rw [Scope.renumber_closure, hplace, List.append_nil]
      exact hlambda
    · grind

end Nested.Meets

/-! ## Steps -/

namespace Outcome

/-- The outcome of a step as a result of call by name. An identifier that is to be resolved is no
reduct, so it becomes something that no reduction gives. -/
def toResult : Outcome ν → Result ν
  | .finished head => .head head
  | .further expr scope => .next expr scope
  | .binding name _ _ => .name name

end Outcome

namespace Engine

variable {code : Code ν} {engine : Engine ν σ} {nested : Nested ν σ}

section Application

variable (hnatives : engine.invoke.Computes code) (h : Nested.Meets code nested)
include hnatives h

theorem stepApplication_meets (operator : Expr ν) (arguments : List (Expr ν)) (scope : Scope ν) :
    Run.Meets code (.derives code (.reduce (.application operator arguments) scope)
        Outcome.toResult)
      Outcome.scopes (scope :: (operator.scopes ++ scopesAll arguments))
      (engine.stepApplication nested operator arguments scope) := by
  have hreduce : ∀ (number : Nat → Nat) result trace,
      Derives code (.reduce (.application (operator.renumber number)
        (arguments.map (Expr.renumber number))) (scope.renumber number)) result trace →
      Derives code ((Demand.reduce (.application operator arguments) scope).renumber number)
        result trace := by
    intro number result trace hderives
    rw [← renumberAll_eq_map] at hderives
    exact hderives
  have hoperator := (h.resolve operator scope).weaken (fun _ _ _ => id)
    (show ∀ inner ∈ scope :: operator.scopes,
      inner ∈ scope :: (operator.scopes ++ scopesAll arguments) by grind)
  rw [stepApplication]
  refine hoperator.bind (fun head => ?_) fun number failure trace hfails =>
    hreduce number _ _ (.operatorFails _ hfails)
  have harguments := (h.resolveAll scope arguments).weaken (fun _ _ _ => id)
    (show ∀ inner ∈ scope :: scopesAll arguments,
      inner ∈ head.scopes ++ scope :: (operator.scopes ++ scopesAll arguments) by grind)
  rcases head with (value | method) | closure
  · refine Run.Meets.quiet_bind (Run.quiet_emit _) fun _ => Run.meets_pure ?_ ?_
    · intro number trace hvalue
      rw [List.append_nil]
      exact hreduce number _ _ (.plainValue _ hvalue)
    · exact fun inner hm => absurd hm List.not_mem_nil
  · refine harguments.bind (fun heads => ?_) fun number failure more hfails trace hmethod =>
      hreduce number _ _ (.argumentFails hmethod rfl hfails)
    refine callNative_bind_meets hnatives (by grind) fun result => Run.meets_pure ?_ ?_
    · intro number hresult more hheads trace hmethod
      show Derives code _ (.next (Expr.renumber number _) _) _
      rw [hresult, List.append_nil]
      exact hreduce number _ _ (.nativeCall hmethod hheads)
    · grind [Outcome.scopes]
  · refine harguments.bind (fun heads => ?_) fun number failure more hfails trace hclosure =>
      hreduce number _ _ (.argumentFails hclosure rfl hfails)
    refine Run.call_bind_meets (by grind [Head.scopes]) fun frame => ?_
    refine Run.meets_pure_of_stored fun world hconsistent hstored => ⟨?_, ?_⟩
    · intro number hframe more hheads trace hclosure
      have hbody : frame.body.renumber number = (closure.renumber number).body := by
        rw [← Scope.renumber_body, hframe]
        rfl
      show Derives code _ (.next (frame.body.renumber number) (frame.renumber number)) _
      rw [hbody, hframe, List.append_nil]
      exact hreduce number _ _ (.closureCall hclosure hheads)
    · exact .cons hstored.head (hstored.head.body hconsistent)

/-- A step of an expression that is no identifier is a reduction. -/
theorem stepBody_meets (expr : Expr ν) (hexpr : expr.identifier? = none) (scope : Scope ν) :
    Run.Meets code (.derives code (.reduce expr scope) Outcome.toResult) Outcome.scopes
      (scope :: expr.scopes) (engine.stepBody nested expr scope) := by
  unfold stepBody
  refine Run.Meets.quiet_bind (Run.quiet_emit _) fun _ => ?_
  cases expr with
  | value it =>
    exact Run.meets_pure (fun number => .value it.forget _) fun inner hm =>
      absurd hm List.not_mem_nil
  | native method =>
    exact Run.meets_pure (fun number => .native method _) fun inner hm => absurd hm List.not_mem_nil
  | failure failure => exact Run.meets_fail fun number => .failure failure _
  | identifier name => cases hexpr
  | lambda items =>
    have hclose := h.close items scope
    refine hclose.bind (fun frame => Run.meets_pure ?_ ?_) fun number failure trace hfails => hfails
    · intro number trace hlambda
      rw [List.append_nil]
      exact hlambda
    · exact fun inner hm => List.mem_append_left _ hm
  | scope inner =>
    refine Run.meets_pure_of_stored fun world hconsistent hstored => ?_
    have hinner : world.Stores inner := hstored.tail.head
    have hsupports := hconsistent.supports hinner
    have hkind : ∀ number kind, inner.kind = kind → (inner.renumber number).kind = kind :=
      fun number kind h => (inner.renumber_kind number).trans h
    have hbody : ∀ number, (inner.body).renumber number = (inner.renumber number).body :=
      fun number => (inner.renumber_body number).symm
    unfold Scope.enter
    cases hcase : inner.kind with
    | closure =>
      exact ⟨fun number => .closure _ (hkind number _ hcase), .cons hinner .nil⟩
    | thunk =>
      obtain ⟨-, outer, houter⟩ := hsupports.thunk hcase
      rw [houter]
      refine ⟨fun number => ?_, .cons (hsupports.parent houter).1 (hinner.body hconsistent)⟩
      have houter' : (inner.renumber number).parent? = some (outer.renumber number) := by
        rw [Scope.renumber_parent?, houter]
        rfl
      show Derives code (.reduce (.scope _) _) (.next (inner.body.renumber number) _) _
      rw [hbody]
      exact .thunk _ (hkind number _ hcase) houter'
    | call =>
      refine ⟨fun number => ?_, .cons hinner (hinner.body hconsistent)⟩
      show Derives code (.reduce (.scope _) _) (.next (inner.body.renumber number) _) _
      rw [hbody]
      exact .call _ (hkind number _ hcase)
    | root =>
      have hmisuse := hsupports.root hcase
      refine ⟨fun number => ?_, .cons hinner (hinner.body hconsistent)⟩
      show Derives code (.reduce (.scope _) _) (.next (inner.body.renumber number) _) _
      rw [hmisuse]
      exact .root _ (hkind number _ hcase)
  | application operator arguments =>
    exact stepApplication_meets hnatives h operator arguments scope

end Application

end Engine
end CallByNeed
