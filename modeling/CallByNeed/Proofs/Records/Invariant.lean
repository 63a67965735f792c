import CallByNeed.Proofs.CallByName.PlainNatives
import CallByNeed.Proofs.Records.Evaluations

/-! # What records say

In every world of a session, whatever was evaluated there and however it ended, a record of a frame
says what the frame's own expression for the identifier evaluates to by call by name
(`World.Reachable.record_invariant`).
-/

namespace CallByNeed
set_option autoImplicit false

open CallByName

variable {ν σ : Type} {code : Code ν}

/-- What an expression evaluates to in a scope, by call by name. The frames of a world keep their
numbers, counted from 1, and the frames that the derivation makes have the number 0. -/
def EvaluatesTo (code : Code ν) (expr : Expr ν) (scope : Scope ν) (result : Result ν) : Prop :=
  ∃ trace, Derives code (.evaluate (expr.renumber Nat.succ) (scope.renumber Nat.succ)) result trace

theorem EvaluatesTo.unique {expr : Expr ν} {scope : Scope ν} {first second : Result ν}
    (h : EvaluatesTo code expr scope first) (h' : EvaluatesTo code expr scope second) :
    first = second := by
  obtain ⟨trace, hfirst⟩ := h
  obtain ⟨more, hsecond⟩ := h'
  exact (hfirst.deterministic hsecond).1

/-- A positional identifier of a frame is found in the frame itself only if it has arguments. -/
theorem World.Stores.arguments_of_find {world : World ν σ} (hconsistent : world.Consistent)
    {owner : Scope ν} {name : String} {bound : Expr ν} (howner : world.Stores owner)
    (hfind : owner.find name = .ok (bound, owner)) (hname : (positional? name).isSome) :
    owner.arguments?.isSome := by
  obtain ⟨frame, outer⟩ := owner
  unfold Scope.find at hfind
  cases hindex : positional? name with
  | none => simp [hindex] at hname
  | some index =>
    simp only [hindex] at hfind
    obtain ⟨-, arguments, harguments, -⟩ :=
      World.findArgument_stored hconsistent outer frame howner hfind
    rw [harguments]
    rfl

/-- No identifier is found in a thunk frame itself. -/
theorem World.Stores.kind_ne_thunk {world : World ν σ} (hconsistent : world.Consistent)
    {owner : Scope ν} {name : String} {bound : Expr ν} (howner : world.Stores owner)
    (hfind : owner.find name = .ok (bound, owner)) : owner.kind ≠ .thunk := by
  intro hkind
  obtain ⟨hempty, -⟩ := (hconsistent.supports howner).thunk hkind
  cases hindex : positional? name with
  | some index =>
    have harguments := howner.arguments_of_find hconsistent hfind (by rw [hindex]; rfl)
    obtain ⟨⟨number, role, bindings, body⟩, outer⟩ := owner
    cases role with
    | call arguments => cases hkind
    | _ => cases harguments
  | none =>
    obtain ⟨frame, outer⟩ := owner
    unfold Scope.find at hfind
    simp only [hindex] at hfind
    obtain ⟨-, hbound⟩ := World.findBinding_stored hconsistent outer frame howner hfind
    rw [hempty] at hbound
    cases hbound

/-- A frame's record of an identifier that the frame owns says what the frame's expression for it
evaluates to. Thunk frames have no records, and only frames with arguments have records for
positional identifiers. An identifier that comes to no value and no native method has no record. -/
theorem World.Reachable.record_invariant {invoke : Invoke ν σ} {world : World ν σ}
    (hnatives : invoke.Computes code) (h : World.Reachable invoke world) {number : Nat}
    {cell : Cell ν} (hcell : world.cells[number]? = some cell) :
    (∀ name result, cell.records.find? name = some result →
      (∃ bound, cell.scope.find name = .ok (bound, cell.scope) ∧
        EvaluatesTo code bound cell.scope (.head (.terminal result.forget))) ∧
      ((∃ it, result.toExpr = .value it) ∨ ∃ method, result.toExpr = .native method) ∧
      cell.scope.kind ≠ .thunk ∧
      ((positional? name).isSome → cell.scope.arguments?.isSome)) ∧
    ∀ name bound, cell.scope.find name = .ok (bound, cell.scope) →
      (∀ result, ¬EvaluatesTo code bound cell.scope (.head (.terminal result))) →
      cell.records.find? name = none := by
  have hsound := h.sound hnatives
  have hscope : world.scopeAt number = some cell.scope := by
    rw [World.scopeAt, hcell]
    rfl
  have hstored : world.Stores cell.scope := by
    rw [World.Stores, hsound.consistent.number hscope]
    exact hscope
  have hrecords : ∀ {name result}, cell.records.find? name = some result →
      ∃ bound, cell.scope.find name = .ok (bound, cell.scope) ∧
        EvaluatesTo code bound cell.scope (.head (.terminal result.forget)) := by
    intro name result hrecord
    have hat : world.recordAt number name = some result := by
      rw [World.recordAt, hcell]
      exact hrecord
    obtain ⟨owner, bound, trace, hrecorded⟩ := hsound.records hat
    have howner : owner = cell.scope := Option.some.inj (hrecorded.stored.symm.trans hscope)
    subst howner
    exact ⟨bound, hrecorded.find, trace, hrecorded.derives⟩
  constructor
  · intro name result hrecord
    obtain ⟨bound, hfind, hevaluates⟩ := hrecords hrecord
    refine ⟨⟨bound, hfind, hevaluates⟩, ?_, hstored.kind_ne_thunk hsound.consistent hfind,
      hstored.arguments_of_find hsound.consistent hfind⟩
    cases result with
    | value it => exact .inl ⟨it, rfl⟩
    | native method => exact .inr ⟨method, rfl⟩
  · intro name bound hfind hnone
    cases hrecord : cell.records.find? name with
    | none => rfl
    | some result =>
      obtain ⟨other, hother, hevaluates⟩ := hrecords hrecord
      have hpair := Except.ok.inj (hother.symm.trans hfind)
      have hbound : other = bound := congrArg Prod.fst hpair
      rw [hbound] at hevaluates
      exact absurd hevaluates (hnone result.forget)

/-- A root frame that binds a sum of two numbers and a failure. -/
def sumAndFailure : Scope StandardNative × World StandardNative HostState :=
  let number (value : Int) : Expr StandardNative := .value ⟨.supplied 0, .integer .i64 value⟩
  (World.initial .initial).newRoot (.ofList
    [("bad", .failure (.native "bad")),
      ("sum", .application (.native ⟨"add", .add⟩) [number 1, number 2])])

theorem sumAndFailure_reachable (invoke : Invoke StandardNative HostState) :
    World.Reachable invoke sumAndFailure.2 :=
  ⟨.initial, .single (.makes (.root _ fun _ hm => absurd hm List.not_mem_nil))⟩

/-- The bindings of the frame can be forced whatever has become of its world. -/
theorem sumAndFailure_proceeds (invoke : Invoke StandardNative HostState) (limits : Limits)
    (name : String) {world : World StandardNative HostState}
    (hgrows : sumAndFailure.2.Grows world) :
    World.Proceeds invoke world
      (Engine.evaluate ⟨limits, invoke⟩ (.force (.identifier name) sumAndFailure.1) world).world := by
  have hroot : sumAndFailure.2.Stores sumAndFailure.1 := rfl
  exact .evaluates limits _ (.cons (hroot.grows hgrows) .nil)

/-- Both bindings of the frame are forced. The sum is recorded, the failure is not. -/
theorem record_invariant_sum :
    let invoke := Standard.plainHost.invokeAt 1
    let force := fun name world =>
      (Engine.evaluate ⟨⟨20, 4⟩, invoke⟩ (.force (.identifier name) sumAndFailure.1) world).world
    let world := force "bad" (force "sum" sumAndFailure.2)
    ∃ cell, world.cells[0]? = some cell ∧ cell.records.find? "bad" = none ∧
      ∃ result bound, cell.records.find? "sum" = some result ∧
        cell.scope.find "sum" = .ok (bound, cell.scope) ∧
        EvaluatesTo Standard.plainCode bound cell.scope (.head (.terminal result.forget)) := by
  intro invoke force world
  have hnatives : invoke.Computes Standard.plainCode := Standard.plainHost_computes 0
  obtain ⟨host, hmade⟩ := sumAndFailure_reachable invoke
  have hsound := (hmade.sound hnatives (World.sound_initial _ _)).1
  have hsum : World.Proceeds invoke sumAndFailure.2 (force "sum" sumAndFailure.2) :=
    sumAndFailure_proceeds invoke ⟨20, 4⟩ "sum" (.refl _)
  have hbad : World.Proceeds invoke (force "sum" sumAndFailure.2) world :=
    sumAndFailure_proceeds invoke ⟨20, 4⟩ "bad" (hsum.sound hnatives hsound).2
  have hreachable : World.Reachable invoke world := ⟨host, (hmade.tail hsum).tail hbad⟩
  have hcell : (world.cells[0]?).isSome := by decide
  obtain ⟨cell, hcell⟩ := Option.isSome_iff_exists.1 hcell
  obtain ⟨hrecords, hnone⟩ := hreachable.record_invariant hnatives hcell
  have hscope : cell.scope = sumAndFailure.1 := by
    have hat : world.scopeAt 0 = some sumAndFailure.1 := rfl
    rw [World.scopeAt, hcell] at hat
    exact Option.some.inj hat
  have hrecorded : (world.recordAt 0 "sum").isSome := by decide
  rw [World.recordAt, hcell] at hrecorded
  obtain ⟨result, hresult⟩ := Option.isSome_iff_exists.1 hrecorded
  obtain ⟨⟨bound, hfind, hevaluates⟩, -⟩ := hrecords "sum" result hresult
  refine ⟨cell, hcell, ?_, result, bound, hresult, hfind, hevaluates⟩
  refine hnone "bad" (.failure (.native "bad")) (hscope ▸ rfl) fun value hvalue => ?_
  have hfails : EvaluatesTo Standard.plainCode (.failure (.native "bad")) cell.scope
      (.failed (.native "bad")) := ⟨[], .fails (.failure _ _)⟩
  cases hvalue.unique hfails

end CallByNeed
