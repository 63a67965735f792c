import CallByNeed.Proofs.Records.Sound
import CallByNeed.Proofs.Runs.Equations

/-! # Runs that meet call by name

What a run says about call by name is a goal: a relation between numberings, answers and traces. A
run meets its goal if from every sound world it leads to a sound world and, unless it hits a limit,
its answer and the records it makes are those of a derivation, under every numbering that gives 0 to
the frames the run makes.

A bind meets a goal if the rest of it meets what the first run leaves of the goal (`Goal.after`).
-/

namespace CallByNeed
set_option autoImplicit false

open CallByName

variable {ν σ α β : Type}

/-- What a run is to say about call by name. -/
abbrev Goal (ν α : Type) := (Nat → Nat) → Except Failure α → Trace ν → Prop

/-- The result or failure that ends a run, unless it hits a limit. -/
def answer? : Except Stop α → Option (Except Failure α)
  | .ok result => some (.ok result)
  | .error (.failed failure) => some (.error failure)
  | .error (.outOfSteps _) | .error (.outOfDepth _) => none

namespace Run

theorem eq_of_result {run : Run ν σ α} {machine : Machine ν σ} {value : α}
    (h : answer? (run machine).1 = some (.ok value)) :
    run machine = (.ok value, (run machine).2) := by
  rcases hrun : run machine with ⟨stop | result, after⟩
  · rw [hrun] at h
    cases stop <;> cases h
  · rw [hrun] at h
    cases h
    rfl

theorem eq_of_failure {run : Run ν σ α} {machine : Machine ν σ} {failure : Failure}
    (h : answer? (run machine).1 = some (.error failure)) :
    run machine = (.error (.failed failure), (run machine).2) := by
  rcases hrun : run machine with ⟨stop | result, after⟩
  · rw [hrun] at h
    cases stop with
    | failed other =>
      cases h
      rfl
    | outOfSteps maxSteps => cases h
    | outOfDepth maxDepth => cases h
  · rw [hrun] at h
    cases h

/-- A bind comes to an answer if its first run fails, or if the second one comes to that answer. -/
theorem answer_of_bind {run : Run ν σ α} {next : α → Run ν σ β} {machine : Machine ν σ}
    {answer : Except Failure β} (h : answer? ((run >>= next) machine).1 = some answer) :
    (∃ failure, answer = .error failure ∧ answer? (run machine).1 = some (.error failure)) ∨
      ∃ value, answer? (run machine).1 = some (.ok value) ∧
        answer? (next value (run machine).2).1 = some answer := by
  rw [bind_apply] at h
  rcases hrun : run machine with ⟨stop | value, middle⟩
  · rw [hrun] at h
    cases stop with
    | failed failure =>
      cases h
      exact .inl ⟨failure, rfl, rfl⟩
    | outOfSteps maxSteps => cases h
    | outOfDepth maxDepth => cases h
  · rw [hrun] at h
    exact .inr ⟨value, rfl, h⟩

end Run

namespace Goal

/-- The result of a demand for an answer. -/
def resultOf (result : α → Result ν) : Except Failure α → Result ν
  | .ok value => result value
  | .error failure => .failed failure

/-- The rules derive the answer for the demand. -/
def derives (code : Code ν) (demand : Demand ν) (result : α → Result ν) : Goal ν α :=
  fun number answer trace =>
    Derives code (demand.renumber number) ((resultOf result answer).renumber number) trace

/-- What remains of a goal after a run that met another goal. -/
def after (goal : Goal ν β) (first : Goal ν α) (result : α) : Goal ν β :=
  fun number answer more => ∀ trace, first number (.ok result) trace →
    goal number answer (trace ++ more)

/-- What remains of a goal that is to be met only where something is known. -/
def given (goal : Goal ν β) (known : (Nat → Nat) → Prop) : Goal ν β :=
  fun number answer trace => known number → goal number answer trace

end Goal

/-- What a run that met its goal leaves. -/
structure Reached (code : Code ν) (goal : Goal ν α) (scopes : α → List (Scope ν))
    (before : World ν σ) (outcome : Except Stop α) (after : World ν σ) : Prop where
  grows : before.Grows after
  sound : after.Sound code
  stored : ∀ {result}, outcome = .ok result → after.StoresAll (scopes result)
  goal : ∀ {answer}, answer? outcome = some answer → ∀ number : Nat → Nat,
    (∀ place, before.size ≤ place → number place = 0) →
    ∃ trace, goal number answer trace ∧ World.Accounts number before after trace

/-- From every sound world that stores these scopes, the run meets the goal. -/
def Run.Meets (code : Code ν) (goal : Goal ν α) (scopes : α → List (Scope ν))
    (needs : List (Scope ν)) (run : Run ν σ α) : Prop :=
  ∀ machine : Machine ν σ, machine.world.Sound code → machine.world.StoresAll needs →
    Reached code goal scopes machine.world (run machine).1 (run machine).2.world

/-- A run that only changes what is outside frames and records, takes no step and does not stop. -/
def Run.Quiet (run : Run ν σ α) : Prop :=
  ∀ machine : Machine ν σ, ∃ result after, run machine = (.ok result, after) ∧
    after.world.cells = machine.world.cells ∧ after.steps = machine.steps

namespace Run

variable {code : Code ν} {goal : Goal ν β} {scopes : β → List (Scope ν)}
  {needs : List (Scope ν)}

/-! ## Composition -/

theorem Meets.weaken {weaker : Goal ν β} {run : Run ν σ β} {more : List (Scope ν)}
    (h : Meets code goal scopes needs run)
    (hgoal : ∀ number answer trace, goal number answer trace → weaker number answer trace)
    (hneeds : ∀ inner ∈ needs, inner ∈ more) : Meets code weaker scopes more run := by
  intro machine hsound hstored
  have hreached := h machine hsound (hstored.subset hneeds)
  refine ⟨hreached.grows, hreached.sound, hreached.stored, ?_⟩
  intro answer hanswer number hnumber
  obtain ⟨trace, hmet, haccounts⟩ := hreached.goal hanswer number hnumber
  exact ⟨trace, hgoal number answer trace hmet, haccounts⟩

/-- What stored scopes store themselves need not be asked for. -/
theorem Meets.of_stored {run : Run ν σ β} {more : List (Scope ν)}
    (h : Meets code goal scopes more run)
    (hneeds : ∀ world : World ν σ, world.Consistent → world.StoresAll needs →
      world.StoresAll more) : Meets code goal scopes needs run :=
  fun machine hsound hstored =>
    h machine hsound (hneeds machine.world hsound.consistent hstored)

/-- A run that meets a goal and then a run that meets what is left of another one, for all results
that the first goal allows. -/
theorem Meets.bind_of_met {first : Goal ν α} {between : α → List (Scope ν)} {run : Run ν σ α}
    {next : α → Run ν σ β} (h : Meets code first between needs run)
    (hn : ∀ result, (∃ number trace, first number (.ok result) trace) →
      Meets code (goal.after first result) scopes (between result ++ needs) (next result))
    (hfails : ∀ number failure trace, first number (.error failure) trace →
      goal number (.error failure) trace) :
    Meets code goal scopes needs (run >>= next) := by
  intro machine hsound hstored
  have hreached := h machine hsound hstored
  rw [bind_apply]
  rcases hrun : run machine with ⟨stop | result, middle⟩
  · rw [hrun] at hreached
    refine ⟨hreached.grows, hreached.sound, nofun, ?_⟩
    intro answer hanswer number hnumber
    cases stop with
    | failed failure =>
      cases hanswer
      obtain ⟨trace, hmet, haccounts⟩ := hreached.goal rfl number hnumber
      exact ⟨trace, hfails number failure trace hmet, haccounts⟩
    | outOfSteps maxSteps => cases hanswer
    | outOfDepth maxDepth => cases hanswer
  · rw [hrun] at hreached
    have hneeds := (hreached.stored rfl).append (hstored.grows hreached.grows)
    obtain ⟨trace, hmet, -⟩ := hreached.goal rfl (fun _ => 0) fun _ _ => rfl
    have hlater := hn result ⟨_, trace, hmet⟩ middle hreached.sound hneeds
    refine ⟨hreached.grows.trans hlater.grows, hlater.sound, hlater.stored, ?_⟩
    intro answer hanswer number hnumber
    obtain ⟨trace, hmet, haccounts⟩ := hreached.goal rfl number hnumber
    -- Frames made since the start are made since the middle as well, or have the number 0 anyway.
    obtain ⟨more, hleft, hmore⟩ := hlater.goal hanswer number
      fun place hplace => hnumber place (Nat.le_trans hreached.grows.size hplace)
    exact ⟨trace ++ more, hleft trace hmet, haccounts.append hmore hlater.grows⟩

theorem Meets.bind {first : Goal ν α} {between : α → List (Scope ν)} {run : Run ν σ α}
    {next : α → Run ν σ β} (h : Meets code first between needs run)
    (hn : ∀ result, Meets code (goal.after first result) scopes (between result ++ needs)
      (next result))
    (hfails : ∀ number failure trace, first number (.error failure) trace →
      goal number (.error failure) trace) :
    Meets code goal scopes needs (run >>= next) :=
  h.bind_of_met (fun result _ => hn result) hfails

/-- What happens outside frames and records does not matter to a goal. -/
theorem Meets.quiet_bind {run : Run ν σ α} {next : α → Run ν σ β} (h : Quiet run)
    (hn : ∀ result, Meets code goal scopes needs (next result)) :
    Meets code goal scopes needs (run >>= next) := by
  intro machine hsound hstored
  obtain ⟨result, middle, hrun, hcells, -⟩ := h machine
  rw [bind_apply, hrun]
  have hgrows : machine.world.Grows middle.world := .of_cells hcells
  have hlater := hn result middle ((World.Makes.outside hcells).sound hsound)
    (hstored.grows hgrows)
  refine ⟨hgrows.trans hlater.grows, hlater.sound, hlater.stored, ?_⟩
  intro answer hanswer number hnumber
  obtain ⟨trace, hmet, haccounts⟩ := hlater.goal hanswer number
    fun place hplace => hnumber place (Nat.le_trans hgrows.size hplace)
  have hrecords : World.Accounts number machine.world middle.world [] :=
    .nil fun place name => World.recordAt_of_cells hcells place name
  exact ⟨trace, hmet, hrecords.append haccounts hlater.grows⟩

/-- What a counted step leads to decides about the goal, as a limit decides about nothing. -/
theorem Meets.tick_bind {limits : Limits} {next : Unit → Run ν σ β}
    (hn : Meets code goal scopes needs (next ())) :
    Meets code goal scopes needs (tick limits >>= next) := by
  intro machine hsound hstored
  rw [bind_apply, tick_apply]
  by_cases h : limits.maxSteps < machine.steps + 1
  · rw [if_pos h]
    exact ⟨.refl _, hsound, nofun, nofun⟩
  · rw [if_neg h]
    exact hn ⟨machine.steps + 1, machine.world⟩ hsound hstored

/-! ## Primitive runs -/

theorem quiet_emit (event : Event ν) : Quiet (emit event : Run ν σ Unit) :=
  fun machine => ⟨(), ⟨machine.steps, machine.world.emit event⟩, rfl, rfl, rfl⟩

theorem quiet_reportRebound (name : String) (table : Table (Expr ν)) :
    Quiet (reportRebound name table : Run ν σ Unit) := by
  intro machine
  rw [reportRebound]
  cases table.find? name with
  | none => exact ⟨(), machine, rfl, rfl, rfl⟩
  | some dropped => exact quiet_emit _ machine

/-- A result that says what stored scopes make true. -/
theorem meets_pure_of_stored {result : β} (h : ∀ world : World ν σ, world.Consistent →
      world.StoresAll needs →
      (∀ number, goal number (.ok result) []) ∧ world.StoresAll (scopes result)) :
    Meets code goal scopes needs (pure result : Run ν σ β) := by
  intro machine hsound hstored
  obtain ⟨hgoal, hscopes⟩ := h machine.world hsound.consistent hstored
  refine ⟨.refl _, hsound, ?_, ?_⟩
  · intro value hvalue
    cases hvalue
    exact hscopes
  · intro answer hanswer number _
    cases hanswer
    exact ⟨[], hgoal number, .nil fun _ _ => rfl⟩

theorem meets_pure {result : β} (hgoal : ∀ number, goal number (.ok result) [])
    (hscopes : ∀ inner ∈ scopes result, inner ∈ needs) :
    Meets code goal scopes needs (pure result : Run ν σ β) :=
  meets_pure_of_stored fun _ _ hstored => ⟨hgoal, hstored.subset hscopes⟩

theorem meets_fail {failure : Failure} (hgoal : ∀ number, goal number (.error failure) []) :
    Meets code goal scopes needs (fail failure : Run ν σ β) := by
  intro machine hsound hstored
  refine ⟨.refl _, hsound, nofun, ?_⟩
  intro answer hanswer number _
  cases hanswer
  exact ⟨[], hgoal number, .nil fun _ _ => rfl⟩

theorem meets_exhaust (limits : Limits) :
    Meets code goal scopes needs (exhaust limits : Run ν σ β) := by
  intro machine hsound _
  rw [exhaust_apply]
  exact ⟨.refl _, hsound, nofun, nofun⟩

theorem meets_tooDeep (maxDepth : Nat) :
    Meets code goal scopes needs (throw (.outOfDepth maxDepth) : Run ν σ β) :=
  fun _ hsound _ => ⟨.refl _, hsound, nofun, nofun⟩

end Run
end CallByNeed
