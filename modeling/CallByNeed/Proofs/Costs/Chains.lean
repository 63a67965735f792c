import CallByNeed.Proofs.Costs.Basic

/-! # Chains of identifiers

A name may be bound to a name, and that to a name again, from frame to frame, up to one that is
bound to a value (`Scope.Chain`). Resolving the first name goes along the whole chain at one depth,
with a step for each link. The records are written at the end, for all links at once: if the budget
ends on the way there is none (`Engine.chain_all_or_nothing`).
-/

namespace CallByNeed
set_option autoImplicit false

variable {ν σ : Type}

/-- The name is found bound to another, which is found from there, and so on up to a name that is
bound to the value. The links are the names with the frames that they are found in. -/
inductive Scope.Chain (value : Value ν) : Scope ν → String → List (Scope ν × String) → Prop where
  | last {scope owner : Scope ν} {name : String}
      (hfind : scope.find name = .ok (.value value, owner)) :
      Chain value scope name [(owner, name)]
  | link {scope owner : Scope ν} {name next : String} {links : List (Scope ν × String)}
      (hfind : scope.find name = .ok (.identifier next, owner))
      (hnext : Chain value owner next links) :
      Chain value scope name ((owner, name) :: links)

/-! ## Records for all links -/

/-- The result is recorded for all of these links, and the records are otherwise what they were. No
frame is made. -/
structure World.Learns (before : World ν σ) (links : List (Scope ν × String))
    (result : Terminal ν) (after : World ν σ) : Prop where
  frames : ∀ number, after.scopeAt number = before.scopeAt number
  size : after.size = before.size
  records : ∀ link ∈ links, after.memoized link.1 link.2 = some result
  others : ∀ number name, (∀ link ∈ links, ¬(link.1.number = number ∧ link.2 = name)) →
    after.recordAt number name = before.recordAt number name

namespace World.Learns

variable {before after : World ν σ} {links : List (Scope ν × String)} {result : Terminal ν}

theorem of_cells (h : after.cells = before.cells) : before.Learns [] result after where
  frames number := scopeAt_of_cells h number
  size := congrArg Array.size h
  records _ hlink := absurd hlink List.not_mem_nil
  others number name _ := recordAt_of_cells h number name

/-- What was unknown so far is recorded once the rest of the links is. -/
theorem memoize {owner : Scope ν} {name : String} (h : before.Learns links result after)
    (howner : owner.number < before.size) (hunknown : before.memoized owner name = none) :
    before.Learns ((owner, name) :: links) result (after.memoize owner name result) where
  frames number := (scopeAt_memoize after owner name result number).trans (h.frames number)
  size := (size_memoize after owner name result).trans h.size
  records link hlink := by
    have hknown : after.memoized owner name = none ∨ after.memoized owner name = some result := by
      by_cases hold : ∃ old ∈ links, old.1.number = owner.number ∧ old.2 = name
      · obtain ⟨old, hmem, hnumber, rfl⟩ := hold
        have hold := h.records old hmem
        rw [memoized_eq, hnumber] at hold
        exact .inr hold
      · exact .inl ((h.others owner.number name fun old hmem hsame => hold ⟨old, hmem, hsame⟩).trans
          hunknown)
    rw [memoized_eq, recordAt_memoize]
    rcases List.mem_cons.1 hlink with rfl | hlater
    · rw [if_pos ⟨rfl, rfl, h.size.symm ▸ howner⟩]
      rcases hknown with hnone | hsome
      · rw [memoized_eq] at hnone
        rw [hnone, Option.getD_none]
      · rw [memoized_eq] at hsome
        rw [hsome, Option.getD_some]
    · have hrecord := h.records link hlater
      rw [memoized_eq] at hrecord
      rw [hrecord]
      split <;> rfl
  others number label hothers := by
    have hnew := hothers (owner, name) List.mem_cons_self
    rw [recordAt_memoize, if_neg fun hsame => hnew ⟨hsame.1.symm, hsame.2.1.symm⟩]
    exact h.others number label fun link hlink => hothers link (List.mem_cons_of_mem _ hlink)

end World.Learns

/-! ## Resolving along a chain -/

namespace Scope.Chain

variable {value : Value ν} {scope : Scope ν} {name : String} {links : List (Scope ν × String)}

/-- A chain costs a step for each link and one for the value, at whatever depth. -/
theorem takes (h : scope.Chain value name links) (engine : Engine ν σ) (levels : Nat)
    (machine : Machine ν σ)
    (hstores : ∀ link ∈ links, machine.world.Stores link.1)
    (hunknown : ∀ link ∈ links, machine.world.memoized link.1 link.2 = none) :
    ((engine.nested (levels + 1)).resolve (.identifier name) scope).Takes engine.limits machine
      (links.length + 1) (fun world => world.cells = machine.world.cells)
      fun head world => head = .terminal (.value value) ∧
        machine.world.Learns links (.value value) world := by
  induction h generalizing machine with
  | @last scope owner name hfind =>
    have howner := (hstores _ List.mem_cons_self).lt_size
    have hfirst := hunknown _ List.mem_cons_self
    have hcut : machine.world.cells = machine.world.cells := rfl
    have hvalue : ((engine.nested (levels + 1)).resolve (.value value) owner).Takes engine.limits
        (machine.counted (.identifier name)) 1 (fun world => world.cells = machine.world.cells)
        fun head world => head = .terminal (.value value) ∧ world.cells = machine.world.cells :=
      Engine.takes_terminal hcut (.value value) ⟨rfl, hcut⟩
    refine Engine.takes_unrecorded hcut hfind hfirst hvalue ?_ ?_
    · rintro result world ⟨hresult, hcells⟩
      cases hresult
      exact ⟨rfl, (World.Learns.of_cells hcells).memoize howner hfirst⟩
    · rintro closure world ⟨hclosure, -⟩
      cases hclosure
  | @link scope owner name next links hfind hnext ih =>
    have howner := (hstores _ List.mem_cons_self).lt_size
    have hfirst := hunknown _ List.mem_cons_self
    have hcut : machine.world.cells = machine.world.cells := rfl
    have hlinks := ih (machine.counted (.identifier name))
      (fun link hlink => hstores link (List.mem_cons_of_mem _ hlink))
      (fun link hlink => hunknown link (List.mem_cons_of_mem _ hlink))
    refine Engine.takes_unrecorded hcut hfind hfirst hlinks ?_ ?_
    · rintro result world ⟨hresult, hlearns⟩
      cases hresult
      have hlater : machine.world.Learns links (.value value) world :=
        ⟨hlearns.frames, hlearns.size, hlearns.records, hlearns.others⟩
      exact ⟨rfl, hlater.memoize howner hfirst⟩
    · rintro closure world ⟨hclosure, -⟩
      cases hclosure

end Scope.Chain

/-- Along a chain of names without records, whatever frames they are in and however little may be
nested: with a step for each link and one for the value, the value is come to in exactly so many
steps and recorded for every link, and nothing else is recorded. With fewer steps no record at all
is left. -/
theorem Engine.chain_all_or_nothing (engine : Engine ν σ) {value : Value ν} {scope : Scope ν}
    {name : String} {links : List (Scope ν × String)} (hchain : scope.Chain value name links)
    {world : World ν σ} (hstores : ∀ link ∈ links, world.Stores link.1)
    (hunknown : ∀ link ∈ links, world.memoized link.1 link.2 = none) :
    let evaluated := engine.evaluate (.resolve (.identifier name) scope) world
    (links.length + 1 ≤ engine.limits.maxSteps →
      evaluated.reported = .ok (.value value) ∧ evaluated.steps = links.length + 1 ∧
        world.Learns links (.value value) evaluated.world) ∧
    (engine.limits.maxSteps ≤ links.length →
      evaluated.reported = .error (.stepBudgetExhausted engine.limits.maxSteps) ∧
        evaluated.steps = engine.limits.maxSteps + 1 ∧
        evaluated.world.cells = world.cells) := by
  intro evaluated
  have htakes := hchain.takes engine engine.limits.maxDepth ⟨0, world⟩ hstores hunknown
  constructor
  · intro hsteps
    obtain ⟨head, after, hrun, rfl, hlearns⟩ := htakes.done (by rwa [Nat.zero_add])
    rw [Nat.zero_add] at hrun
    have hevaluated : evaluated = _ := evaluate_resolve hrun
    rw [hevaluated]
    exact ⟨rfl, rfl, hlearns⟩
  · intro hsteps
    obtain ⟨after, hrun, hcells⟩ := htakes.short (Nat.zero_le _)
      (by rw [Nat.zero_add]; exact Nat.lt_succ_of_le hsteps)
    have hevaluated : evaluated = _ := evaluate_resolve hrun
    rw [hevaluated]
    exact ⟨rfl, rfl, hcells⟩

def chainedValue : Value StandardNative := ⟨.supplied 0, .integer .i64 5⟩

/-- A name of a closure that leads on to a name of the root, and from there to another. -/
def chainOfNames : Scope StandardNative × World StandardNative HostState :=
  let (root, world) := (World.initial .initial).newRoot
    (.ofList [("b", .identifier "c"), ("c", .value chainedValue)])
  world.newClosure (.ofList [("a", .identifier "b")]) (.identifier "a") root

/-- Three links with as many steps as they take, and with one less, where nothing may be nested. -/
theorem chain_all_or_nothing_three :
    ∃ root, chainOfNames.1.parent? = some root ∧
      let world := chainOfNames.2
      let links := [(chainOfNames.1, "a"), (root, "b"), (root, "c")]
      let enough := (standardHost.engine 0 ⟨4, 0⟩).evaluate
        (.resolve (.identifier "a") chainOfNames.1) world
      let short := (standardHost.engine 0 ⟨3, 0⟩).evaluate
        (.resolve (.identifier "a") chainOfNames.1) world
      enough.reported = .ok (.value chainedValue) ∧ enough.steps = 4 ∧
        world.Learns links (.value chainedValue) enough.world ∧
        short.reported = .error (.stepBudgetExhausted 3) ∧ short.world.cells = world.cells := by
  refine ⟨_, rfl, ?_⟩
  intro world links enough short
  have hchain : chainOfNames.1.Chain chainedValue "a" links :=
    .link rfl (.link rfl (.last rfl))
  have hstores : ∀ link ∈ links, world.Stores link.1 := by
    simp only [links, List.forall_mem_cons]
    exact ⟨rfl, rfl, rfl, nofun⟩
  have hunknown : ∀ link ∈ links, world.memoized link.1 link.2 = none := by
    simp only [links, List.forall_mem_cons]
    exact ⟨rfl, rfl, rfl, nofun⟩
  have henough := ((standardHost.engine 0 ⟨4, 0⟩).chain_all_or_nothing hchain hstores hunknown).1
    (Nat.le_refl 4)
  have hshort := ((standardHost.engine 0 ⟨3, 0⟩).chain_all_or_nothing hchain hstores hunknown).2
    (Nat.le_refl 3)
  exact ⟨henough.1, henough.2.1, henough.2.2, hshort.1, hshort.2.2⟩

end CallByNeed
