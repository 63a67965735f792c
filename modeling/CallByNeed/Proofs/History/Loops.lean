import CallByNeed.Proofs.History.Reducer
import CallByNeed.Proofs.Limits.Evaluations

/-! # Identifiers and loops follow themselves

The runs part at an identifier that is recorded on the right but not on the left: the right run
takes a single step to read a terminal, and the left run takes at least one to find it. That both
come to the same, and that the left run records nothing which is not recorded on the right, is what
call by name says about both (`World.Knows.of_reached`).
-/

namespace CallByNeed
set_option autoImplicit false

open CallByName

variable {ν σ α β : Type} {code : Code ν}

/-! ## One demand in two worlds -/

namespace World

theorem eq_of_numberBelow {size place other : Nat} (h : numberBelow size place = other + 1) :
    place = other := by
  unfold numberBelow at h
  by_cases hless : place < size
  · rw [if_pos hless] at h
    omega
  · rw [if_neg hless] at h
    omega

/-- Two evaluations of one expression that hit no limit come to the same, and what the left one
records of known frames is recorded on the right. -/
theorem Knows.of_reached {number : Nat → Nat} {left right left' right' : World ν σ}
    (hknows : Knows number left right) {expr expr' : Expr ν} {scope scope' : Scope ν}
    (hexpr : expr.renumber number = expr'.renumber Nat.succ)
    (hscope : scope.renumber number = scope'.renumber Nat.succ)
    (hright : right.Consistent) (hstored : right.StoresAll (scope' :: expr'.scopes))
    {outcome outcome' : Except Stop (Head ν)} {answer answer' : Except Failure (Head ν)}
    (h : Reached code (.derives code (.evaluate expr scope) .head) Head.scopes left outcome left')
    (hanswer : answer? outcome = some answer)
    (h' : Reached code (.derives code (.evaluate expr' scope') .head) Head.scopes right outcome'
      right')
    (hanswer' : answer? outcome' = some answer') :
    (Goal.resultOf .head answer).renumber number =
        (Goal.resultOf .head answer').renumber (numberBelow right.size) ∧
      Knows number left' right' := by
  have hbelow : ∀ place, place < right.size → numberBelow right.size place = Nat.succ place :=
    fun place hless => numberBelow_of_lt hless
  obtain ⟨trace, hderives, haccounts⟩ := h.goal hanswer number hknows.fresh
  obtain ⟨trace', hderives', haccounts'⟩ := h'.goal hanswer' (numberBelow right.size)
    fun place hplace => numberBelow_of_le hplace
  simp only [Goal.derives, Demand.renumber] at hderives hderives'
  rw [hexpr, hscope] at hderives
  rw [hright.renumber_congr_expr hbelow hstored.tail, hright.renumber_congr hbelow hstored.head]
    at hderives'
  obtain ⟨hresult, htrace⟩ := hderives.deterministic hderives'
  refine ⟨hresult, fun place hplace => hknows.fresh place (Nat.le_trans h.grows.size hplace), ?_⟩
  intro place name result other hr hother
  rcases haccounts.recorded hr with hold | hentry
  · obtain ⟨recorded, hrecorded, hforget⟩ := hknows.records hold hother
    exact ⟨recorded, h'.grows.record hrecorded, hforget⟩
  · rw [htrace] at hentry
    rcases haccounts'.confirmed _ hentry with hzero | ⟨known, recorded, hknown, hrecorded, hforget⟩
    · rw [show number place = 0 from hzero] at hother
      cases hother
    · rw [show number place = _ from hknown.symm] at hother
      rw [eq_of_numberBelow hother] at hrecorded
      exact ⟨recorded, hrecorded, hforget⟩

/-- The records of old frames are known by a numbering and those of new frames by its extension. -/
theorem Knows.of_old_and_new {number extended : Nat → Nat}
    {left left' middle right' middle' : World ν σ} (hold : Knows number left' right')
    (hnew : Knows extended middle middle')
    (hextends : ∀ place, place < left.size → extended place = number place)
    (hsize : left'.size = middle.size)
    (hrecords : ∀ place name, left.size ≤ place →
      left'.recordAt place name = middle.recordAt place name)
    (hgrows : middle'.Grows right') : Knows extended left' right' where
  fresh place hplace := hnew.fresh place (hsize ▸ hplace)
  records := by
    intro place name result other hr hother
    by_cases hless : place < left.size
    · rw [hextends place hless] at hother
      exact hold.records hr hother
    · rw [hrecords place name (Nat.le_of_not_lt hless)] at hr
      obtain ⟨recorded, hrecorded, hforget⟩ := hnew.records hr hother
      exact ⟨recorded, hgrows.record hrecorded, hforget⟩

end World

namespace Machine.Abreast

variable {number : Nat → Nat} {first second : Machine ν σ} {scope scope' : Scope ν}

theorem scope_eq {expr expr' : Expr ν}
    (h : first.Abreast code number [.next expr scope] [.next expr' scope'] second) :
    scope.renumber number = scope'.renumber Nat.succ := by
  have hsame := (List.cons.inj h.same).1
  simp only [Result.renumber, Result.next.injEq] at hsame
  exact hsame.2

/-- What corresponding identifiers are bound to can take their place. -/
theorem bound {name : String} {bound bound' : Expr ν} {owner owner' : Scope ν}
    (h : first.Abreast code number [.next (.identifier name) scope]
      [.next (.identifier name) scope'] second)
    (hfind : scope.find name = .ok (bound, owner))
    (hfind' : scope'.find name = .ok (bound', owner'))
    (hbound : bound.renumber number = bound'.renumber Nat.succ)
    (howner : owner.renumber number = owner'.renumber Nat.succ) :
    first.Abreast code number [.next bound owner] [.next bound' owner'] second := by
  obtain ⟨hstores, hmem, -⟩ := h.stored.head.find h.sound.1.consistent hfind
  obtain ⟨hstores', hmem', -⟩ := h.stored'.head.find h.sound.2.consistent hfind'
  refine ⟨h.knows, h.sound, ?_, ?_, ?_, h.steps⟩
  · have hall := hstores.contents h.sound.1.consistent hmem
    exact (World.StoresAll.cons hstores hall).append .nil
  · have hall := hstores'.contents h.sound.2.consistent hmem'
    exact (World.StoresAll.cons hstores' hall).append .nil
  · simp only [List.map_cons, List.map_nil, Result.renumber, hbound, howner]

end Machine.Abreast

namespace Engine

variable {engine : Engine ν σ} {nested : Nested ν σ}

/-! ## Steps of loops -/

theorem resolveLoop_counts (hcounts : nested.Obeys (Law.budget ν σ engine.limits)) (rounds : Nat)
    (expr : Expr ν) (scope : Scope ν) (machine : Machine ν σ) :
    machine.steps + 1 ≤ (engine.resolveLoop nested rounds expr scope [] machine).2.steps := by
  induction rounds generalizing expr scope machine with
  | zero =>
    have hsteps : (engine.resolveLoop nested 0 expr scope [] machine).2.steps =
        machine.steps + 1 := by
      rw [resolveLoop, Run.exhaust_apply]
    omega
  | succ rounds ih =>
    rw [resolveLoop_succ, step_eq, bind_assoc, Run.bind_apply, Run.tick_apply]
    by_cases hlimit : engine.limits.maxSteps < machine.steps + 1
    · simp only [if_pos hlimit]
      omega
    · rw [if_neg hlimit]
      have hbody := (engine.budget_lawful.stepBody hcounts expr scope
        ⟨machine.steps + 1, machine.world⟩ (Nat.zero_le _)).1
      show _ ≤ ((engine.stepBody nested expr scope >>= _) ⟨machine.steps + 1, _⟩).2.steps
      rw [Run.bind_apply]
      rcases hrun : engine.stepBody nested expr scope ⟨machine.steps + 1, machine.world⟩ with
        ⟨stop | outcome, middle⟩
      · rw [hrun] at hbody
        exact hbody
      · rw [hrun] at hbody
        have hmiddle : machine.steps + 1 ≤ middle.steps := hbody
        cases outcome with
        | finished head => exact hmiddle
        | further next inner => exact Nat.le_trans hmiddle (Nat.le_of_lt (ih next inner middle))
        | binding name bound owner =>
          have hlater := ih bound owner middle
          show _ ≤ ((engine.resolveLoop nested rounds bound owner [] >>= _) middle).2.steps
          rw [Run.bind_apply]
          rcases hloop : engine.resolveLoop nested rounds bound owner [] middle with
            ⟨stop | head, after⟩
          · rw [hloop] at hlater
            exact Nat.le_trans hmiddle (Nat.le_of_lt hlater)
          · rw [hloop] at hlater
            have hafter : machine.steps + 1 ≤ after.steps :=
              Nat.le_trans hmiddle (Nat.le_of_lt hlater)
            cases head with
            | closure closure => exact hafter
            | terminal result => exact hafter

/-- A resolution that hits no limit has a round and a step left at its start. -/
theorem room_of_answer {rounds : Nat} {expr : Expr ν} {scope : Scope ν} {machine : Machine ν σ}
    {answer : Except Failure (Head ν)}
    (h : answer? (engine.resolveLoop nested rounds expr scope [] machine).1 = some answer) :
    ∃ fewer, rounds = fewer + 1 ∧ machine.steps + 1 ≤ engine.limits.maxSteps := by
  cases rounds with
  | zero =>
    rw [resolveLoop, Run.exhaust_apply] at h
    cases h
  | succ rounds =>
    refine ⟨rounds, rfl, ?_⟩
    rw [resolveLoop_succ, step_eq, bind_assoc, Run.bind_apply, Run.tick_apply] at h
    by_cases hlimit : engine.limits.maxSteps < machine.steps + 1
    · rw [if_pos hlimit] at h
      cases h
    · exact Nat.le_of_not_lt hlimit

/-! ## Identifiers -/

section Identifiers

variable {rounds : Nat} {name : String} {scope scope' owner owner' : Scope ν}
  {bound bound' : Expr ν}

/-- The loop with so many rounds, as an identifier uses it. -/
abbrev resolving (engine : Engine ν σ) (nested : Nested ν σ) (rounds : Nat) (expr : Expr ν)
    (scope : Scope ν) : Run ν σ (Head ν) :=
  engine.resolveLoop nested rounds expr scope []

/-- An identifier without a record comes to the head of what it is bound to. Recording it leaves
frames, other frames' records and the steps as they are. -/
theorem identifierRun_apply_of_unrecorded {loop : Expr ν → Scope ν → Run ν σ (Head ν)}
    (hfind : scope.find name = .ok (bound, owner)) {machine : Machine ν σ}
    (hnone : machine.world.memoized owner name = none) {head : Head ν}
    (hhead : answer? (loop bound owner machine).1 = some (.ok head)) :
    ∃ world, identifierRun loop name scope machine =
        (.ok head, (⟨(loop bound owner machine).2.steps, world⟩ : Machine ν σ)) ∧
      (loop bound owner machine).2.world.Grows world ∧
      world.size = (loop bound owner machine).2.world.size ∧
      ∀ place other, place ≠ owner.number →
        world.recordAt place other = (loop bound owner machine).2.world.recordAt place other := by
  rw [identifierRun_unrecorded hfind hnone, Run.bind_apply, Run.eq_of_result hhead]
  generalize (loop bound owner machine).2 = after
  cases head with
  | closure closure => exact ⟨after.world, rfl, .refl _, rfl, fun _ _ _ => rfl⟩
  | terminal result =>
    refine ⟨after.world.memoize owner name result, rfl,
      World.grows_memoize after.world owner name result,
      World.size_memoize after.world owner name result, fun place other hplace => ?_⟩
    rw [World.recordAt_memoize, if_neg fun hnew => hplace hnew.1]

/-- An identifier that comes to an answer takes at least one step. -/
theorem identifierRun_room (hcounts : nested.Obeys (Law.budget ν σ engine.limits))
    (hfind : scope.find name = .ok (bound, owner)) {machine : Machine ν σ}
    {answer : Except Failure (Head ν)}
    (h : answer? (identifierRun (engine.resolving nested rounds) name scope machine).1 =
      some answer) :
    (∃ fewer, rounds = fewer + 1 ∧ machine.steps + 1 ≤ engine.limits.maxSteps) ∧
      machine.steps + 1 ≤
        (identifierRun (engine.resolving nested rounds) name scope machine).2.steps := by
  cases hrecord : machine.world.memoized owner name with
  | some result =>
    rw [identifierRun_recorded hfind hrecord] at h ⊢
    exact ⟨room_of_answer h, resolveLoop_counts hcounts rounds result.toExpr owner machine⟩
  | none =>
    have hcount : machine.steps + 1 ≤ (engine.resolving nested rounds bound owner machine).2.steps :=
      resolveLoop_counts hcounts rounds bound owner machine
    have hbind := h
    rw [identifierRun_unrecorded hfind hrecord] at hbind
    rcases Run.answer_of_bind hbind with ⟨failure, -, hbound⟩ | ⟨head, hbound, -⟩
    · rw [identifierRun_unrecorded hfind hrecord, Run.bind_apply, Run.eq_of_failure hbound]
      exact ⟨room_of_answer hbound, hcount⟩
    · obtain ⟨world, hrun, -⟩ := identifierRun_apply_of_unrecorded hfind hrecord hbound
      rw [hrun]
      exact ⟨room_of_answer hbound, hcount⟩

/-- Two runs of an identifier that hit no limit come to the same, and what the left one records of
known frames is recorded on the right. -/
theorem identifierRun_knows (huniform : code.Uniform)
    {loop : Expr ν → Scope ν → Run ν σ (Head ν)}
    (hloop : ∀ expr inner, Run.Meets code (.derives code (.evaluate expr inner) .head)
      Head.scopes (inner :: expr.scopes) (loop expr inner))
    {number : Nat → Nat} {first second : Machine ν σ}
    (habreast : first.Abreast code number [.next (.identifier name) scope]
      [.next (.identifier name) scope'] second)
    {answer answer' : Except Failure (Head ν)}
    (hanswer : answer? (identifierRun loop name scope first).1 = some answer)
    (hanswer' : answer? (identifierRun loop name scope' second).1 = some answer') :
    (Goal.resultOf .head answer).renumber number =
        (Goal.resultOf .head answer').renumber (numberBelow second.world.size) ∧
      (identifierRun loop name scope first).2.world.Knows number
        (identifierRun loop name scope' second).2.world := by
  have hmeets := identifierRun_meets huniform hloop name
  have hreached := hmeets scope first habreast.sound.1 habreast.stored
  have hreached' := hmeets scope' second habreast.sound.2 habreast.stored'
  have hname : (Expr.identifier name : Expr ν).renumber number =
      (Expr.identifier name).renumber Nat.succ := rfl
  exact habreast.knows.of_reached hname habreast.scope_eq habreast.sound.2.consistent
    habreast.stored' hreached hanswer hreached' hanswer'

variable (hnatives : engine.invoke.Computes code) (hmeets : Nested.Meets code nested)
include hnatives hmeets

/-- A record on the right is found with a single step. What the left run makes of the identifier
takes at least one. -/
theorem identifierRun_follows_of_recorded (hcounts : nested.Obeys (Law.budget ν σ engine.limits))
    {number : Nat → Nat} {first second : Machine ν σ}
    (habreast : first.Abreast code number [.next (.identifier name) scope]
      [.next (.identifier name) scope'] second)
    (hfind : scope.find name = .ok (bound, owner))
    (hfind' : scope'.find name = .ok (bound', owner')) {result : Terminal ν}
    (hrecord : second.world.memoized owner' name = some result)
    {answer : Except Failure (Head ν)}
    (hanswer : answer? (identifierRun (engine.resolving nested rounds) name scope first).1 =
      some answer) :
    ∃ answer', answer? (identifierRun (engine.resolving nested rounds) name scope' second).1 =
        some answer' ∧
      Agree .head number answer answer' ∧
      (identifierRun (engine.resolving nested rounds) name scope first).2.world.Knows number
        (identifierRun (engine.resolving nested rounds) name scope' second).2.world ∧
      (identifierRun (engine.resolving nested rounds) name scope' second).2.steps ≤
        (identifierRun (engine.resolving nested rounds) name scope first).2.steps := by
  obtain ⟨⟨fewer, rfl, hroom⟩, hcount⟩ := identifierRun_room hcounts hfind hanswer
  have hsteps := habreast.steps
  have hright : identifierRun (engine.resolving nested (fewer + 1)) name scope' second =
      (.ok (.terminal result),
        ⟨second.steps + 1, second.world.emit (.resolving result.toExpr)⟩) := by
    rw [identifierRun_recorded hfind' hrecord]
    exact resolveLoop_terminal fewer result owner' (by omega)
  have hanswer' : answer? (identifierRun (engine.resolving nested (fewer + 1)) name scope'
      second).1 = some (.ok (.terminal result)) := by
    rw [hright]
    rfl
  obtain ⟨hresult, hknows⟩ := identifierRun_knows hnatives.uniform
    (resolveLoop_meets hnatives hmeets (fewer + 1)) habreast hanswer hanswer'
  refine ⟨_, hanswer', ?_, hknows, ?_⟩
  · cases answer with
    | error failure => cases hresult
    | ok head => exact .ok hresult
  · rw [hright]
    show second.steps + 1 ≤ _
    omega

omit hnatives hmeets in
/-- Without a record on either side, both runs resolve what the identifier is bound to and then
record the result. -/
theorem identifierRun_follows_of_unrecorded (huniform : code.Uniform)
    {loop : Expr ν → Scope ν → Run ν σ (Head ν)}
    (hloop : ∀ expr inner, Run.Meets code (.derives code (.evaluate expr inner) .head)
      Head.scopes (inner :: expr.scopes) (loop expr inner))
    (hfollows : Run.Follows code .head [.next bound owner] [.next bound' owner']
      (loop bound owner) (loop bound' owner'))
    {number : Nat → Nat} {first second : Machine ν σ}
    (habreast : first.Abreast code number [.next (.identifier name) scope]
      [.next (.identifier name) scope'] second)
    (hfind : scope.find name = .ok (bound, owner))
    (hfind' : scope'.find name = .ok (bound', owner'))
    (hbound : bound.renumber number = bound'.renumber Nat.succ)
    (howner : owner.renumber number = owner'.renumber Nat.succ)
    (hnone : first.world.memoized owner name = none)
    (hnone' : second.world.memoized owner' name = none) {answer : Except Failure (Head ν)}
    (hanswer : answer? (identifierRun loop name scope first).1 =
      some answer) :
    ∃ extended answer',
      answer? (identifierRun loop name scope' second).1 =
        some answer' ∧
      Agree .head extended answer answer' ∧
      (∀ place, place < first.world.size → extended place = number place) ∧
      (identifierRun loop name scope first).2.world.Knows extended
        (identifierRun loop name scope' second).2.world ∧
      (identifierRun loop name scope' second).2.steps ≤
        (identifierRun loop name scope first).2.steps := by
  have hrun := hfollows number first second (habreast.bound hfind hfind' hbound howner)
  have hbind := hanswer
  rw [identifierRun_unrecorded hfind hnone] at hbind
  rcases Run.answer_of_bind hbind with ⟨failure, rfl, hleft⟩ | ⟨head, hleft, -⟩
  · obtain ⟨extended, answer', hright, hagree, hextends, hknows, hsteps⟩ := hrun _ hleft
    cases hagree
    rw [identifierRun_unrecorded hfind hnone, identifierRun_unrecorded hfind' hnone',
      Run.bind_apply, Run.bind_apply, Run.eq_of_failure hleft, Run.eq_of_failure hright]
    exact ⟨extended, _, rfl, .error failure, hextends, hknows, hsteps⟩
  · obtain ⟨extended, answer', hright, hagree, hextends, hknows, hsteps⟩ := hrun _ hleft
    obtain ⟨world, hdone, -, hsize, hothers⟩ :=
      identifierRun_apply_of_unrecorded hfind hnone hleft
    cases hagree with
    | ok hsame =>
      obtain ⟨world', hdone', hgrows', -⟩ :=
        identifierRun_apply_of_unrecorded hfind' hnone' hright
      have hold := (identifierRun_knows huniform hloop habreast hanswer
        (congrArg (answer? ∘ Prod.fst) hdone')).2
      rw [hdone] at hanswer hold ⊢
      rw [hdone'] at hold ⊢
      cases hanswer
      refine ⟨extended, _, rfl, .ok hsame, hextends, ?_, hsteps⟩
      refine hold.of_old_and_new hknows hextends hsize (fun place other hplace => ?_) hgrows'
      -- What is recorded belongs to the owner, which is old.
      refine hothers place other fun heq => ?_
      have hlt : owner.number < first.world.size :=
        (habreast.stored.head.find habreast.sound.1.consistent hfind).1.lt_size
      omega

theorem identifierRun_follows (hcounts : nested.Obeys (Law.budget ν σ engine.limits))
    (hfollows : ∀ expr expr' inner inner', Run.Follows code .head [.next expr inner]
      [.next expr' inner'] (engine.resolving nested rounds expr inner)
      (engine.resolving nested rounds expr' inner'))
    (name : String) (scope scope' : Scope ν) :
    Run.Follows code .head [.next (.identifier name) scope] [.next (.identifier name) scope']
      (identifierRun (engine.resolving nested rounds) name scope)
      (identifierRun (engine.resolving nested rounds) name scope') := by
  intro number first second habreast answer hanswer
  have hfound := Scope.find_renumber number scope name
  rw [habreast.scope_eq, Scope.find_renumber] at hfound
  cases hfind : scope.find name with
  | error failure =>
    cases hfind' : scope'.find name with
    | ok found' =>
      rw [hfind, hfind'] at hfound
      cases hfound
    | error failure' =>
      rw [hfind, hfind'] at hfound
      cases hfound
      rw [identifierRun_missing hfind] at hanswer ⊢
      rw [identifierRun_missing hfind']
      exact Run.follows_fail failure number first second habreast answer hanswer
  | ok found =>
    cases hfind' : scope'.find name with
    | error failure' =>
      rw [hfind, hfind'] at hfound
      cases hfound
    | ok found' =>
      obtain ⟨bound, owner⟩ := found
      obtain ⟨bound', owner'⟩ := found'
      rw [hfind, hfind'] at hfound
      have hpair := Prod.mk.inj (Except.ok.inj hfound).symm
      obtain ⟨hbound, howner⟩ := hpair
      have hnumber : number owner.number = owner'.number + 1 := by
        rw [← Scope.renumber_number number owner, howner, Scope.renumber_number]
      cases hrecord' : second.world.memoized owner' name with
      | some result =>
        obtain ⟨answer', hanswer', hagree, hknows, hsteps⟩ :=
          identifierRun_follows_of_recorded hnatives hmeets hcounts habreast hfind hfind' hrecord'
            hanswer
        exact ⟨number, answer', hanswer', hagree, fun _ _ => rfl, hknows, hsteps⟩
      | none =>
        cases hrecord : first.world.memoized owner name with
        | some result =>
          -- The right world knows what the left one has recorded.
          obtain ⟨recorded, hknown, -⟩ := habreast.knows.records hrecord hnumber
          rw [World.memoized_eq, hknown] at hrecord'
          cases hrecord'
        | none =>
          exact identifierRun_follows_of_unrecorded hnatives.uniform
            (resolveLoop_meets hnatives hmeets rounds) (hfollows bound bound' owner owner')
            habreast hfind hfind' hbound howner hrecord hrecord' hanswer

end Identifiers

/-! ## Loops -/

theorem identifier?_eq {number : Nat → Nat} {expr expr' : Expr ν} {scope scope' : Scope ν}
    (hsame : [Result.next expr scope].map (Result.renumber number) =
      [Result.next expr' scope'].map (Result.renumber Nat.succ)) :
    expr.identifier? = expr'.identifier? := by
  have hpair := (List.cons.inj hsame).1
  simp only [Result.renumber, Result.next.injEq] at hpair
  rw [← Expr.identifier?_renumber number, hpair.1, Expr.identifier?_renumber]

section Loops

variable (hnatives : engine.invoke.Computes code) (h : Nested.Follows code nested)
  (hmeets : Nested.Meets code nested)
  (hcounts : nested.Obeys (Law.budget ν σ engine.limits))

include hnatives hmeets

theorem keeps_stepBody (expr : Expr ν) (hexpr : expr.identifier? = none) (scope : Scope ν) :
    Run.Keeps code Outcome.toResult [.next expr scope] (engine.stepBody nested expr scope) := by
  refine (stepBody_meets hnatives hmeets expr hexpr scope).keeps ?_ ?_
  · intro inner hm
    exact List.mem_append_left _ hm
  · intro outcome inner hm
    cases outcome with
    | finished head => exact hm
    | further next within => exact hm
    | binding name bound owner => cases hm

include h

/-- A step of an expression that is no identifier, and whatever comes after it. -/
theorem stepBody_bind_follows {final : β → Result ν} {expr : Expr ν}
    (hexpr : expr.identifier? = none) (expr' : Expr ν) (scope scope' : Scope ν)
    {next next' : Outcome ν → Run ν σ β}
    (hfinished : ∀ head head', Run.Follows code final [.head head] [.head head']
      (next (.finished head)) (next' (.finished head')))
    (hfurther : ∀ expr expr' inner inner', Run.Follows code final [.next expr inner]
      [.next expr' inner'] (next (.further expr inner)) (next' (.further expr' inner'))) :
    Run.Follows code final [.next expr scope] [.next expr' scope']
      (engine.stepBody nested expr scope >>= next)
      (engine.stepBody nested expr' scope' >>= next') := by
  refine Run.Follows.of_same fun number hsame => ?_
  have hexpr' : expr'.identifier? = none := (identifier?_eq hsame).symm.trans hexpr
  refine (stepBody_follows hnatives h hmeets expr expr' hexpr scope scope').bind_of_yields
    (keeps_stepBody hnatives hmeets expr hexpr scope)
    (keeps_stepBody hnatives hmeets expr' hexpr' scope')
    (stepBody_entersNothing engine nested hexpr scope) fun outcome outcome' houtcome => ?_
  refine Run.Follows.of_same fun number hsame => ?_
  cases outcome with
  | finished head =>
    cases outcome' with
    | finished head' => exact (hfinished head head').of_covers .first
    | further next within => cases hsame
    | binding name bound owner => cases hsame
  | further next within =>
    cases outcome' with
    | finished head' => cases hsame
    | further next' within' =>
      exact (hfurther next next' within within').of_covers .first
    | binding name bound owner => cases hsame
  | binding name bound owner => exact houtcome.elim

include hcounts in
theorem resolveLoop_follows (rounds : Nat) (expr expr' : Expr ν) (scope scope' : Scope ν) :
    Run.Follows code .head [.next expr scope] [.next expr' scope']
      (engine.resolveLoop nested rounds expr scope [])
      (engine.resolveLoop nested rounds expr' scope' []) := by
  induction rounds generalizing expr expr' scope scope' with
  | zero => exact Run.follows_exhaust engine.limits
  | succ rounds ih =>
    cases hexpr : expr.identifier? with
    | some name =>
      refine Run.Follows.of_same fun number hsame => ?_
      rw [eq_identifier hexpr, eq_identifier ((identifier?_eq hsame).symm.trans hexpr),
        resolveLoop_identifier, resolveLoop_identifier]
      refine Run.Follows.tick_bind ?_
      refine Run.Follows.quiet_bind (Run.quiet_emit _) (Run.quiet_emit _) fun _ _ => ?_
      exact identifierRun_follows hnatives hmeets hcounts ih name scope scope'
    | none =>
      rw [resolveLoop_succ, resolveLoop_succ, step_eq, step_eq, bind_assoc, bind_assoc]
      refine Run.Follows.tick_bind ?_
      refine stepBody_bind_follows hnatives h hmeets hexpr expr' scope scope'
        (fun head head' => ?_) ih
      exact Run.follows_pure fun number hsame => (List.cons.inj hsame).1

omit hnatives h hmeets in
theorem ownName_follows (name : String) {needs needs' : List (Result ν)} :
    Run.Follows code .name needs needs' (ownName name : Run ν σ String) (ownName name) := by
  rw [ownName]
  cases positional? name with
  | some index => exact Run.follows_fail _
  | none => exact Run.follows_pure fun _ _ => rfl

omit hnatives h hmeets in
theorem nameAfterStep_follows (rounds : Nat) (head head' : Head ν) :
    Run.Follows code .name [.head head] [.head head']
      (engine.nameAfterStep nested rounds (.finished head))
      (engine.nameAfterStep nested rounds (.finished head')) := by
  refine Run.Follows.of_same fun number hsame => ?_
  have hhead : head.renumber number = head'.renumber Nat.succ :=
    Result.head.inj (List.cons.inj hsame).1
  have hname : head.name? = head'.name? := by
    rw [← Head.name?_renumber number, hhead, Head.name?_renumber]
  have hdisplay : head.toExpr.display = head'.toExpr.display := by
    rw [← Head.display_renumber number, hhead, Head.display_renumber]
  rw [nameAfterStep, nameAfterStep, hname, hdisplay]
  cases head'.name? with
  | some name => exact Run.follows_pure fun _ _ => rfl
  | none => exact Run.follows_fail _

theorem nameLoop_follows (rounds : Nat) (position position' : Expr ν) (scope scope' : Scope ν) :
    Run.Follows code .name [.next position scope] [.next position' scope']
      (engine.nameLoop nested rounds position scope)
      (engine.nameLoop nested rounds position' scope') := by
  induction rounds generalizing position position' scope scope' with
  | zero =>
    cases hposition : position.identifier? with
    | some name =>
      refine Run.Follows.of_same fun number hsame => ?_
      rw [eq_identifier hposition, eq_identifier ((identifier?_eq hsame).symm.trans hposition),
        nameLoop_identifier, nameLoop_identifier]
      exact ownName_follows name
    | none =>
      rw [nameLoop_zero _ _ _ _ hposition]
      exact Run.follows_exhaust engine.limits
  | succ rounds ih =>
    refine Run.Follows.of_same fun number hsame => ?_
    have hsame' := identifier?_eq hsame
    cases hposition : position.identifier? with
    | some name =>
      rw [eq_identifier hposition, eq_identifier (hsame'.symm.trans hposition),
        nameLoop_identifier, nameLoop_identifier]
      exact ownName_follows name
    | none =>
      rw [nameLoop_succ _ _ _ _ _ hposition, nameLoop_succ _ _ _ _ _ (hsame'.symm.trans hposition),
        step_eq, step_eq, bind_assoc, bind_assoc]
      refine Run.Follows.tick_bind ?_
      exact stepBody_bind_follows hnatives h hmeets hposition position' scope scope'
        (nameAfterStep_follows rounds) ih

end Loops

end Engine
end CallByNeed
