import CallByNeed.Proofs.Records.Evaluations

/-! # Runs with more records

Two runs of one expression, on the left in a world and on the right in a world that has gone through
more operations. A numbering gives each frame of the left world the number of the frame on the right
that it corresponds to, plus one, and 0 to the frames that are unknown there. The right world knows
the records of the left one (`World.Knows`).

A run follows another one if it hits no limit unless the other one does, comes to the same answer,
takes no more steps and knows the records of the other one again (`Run.Follows`). The numbering is
extended by the frames that both of them make.
-/

namespace CallByNeed
set_option autoImplicit false

open CallByName

variable {ν σ α β γ : Type} {code : Code ν}

namespace CallByName.Result

/-- The outermost scopes of a result. -/
def scopes : Result ν → List (Scope ν)
  | .failed _ | .name _ => []
  | .head it => it.scopes
  | .next expr scope => scope :: expr.scopes
  | .heads exprs => scopesAll exprs
  | .bound entries => scopesAll (entries.map Prod.snd)

def scopesOf : List (Result ν) → List (Scope ν)
  | [] => []
  | need :: rest => need.scopes ++ scopesOf rest

theorem mem_scopesOf {needs : List (Result ν)} {need : Result ν} {inner : Scope ν}
    (hneed : need ∈ needs) (hinner : inner ∈ need.scopes) : inner ∈ scopesOf needs := by
  induction needs with
  | nil => cases hneed
  | cons first rest ih =>
    rcases List.mem_cons.1 hneed with rfl | hrest
    · exact List.mem_append_left _ hinner
    · exact List.mem_append_right _ (ih hrest)

/-- Numberings that agree on the frames of a consistent world renumber stored results alike. -/
theorem renumber_congr {world : World ν σ} (hconsistent : world.Consistent)
    {first second : Nat → Nat} (hagree : ∀ number, number < world.size →
      first number = second number) {result : Result ν} (h : world.StoresAll result.scopes) :
    result.renumber first = result.renumber second := by
  have hall : ∀ exprs, world.StoresAll (scopesAll exprs) →
      ∀ expr ∈ exprs, expr.renumber first = expr.renumber second := by
    intro exprs hexprs expr hm
    refine hconsistent.renumber_congr_expr hagree (hexprs.subset fun inner hinner => ?_)
    exact mem_scopesAll.2 ⟨expr, hm, hinner⟩
  cases result with
  | failed failure => rfl
  | name text => rfl
  | head it =>
    cases it with
    | terminal result => rfl
    | closure scope =>
      simp only [renumber, Head.renumber]
      rw [hconsistent.renumber_congr hagree h.head]
  | next expr scope =>
    simp only [renumber]
    rw [hconsistent.renumber_congr hagree h.head, hconsistent.renumber_congr_expr hagree h.tail]
  | heads exprs =>
    simp only [renumber]
    rw [List.map_congr_left (hall exprs h)]
  | bound entries =>
    simp only [renumber, renumberBound]
    congr 1
    refine List.map_congr_left fun entry hm => ?_
    rw [hall _ h entry.2 (List.mem_map_of_mem hm)]

end CallByName.Result

/-! ## Parts of what is needed -/

/-- Where needs correspond and are stored, so are the needs of a part of the work. -/
structure Covers (needs needs' few few' : List (Result ν)) : Prop where
  same : ∀ number : Nat → Nat,
    needs.map (Result.renumber number) = needs'.map (Result.renumber Nat.succ) →
    few.map (Result.renumber number) = few'.map (Result.renumber Nat.succ)
  scopes : ∀ inner ∈ Result.scopesOf few, inner ∈ Result.scopesOf needs
  scopes' : ∀ inner ∈ Result.scopesOf few', inner ∈ Result.scopesOf needs'

namespace Covers

variable {needs needs' few few' : List (Result ν)} {need need' : Result ν}
  {expr expr' : Expr ν} {scope scope' : Scope ν}

theorem cons (h : Covers needs needs' [need] [need']) (h' : Covers needs needs' few few') :
    Covers needs needs' (need :: few) (need' :: few') where
  same number hsame := by
    have hneed := List.cons.inj (h.same number hsame)
    rw [List.map_cons, List.map_cons, hneed.1, h'.same number hsame]
  scopes inner hm := by
    rcases List.mem_append.1 hm with hfirst | hrest
    · exact h.scopes inner (List.mem_append_left _ hfirst)
    · exact h'.scopes inner hrest
  scopes' inner hm := by
    rcases List.mem_append.1 hm with hfirst | hrest
    · exact h.scopes' inner (List.mem_append_left _ hfirst)
    · exact h'.scopes' inner hrest

theorem later (h : Covers needs needs' few few') :
    Covers (need :: needs) (need' :: needs') few few' where
  same number hsame := h.same number (List.cons.inj hsame).2
  scopes inner hm := List.mem_append_right _ (h.scopes inner hm)
  scopes' inner hm := List.mem_append_right _ (h.scopes' inner hm)

theorem of_first (h : Covers [need] [need'] few few') :
    Covers (need :: needs) (need' :: needs') few few' where
  same number hsame := by
    refine h.same number ?_
    rw [List.map_cons, List.map_cons, (List.cons.inj hsame).1]
    rfl
  scopes inner hm := by
    have hfirst := h.scopes inner hm
    simp only [Result.scopesOf, List.append_nil] at hfirst
    exact List.mem_append_left _ hfirst
  scopes' inner hm := by
    have hfirst := h.scopes' inner hm
    simp only [Result.scopesOf, List.append_nil] at hfirst
    exact List.mem_append_left _ hfirst

theorem refl : Covers needs needs' needs needs' :=
  ⟨fun _ hsame => hsame, fun _ hm => hm, fun _ hm => hm⟩

theorem trans {part part' : List (Result ν)} (h : Covers needs needs' few few')
    (h' : Covers few few' part part') : Covers needs needs' part part' where
  same number hsame := h'.same number (h.same number hsame)
  scopes inner hm := h.scopes inner (h'.scopes inner hm)
  scopes' inner hm := h.scopes' inner (h'.scopes' inner hm)

theorem first : Covers (need :: needs) (need' :: needs') [need] [need'] :=
  of_first refl

/-- The scope that an expression is to be resolved in. -/
theorem within : Covers [.next expr scope] [.next expr' scope'] [.head (.closure scope)]
    [.head (.closure scope')] where
  same number hsame := by
    simp only [List.map_cons, List.map_nil, Result.renumber, List.cons.injEq, and_true,
      Result.next.injEq] at hsame
    simp only [List.map_cons, List.map_nil, Result.renumber, Head.renumber, hsame.2]
  scopes inner hm := by
    rcases List.mem_cons.1 hm with rfl | hnone
    · exact List.mem_cons_self
    · cases hnone
  scopes' inner hm := by
    rcases List.mem_cons.1 hm with rfl | hnone
    · exact List.mem_cons_self
    · cases hnone

/-- An expression and the scope that it is to be resolved in. -/
theorem next (h : Covers needs needs' [.heads [expr]] [.heads [expr']])
    (h' : Covers needs needs' [.head (.closure scope)] [.head (.closure scope')]) :
    Covers needs needs' [.next expr scope] [.next expr' scope'] where
  same number hsame := by
    have hexpr := h.same number hsame
    have hscope := h'.same number hsame
    simp only [List.map_cons, List.map_nil, Result.renumber, Head.renumber, List.cons.injEq,
      and_true, Result.heads.injEq, Result.head.injEq, Head.closure.injEq] at hexpr hscope
    simp only [List.map_cons, List.map_nil, Result.renumber, hexpr, hscope]
  scopes inner hm := by
    simp only [Result.scopesOf, Result.scopes, List.append_nil, List.mem_cons] at hm
    rcases hm with rfl | hexpr
    · exact h'.scopes inner List.mem_cons_self
    · refine h.scopes inner ?_
      simpa only [Result.scopesOf, Result.scopes, scopesAll, List.append_nil] using hexpr
  scopes' inner hm := by
    simp only [Result.scopesOf, Result.scopes, List.append_nil, List.mem_cons] at hm
    rcases hm with rfl | hexpr
    · exact h'.scopes' inner List.mem_cons_self
    · refine h.scopes' inner ?_
      simpa only [Result.scopesOf, Result.scopes, scopesAll, List.append_nil] using hexpr

/-- The first of some expressions, and the others. -/
theorem uncons {rest rest' : List (Expr ν)} : Covers [.heads (expr :: rest)]
    [.heads (expr' :: rest')] [.heads [expr], .heads rest] [.heads [expr'], .heads rest'] where
  same number hsame := by
    simp only [List.map_cons, List.map_nil, Result.renumber, List.cons.injEq, and_true,
      Result.heads.injEq] at hsame
    simp only [List.map_cons, List.map_nil, Result.renumber, hsame.1, hsame.2]
  scopes inner hm := by
    simpa only [Result.scopesOf, Result.scopes, scopesAll, List.append_nil] using hm
  scopes' inner hm := by
    simpa only [Result.scopesOf, Result.scopes, scopesAll, List.append_nil] using hm

end Covers

/-! ## Worlds -/

namespace World

/-- The right world has a record for each record of the left one that belongs to a frame known
there. Frames that the left world does not have yet are unknown. -/
structure Knows (number : Nat → Nat) (left right : World ν σ) : Prop where
  fresh : ∀ place, left.size ≤ place → number place = 0
  records : ∀ {place name result other}, left.recordAt place name = some result →
    number place = other + 1 →
    ∃ recorded, right.recordAt other name = some recorded ∧ recorded.forget = result.forget

/-- What is outside frames and records does not matter. -/
theorem Knows.of_cells {number : Nat → Nat} {left right left' right' : World ν σ}
    (h : Knows number left right) (hleft : left'.cells = left.cells)
    (hright : right'.cells = right.cells) : Knows number left' right' where
  fresh place hplace := by
    refine h.fresh place ?_
    rw [size, hleft] at hplace
    exact hplace
  records hr hother := by
    rw [recordAt_of_cells hleft] at hr
    obtain ⟨recorded, hrecorded, hforget⟩ := h.records hr hother
    exact ⟨recorded, (recordAt_of_cells hright _ _).trans hrecorded, hforget⟩

/-- More frames on both sides, which the numbering may relate. -/
theorem Knows.furnished {number extended : Nat → Nat} {left right left' right' : World ν σ}
    (h : Knows number left right) (hleft : left.Furnished left') (hright : right.Furnished right')
    (hextends : ∀ place, place < left.size → extended place = number place)
    (hfresh : ∀ place, left'.size ≤ place → extended place = 0) :
    Knows extended left' right' where
  fresh := hfresh
  records hr hother := by
    rw [hleft.records] at hr
    rw [hextends _ (lt_size_of_recordAt hr)] at hother
    obtain ⟨recorded, hrecorded, hforget⟩ := h.records hr hother
    exact ⟨recorded, (hright.records _ _).trans hrecorded, hforget⟩

end World

/-! ## Machines and runs -/

/-- Two machines that are about to do the same with corresponding things, where the right one has
taken no more steps. -/
structure Machine.Abreast (code : Code ν) (number : Nat → Nat) (needs needs' : List (Result ν))
    (left right : Machine ν σ) : Prop where
  knows : left.world.Knows number right.world
  sound : left.world.Sound code ∧ right.world.Sound code
  stored : left.world.StoresAll (Result.scopesOf needs)
  stored' : right.world.StoresAll (Result.scopesOf needs')
  same : needs.map (Result.renumber number) = needs'.map (Result.renumber Nat.succ)
  steps : right.steps ≤ left.steps

/-- Answers that correspond. -/
inductive Agree (result : α → Result ν) (number : Nat → Nat) :
    Except Failure α → Except Failure α → Prop where
  | ok {first second : α}
      (h : (result first).renumber number = (result second).renumber Nat.succ) :
      Agree result number (.ok first) (.ok second)
  | error (failure : Failure) : Agree result number (.error failure) (.error failure)

namespace Run

/-- Unless the left run hits a limit, the right run does not hit one either, comes to the same
answer and takes no more steps. -/
def Follows (code : Code ν) (result : α → Result ν) (needs needs' : List (Result ν))
    (left right : Run ν σ α) : Prop :=
  ∀ (number : Nat → Nat) (first second : Machine ν σ),
    first.Abreast code number needs needs' second →
    ∀ answer, answer? (left first).1 = some answer →
      ∃ extended answer', answer? (right second).1 = some answer' ∧
        Agree result extended answer answer' ∧
        (∀ place, place < first.world.size → extended place = number place) ∧
        (left first).2.world.Knows extended (right second).2.world ∧
        (right second).2.steps ≤ (left first).2.steps

/-- The run keeps worlds sound and stores the scopes of its result. -/
def Keeps (code : Code ν) (result : α → Result ν) (needs : List (Result ν)) (run : Run ν σ α) :
    Prop :=
  ∀ machine : Machine ν σ, machine.world.Sound code →
    machine.world.StoresAll (Result.scopesOf needs) →
    machine.world.Grows (run machine).2.world ∧ (run machine).2.world.Sound code ∧
      ∀ value, (run machine).1 = .ok value →
        (run machine).2.world.StoresAll (result value).scopes

variable {result : α → Result ν} {final : β → Result ν} {needs needs' : List (Result ν)}

theorem Meets.keeps {goal : Goal ν α} {scopes : α → List (Scope ν)} {more : List (Scope ν)}
    {run : Run ν σ α} (h : Meets code goal scopes more run)
    (hneeds : ∀ inner ∈ more, inner ∈ Result.scopesOf needs)
    (hscopes : ∀ value, ∀ inner ∈ (result value).scopes, inner ∈ scopes value) :
    Keeps code result needs run := by
  intro machine hsound hstored
  have hreached := h machine hsound (hstored.subset hneeds)
  refine ⟨hreached.grows, hreached.sound, fun value hvalue => ?_⟩
  exact (hreached.stored hvalue).subset (hscopes value)

/-! ## Composition -/

/-- What the correspondence says about the shape of what is needed may be assumed. -/
theorem Follows.of_same {left right : Run ν σ β}
    (h : ∀ number : Nat → Nat,
      needs.map (Result.renumber number) = needs'.map (Result.renumber Nat.succ) →
      Follows code final needs needs' left right) :
    Follows code final needs needs' left right :=
  fun number first second habreast => h number habreast.same number first second habreast

theorem Follows.of_needs {few few' : List (Result ν)} {left right : Run ν σ β}
    (h : Follows code final few few' left right)
    (hsame : ∀ number : Nat → Nat,
      needs.map (Result.renumber number) = needs'.map (Result.renumber Nat.succ) →
      few.map (Result.renumber number) = few'.map (Result.renumber Nat.succ))
    (hstored : ∀ world : World ν σ, world.Consistent →
      world.StoresAll (Result.scopesOf needs) → world.StoresAll (Result.scopesOf few))
    (hstored' : ∀ world : World ν σ, world.Consistent →
      world.StoresAll (Result.scopesOf needs') →
      world.StoresAll (Result.scopesOf few')) :
    Follows code final needs needs' left right := by
  intro number first second habreast
  refine h number first second ⟨habreast.knows, habreast.sound, ?_, ?_, ?_, habreast.steps⟩
  · exact hstored _ habreast.sound.1.consistent habreast.stored
  · exact hstored' _ habreast.sound.2.consistent habreast.stored'
  · exact hsame number habreast.same

theorem Follows.of_covers {few few' : List (Result ν)} {left right : Run ν σ β}
    (h : Follows code final few few' left right) (hcovers : Covers needs needs' few few') :
    Follows code final needs needs' left right :=
  h.of_needs hcovers.same (fun _ _ hstored => hstored.subset hcovers.scopes)
    fun _ _ hstored => hstored.subset hcovers.scopes'

/-- What the left run yields in any case may be assumed by what comes next. -/
theorem Follows.bind_of_yields {left right : Run ν σ α} {next next' : α → Run ν σ β}
    {property : α → Prop} (h : Follows code result needs needs' left right)
    (hkeeps : Keeps code result needs left) (hkeeps' : Keeps code result needs' right)
    (hyields : Yields property left)
    (hn : ∀ value value', property value → Follows code final (result value :: needs)
      (result value' :: needs') (next value) (next' value')) :
    Follows code final needs needs' (left >>= next) (right >>= next') := by
  intro number first second habreast answer hanswer
  have hfirst := h number first second habreast
  rcases answer_of_bind hanswer with ⟨failure, rfl, hleft⟩ | ⟨value, hleft, hlater⟩
  · obtain ⟨extended, answer', hright, hagree, hextends, hknows, hsteps⟩ := hfirst _ hleft
    cases hagree
    rw [bind_apply, bind_apply, eq_of_failure hleft, eq_of_failure hright]
    exact ⟨extended, _, rfl, .error failure, hextends, hknows, hsteps⟩
  · obtain ⟨extended, answer', hright, hagree, hextends, hknows, hsteps⟩ := hfirst _ hleft
    cases hagree with
    | ok hsame =>
      rename_i value'
      have hvalue := eq_of_result hleft
      have hvalue' := eq_of_result hright
      obtain ⟨hgrows, hsound, hresult⟩ := hkeeps first habreast.sound.1 habreast.stored
      obtain ⟨hgrows', hsound', hresult'⟩ := hkeeps' second habreast.sound.2 habreast.stored'
      have hnext : (left first).2.Abreast code extended (result value :: needs)
          (result value' :: needs') (right second).2 := by
        refine ⟨hknows, ⟨hsound, hsound'⟩, ?_, ?_, ?_, hsteps⟩
        · exact (hresult _ (congrArg Prod.fst hvalue)).append (habreast.stored.grows hgrows)
        · exact (hresult' _ (congrArg Prod.fst hvalue')).append (habreast.stored'.grows hgrows')
        · rw [List.map_cons, List.map_cons, hsame, ← habreast.same]
          congr 1
          refine List.map_congr_left fun need hm => ?_
          refine Result.renumber_congr habreast.sound.1.consistent hextends ?_
          exact habreast.stored.subset fun inner hinner => Result.mem_scopesOf hm hinner
      obtain ⟨last, answer', hanswer', hagree, hlast, hknows, hsteps⟩ :=
        hn value value' (hyields first value _ hvalue) extended _ _ hnext answer hlater
      rw [bind_apply, bind_apply, hvalue, hvalue']
      refine ⟨last, answer', hanswer', hagree, fun place hplace => ?_, hknows, hsteps⟩
      rw [hlast place (Nat.lt_of_lt_of_le hplace hgrows.size), hextends place hplace]

theorem Follows.bind {left right : Run ν σ α} {next next' : α → Run ν σ β}
    (h : Follows code result needs needs' left right) (hkeeps : Keeps code result needs left)
    (hkeeps' : Keeps code result needs' right)
    (hn : ∀ value value', Follows code final (result value :: needs) (result value' :: needs')
      (next value) (next' value')) :
    Follows code final needs needs' (left >>= next) (right >>= next') :=
  h.bind_of_yields hkeeps hkeeps' (yields_true left) fun value value' _ => hn value value'

theorem Keeps.of_subset {few : List (Result ν)} {run : Run ν σ α}
    (h : Keeps code result few run)
    (hsubset : ∀ inner ∈ Result.scopesOf few, inner ∈ Result.scopesOf needs) :
    Keeps code result needs run :=
  fun machine hsound hstored => h machine hsound (hstored.subset hsubset)

/-- A first run that needs less than what follows. -/
theorem Follows.bind_of {few few' : List (Result ν)} {left right : Run ν σ α}
    {next next' : α → Run ν σ β} (h : Follows code result few few' left right)
    (hkeeps : Keeps code result few left) (hkeeps' : Keeps code result few' right)
    (hcovers : Covers needs needs' few few')
    (hn : ∀ value value', Follows code final (result value :: needs) (result value' :: needs')
      (next value) (next' value')) :
    Follows code final needs needs' (left >>= next) (right >>= next') :=
  (h.of_covers hcovers).bind (hkeeps.of_subset hcovers.scopes) (hkeeps'.of_subset hcovers.scopes')
    hn

theorem Follows.quiet_bind {left : Run ν σ α} {right : Run ν σ α} {next : α → Run ν σ β}
    {next' : α → Run ν σ β} (h : Quiet left) (h' : Quiet right)
    (hn : ∀ value value', Follows code final needs needs' (next value) (next' value')) :
    Follows code final needs needs' (left >>= next) (right >>= next') := by
  intro number first second habreast answer hanswer
  obtain ⟨value, middle, hleft, hcells, hsteps⟩ := h first
  obtain ⟨value', middle', hright, hcells', hsteps'⟩ := h' second
  rw [bind_apply, hleft] at hanswer
  rw [bind_apply, bind_apply, hleft, hright]
  have hgrows : first.world.Grows middle.world := .of_cells hcells
  have hgrows' : second.world.Grows middle'.world := .of_cells hcells'
  have hnext : middle.Abreast code number needs needs' middle' := by
    refine ⟨habreast.knows.of_cells hcells hcells', ⟨?_, ?_⟩, habreast.stored.grows hgrows,
      habreast.stored'.grows hgrows', habreast.same, ?_⟩
    · exact (World.Makes.outside hcells).sound habreast.sound.1
    · exact (World.Makes.outside hcells').sound habreast.sound.2
    · rw [hsteps, hsteps']
      exact habreast.steps
  obtain ⟨extended, answer', hanswer', hagree, hextends, hknows, hcount⟩ :=
    hn value value' number middle middle' hnext answer hanswer
  refine ⟨extended, answer', hanswer', hagree, fun place hplace => ?_, hknows, hcount⟩
  exact hextends place (Nat.lt_of_lt_of_le hplace hgrows.size)

/-- A step that is counted on the left can be counted on the right. -/
theorem Follows.tick_bind {limits : Limits} {next next' : Unit → Run ν σ β}
    (hn : Follows code final needs needs' (next ()) (next' ())) :
    Follows code final needs needs' (tick limits >>= next) (tick limits >>= next') := by
  intro number first second habreast answer hanswer
  have hsteps := habreast.steps
  rw [bind_apply, tick_apply] at hanswer
  rw [bind_apply, bind_apply, tick_apply, tick_apply]
  by_cases hlimit : limits.maxSteps < first.steps + 1
  · rw [if_pos hlimit] at hanswer
    cases hanswer
  · have hlimit' : ¬limits.maxSteps < second.steps + 1 := by omega
    rw [if_neg hlimit] at hanswer
    rw [if_neg hlimit, if_neg hlimit']
    exact hn number ⟨first.steps + 1, first.world⟩ ⟨second.steps + 1, second.world⟩
      ⟨habreast.knows, habreast.sound, habreast.stored, habreast.stored', habreast.same,
        Nat.succ_le_succ hsteps⟩ answer hanswer

/-! ## Primitive runs -/

theorem follows_pure {value value' : β} (h : ∀ number : Nat → Nat,
      needs.map (Result.renumber number) = needs'.map (Result.renumber Nat.succ) →
      (final value).renumber number = (final value').renumber Nat.succ) :
    Follows code final needs needs' (pure value : Run ν σ β) (pure value') := by
  intro number first second habreast answer hanswer
  cases hanswer
  exact ⟨number, _, rfl, .ok (h number habreast.same), fun _ _ => rfl, habreast.knows,
    habreast.steps⟩

theorem follows_fail (failure : Failure) :
    Follows code final needs needs' (fail failure : Run ν σ β) (fail failure) := by
  intro number first second habreast answer hanswer
  cases hanswer
  exact ⟨number, _, rfl, .error failure, fun _ _ => rfl, habreast.knows, habreast.steps⟩

/-- A run that hits a limit is followed by every run. -/
theorem follows_of_cut {left right : Run ν σ β}
    (h : ∀ machine, answer? (left machine).1 = none) :
    Follows code final needs needs' left right := by
  intro number first second _ answer hanswer
  rw [h first] at hanswer
  cases hanswer

theorem follows_exhaust (limits : Limits) {right : Run ν σ β} :
    Follows code final needs needs' (exhaust limits) right := by
  refine follows_of_cut fun machine => ?_
  rw [exhaust_apply]
  rfl

/-- Changes of both worlds that make corresponding frames. -/
theorem follows_withWorld {change change' : World ν σ → β × World ν σ}
    (h : ∀ (number : Nat → Nat) (left right : World ν σ), left.Consistent → right.Consistent →
      left.StoresAll (Result.scopesOf needs) →
      right.StoresAll (Result.scopesOf needs') → left.Knows number right →
      needs.map (Result.renumber number) = needs'.map (Result.renumber Nat.succ) →
      left.Furnished (change left).2 ∧ right.Furnished (change' right).2 ∧
        ∃ extended : Nat → Nat, (∀ place, place < left.size → extended place = number place) ∧
          (∀ place, (change left).2.size ≤ place → extended place = 0) ∧
          (final (change left).1).renumber extended =
            (final (change' right).1).renumber Nat.succ) :
    Follows code final needs needs' (withWorld change) (withWorld change') := by
  intro number first second habreast answer hanswer
  obtain ⟨hfurnished, hfurnished', extended, hextends, hfresh, hsame⟩ :=
    h number first.world second.world habreast.sound.1.consistent habreast.sound.2.consistent
      habreast.stored habreast.stored' habreast.knows habreast.same
  rw [withWorld_apply] at hanswer
  rw [withWorld_apply, withWorld_apply]
  cases hanswer
  exact ⟨extended, _, rfl, .ok hsame, hextends,
    habreast.knows.furnished hfurnished hfurnished' hextends hfresh, habreast.steps⟩

end Run
end CallByNeed
