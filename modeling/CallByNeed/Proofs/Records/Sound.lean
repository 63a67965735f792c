import CallByNeed.Proofs.CallByName.Determinism
import CallByNeed.Proofs.Worlds.Operations

/-! # Sound records

A world is sound if each of its records is what call by name makes of the identifier, and if all
identifiers that call by name meets on the way to it are recorded as well. The derivation is about
the world's frames under the numbers that `Nat.succ` gives, which leaves 0 to the frames that the
derivation makes.

A run is compared with call by name under any numbering that gives 0 to all frames the run makes.
`Accounts` says how the records of a run and the trace of the derivation go together.
-/

namespace CallByNeed
set_option autoImplicit false

open CallByName

variable {ν σ α : Type}

/-- The numbering of frames older than `size`, with 0 for all others. -/
def numberBelow (size : Nat) (number : Nat) : Nat :=
  if number < size then number + 1 else 0

theorem numberBelow_of_lt {size number : Nat} (h : number < size) :
    numberBelow size number = Nat.succ number :=
  if_pos h

theorem numberBelow_of_le {size number : Nat} (h : size ≤ number) :
    numberBelow size number = 0 :=
  if_neg (Nat.not_lt.2 h)

/-- What a numbering of its own makes of frames numbered by `Nat.succ`. -/
def fromSucc (number : Nat → Nat) : Nat → Nat
  | 0 => 0
  | old + 1 => number old

namespace World

/-- An entry of a trace is recorded, unless it belongs to a frame that the derivation made. -/
def Confirms (world : World ν σ) (number : Nat → Nat) (entry : Entry ν) : Prop :=
  entry.owner = 0 ∨ ∃ place result, number place = entry.owner ∧
    world.recordAt place entry.name = some result ∧ result.forget = entry.result

theorem Confirms.grows {before after : World ν σ} {number : Nat → Nat} {entry : Entry ν}
    (h : before.Confirms number entry) (hgrows : before.Grows after) :
    after.Confirms number entry := by
  rcases h with hzero | ⟨place, result, hplace, hrecord, hresult⟩
  · exact .inl hzero
  · exact .inr ⟨place, result, hplace, hgrows.record hrecord, hresult⟩

/-- A recorded result is what call by name gives. -/
structure RecordedSoundly (code : Code ν) (world : World ν σ) (place : Nat) (name : String)
    (result : Terminal ν) (owner : Scope ν) (bound : Expr ν) (trace : Trace ν) : Prop where
  stored : world.scopeAt place = some owner
  find : owner.find name = .ok (bound, owner)
  derives : Derives code (.evaluate (bound.renumber Nat.succ) (owner.renumber Nat.succ))
    (.head (.terminal result.forget)) trace
  confirmed : ∀ entry ∈ trace, world.Confirms Nat.succ entry

structure Sound (code : Code ν) (world : World ν σ) : Prop where
  consistent : world.Consistent
  records : ∀ {place name result}, world.recordAt place name = some result →
    ∃ owner bound trace, world.RecordedSoundly code place name result owner bound trace

theorem RecordedSoundly.grows {code : Code ν} {before after : World ν σ} {place : Nat}
    {name : String} {result : Terminal ν} {owner : Scope ν} {bound : Expr ν} {trace : Trace ν}
    (h : before.RecordedSoundly code place name result owner bound trace)
    (hgrows : before.Grows after) :
    after.RecordedSoundly code place name result owner bound trace where
  stored := hgrows.scope h.stored
  find := h.find
  derives := h.derives
  confirmed entry hm := (h.confirmed entry hm).grows hgrows

theorem sound_initial (code : Code ν) (host : σ) : (initial host : World ν σ).Sound code where
  consistent := consistent_initial host
  records h := by cases h

/-- A world that grows without records stays sound. -/
theorem Sound.grows {code : Code ν} {before after : World ν σ} (h : before.Sound code)
    (hconsistent : after.Consistent) (hgrows : before.Grows after)
    (hrecords : ∀ place name, after.recordAt place name = before.recordAt place name) :
    after.Sound code where
  consistent := hconsistent
  records hr := by
    rw [hrecords] at hr
    obtain ⟨owner, bound, trace, hsound⟩ := h.records hr
    exact ⟨owner, bound, trace, hsound.grows hgrows⟩

theorem Makes.sound {code : Code ν} {before after : World ν σ} (h : Makes before after)
    (hsound : before.Sound code) : after.Sound code :=
  hsound.grows (h.consistent hsound.consistent) h.grows h.records

/-! ## Records read and written -/

section Records

variable {code : Code ν} {world : World ν σ}

/-- A record of a stored frame says what call by name gives for the identifier, under any
numbering. -/
theorem Sound.record (h : world.Sound code) (huniform : code.Uniform) {owner : Scope ν}
    {bound : Expr ν} {name : String} {result : Terminal ν} (howner : world.Stores owner)
    (hfind : owner.find name = .ok (bound, owner))
    (hrecord : world.recordAt owner.number name = some result) (number : Nat → Nat) :
    ∃ trace, Derives code (.evaluate (bound.renumber number) (owner.renumber number))
        (.head (.terminal result.forget)) trace ∧
      ∀ entry ∈ trace, world.Confirms number entry := by
  obtain ⟨stored, found, trace, hsound⟩ := h.records hrecord
  have hsame : stored = owner := Option.some.inj (hsound.stored.symm.trans howner)
  subst hsame
  have hbound : found = bound := by
    have hpair := Except.ok.inj (hsound.find.symm.trans hfind)
    exact congrArg Prod.fst hpair
  subst hbound
  have hderives := hsound.derives.renumber huniform (show fromSucc number 0 = 0 from rfl)
  have hcomp : fromSucc number ∘ Nat.succ = number := rfl
  simp only [Demand.renumber, Expr.renumber_renumber, Scope.renumber_renumber, hcomp] at hderives
  refine ⟨_, by simpa [Result.renumber, Head.renumber] using hderives, ?_⟩
  intro entry hm
  obtain ⟨old, hold, rfl⟩ := List.mem_map.1 hm
  rcases hsound.confirmed old hold with hzero | ⟨place, recorded, hplace, hr, hforget⟩
  · left
    simp only [Entry.renumber, hzero, fromSucc]
  · right
    refine ⟨place, recorded, ?_, hr, ?_⟩
    · simp only [Entry.renumber, ← hplace]
      rfl
    · simp only [Entry.renumber, ← hforget, Terminal.forget_forget]

/-- Two sound records of one identifier are the same, up to built identities. -/
theorem RecordedSoundly.unique {place : Nat} {name : String} {first second : Terminal ν}
    {owner owner' : Scope ν} {bound bound' : Expr ν} {trace trace' : Trace ν}
    {other : World ν σ} (h : world.RecordedSoundly code place name first owner bound trace)
    (h' : other.RecordedSoundly code place name second owner' bound' trace')
    (howner : owner = owner') : first.forget = second.forget := by
  subst howner
  have hpair := Except.ok.inj (h.find.symm.trans h'.find)
  have hbound : bound = bound' := congrArg Prod.fst hpair
  subst hbound
  have hhead := (h.derives.deterministic h'.derives).1
  exact Head.terminal.inj (Result.head.inj hhead)

/-- A new sound record keeps a world sound. What the record says is then recorded, and nothing
else. -/
theorem Sound.memoize (h : world.Sound code) {owner : Scope ν} {bound : Expr ν} {name : String}
    {result : Terminal ν} {trace : Trace ν}
    (hrecord : world.RecordedSoundly code owner.number name result owner bound trace) :
    (world.memoize owner name result).Sound code := by
  have hgrows := grows_memoize world owner name result
  refine ⟨h.consistent.memoize owner name result, ?_⟩
  intro place other recorded hr
  rw [recordAt_memoize] at hr
  by_cases hnew : place = owner.number ∧ other = name ∧ place < world.size
  · rw [if_pos hnew] at hr
    obtain ⟨rfl, rfl, -⟩ := hnew
    cases hold : world.recordAt owner.number other with
    | none =>
      rw [hold] at hr
      cases hr
      exact ⟨owner, bound, trace, hrecord.grows hgrows⟩
    | some old =>
      rw [hold] at hr
      cases hr
      obtain ⟨owner', bound', trace', hsound⟩ := h.records hold
      exact ⟨owner', bound', trace', hsound.grows hgrows⟩
  · rw [if_neg hnew] at hr
    obtain ⟨owner', bound', trace', hsound⟩ := h.records hr
    exact ⟨owner', bound', trace', hsound.grows hgrows⟩

/-- After a sound record, the identifier has a record that agrees with it. -/
theorem Sound.memoize_self (h : world.Sound code) {owner : Scope ν} {bound : Expr ν}
    {name : String} {result : Terminal ν} {trace : Trace ν}
    (hrecord : world.RecordedSoundly code owner.number name result owner bound trace) :
    ∃ recorded, (world.memoize owner name result).recordAt owner.number name = some recorded ∧
      recorded.forget = result.forget := by
  have hsize : owner.number < world.size := lt_size_of_scopeAt hrecord.stored
  rw [recordAt_memoize, if_pos ⟨rfl, rfl, hsize⟩]
  cases hold : world.recordAt owner.number name with
  | none => exact ⟨result, rfl, rfl⟩
  | some old =>
    obtain ⟨owner', bound', trace', hsound⟩ := h.records hold
    have hsame : owner' = owner := Option.some.inj (hsound.stored.symm.trans hrecord.stored)
    exact ⟨old, rfl, hsound.unique hrecord hsame⟩

theorem memoize_records {owner : Scope ν} {name : String} {result : Terminal ν} {place : Nat}
    {other : String} {recorded : Terminal ν}
    (h : (world.memoize owner name result).recordAt place other = some recorded) :
    world.recordAt place other = some recorded ∨
      place = owner.number ∧ other = name ∧ recorded = result := by
  rw [recordAt_memoize] at h
  by_cases hnew : place = owner.number ∧ other = name ∧ place < world.size
  · rw [if_pos hnew] at h
    cases hold : world.recordAt place other with
    | none =>
      rw [hold] at h
      cases h
      exact .inr ⟨hnew.1, hnew.2.1, rfl⟩
    | some old =>
      rw [hold] at h
      exact .inl h
  · rw [if_neg hnew] at h
    exact .inl h

end Records

/-! ## Records and traces -/

/-- The entries of a trace are recorded after a run, and all new records are entries of it. -/
structure Accounts (number : Nat → Nat) (before after : World ν σ) (trace : Trace ν) : Prop where
  confirmed : ∀ entry ∈ trace, after.Confirms number entry
  recorded : ∀ {place name result}, after.recordAt place name = some result →
    before.recordAt place name = some result ∨ ⟨number place, name, result.forget⟩ ∈ trace

namespace Accounts

variable {number : Nat → Nat} {before middle after : World ν σ} {trace more : Trace ν}

/-- Without new records there need not be a trace. -/
theorem nil (h : ∀ place name, after.recordAt place name = before.recordAt place name) :
    Accounts number before after [] where
  confirmed _ hm := absurd hm (List.not_mem_nil)
  recorded hr := .inl ((h _ _).symm.trans hr)

theorem append (h : Accounts number before middle trace)
    (h' : Accounts number middle after more) (hgrows : middle.Grows after) :
    Accounts number before after (trace ++ more) where
  confirmed entry hm := by
    rcases List.mem_append.1 hm with hfirst | hsecond
    · exact (h.confirmed entry hfirst).grows hgrows
    · exact h'.confirmed entry hsecond
  recorded hr := by
    rcases h'.recorded hr with hmiddle | hmore
    · rcases h.recorded hmiddle with hbefore | htrace
      · exact .inl hbefore
      · exact .inr (List.mem_append_left _ htrace)
    · exact .inr (List.mem_append_right _ hmore)

end Accounts

end World
end CallByNeed
