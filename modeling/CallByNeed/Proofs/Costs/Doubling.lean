import CallByNeed.Proofs.Appliers.Silent
import CallByNeed.Proofs.Costs.Basic
import CallByNeed.Proofs.Names.Plain
import Mathlib.Logic.Function.Iterate

/-! # Doubling is linear

A lambda binds a value and then, again and again, the application of a native method to the name
before, twice (`Doubling`). If names were replaced by what they are bound to, every round would
double the work. But the first of the two arguments leaves a record, which the second one uses. So a
round costs seven steps and one native call, and what is nested is one resolution in each round
(`Engine.doubling_linear`).
-/

namespace CallByNeed
set_option autoImplicit false

variable {ν σ α : Type}

/-! ## Doubling programs -/

/-- Different plain names: one for a value, one for each round, and that of a native method. -/
structure Doubling (ν : Type) where
  rounds : Nat
  name : Nat → String
  function : String
  start : Value ν
  plain : ∀ index ≤ rounds, positional? (name index) = none
  distinct : ∀ index ≤ rounds, ∀ other ≤ rounds, name index = name other → index = other
  functionPlain : positional? function = none
  apart : ∀ index ≤ rounds, name index ≠ function

namespace Doubling

variable (program : Doubling ν)

/-- What the names are bound to: the value, and the method applied twice to the name before. -/
def bound : Nat → Expr ν
  | 0 => .value program.start
  | index + 1 => .application (.identifier program.function)
      [.identifier (program.name index), .identifier (program.name index)]

def entries : List (String × Expr ν) :=
  (List.range (program.rounds + 1)).map fun index => (program.name index, program.bound index)

def expr : Expr ν :=
  .lambda (Lambda.items (Lambda.named program.entries)
    (.identifier (program.name program.rounds)))

theorem mem_entries {index : Nat} (h : index ≤ program.rounds) :
    (program.name index, program.bound index) ∈ program.entries :=
  List.mem_map_of_mem (List.mem_range.2 (Nat.lt_succ_of_le h))

theorem entries_plain : ∀ entry ∈ program.entries, positional? entry.1 = none := by
  intro entry hentry
  obtain ⟨index, hindex, rfl⟩ := List.mem_map.1 hentry
  exact program.plain index (Nat.le_of_lt_succ (List.mem_range.1 hindex))

theorem entries_distinct : (program.entries.map Prod.fst).Nodup := by
  have hnames : program.entries.map Prod.fst =
      (List.range (program.rounds + 1)).map program.name := List.map_map
  have hle {index : Nat} (hindex : index ∈ List.range (program.rounds + 1)) :
      index ≤ program.rounds := Nat.le_of_lt_succ (List.mem_range.1 hindex)
  rw [hnames]
  exact List.nodup_range.map_on fun index hindex other hother =>
    program.distinct index (hle hindex) other (hle hother)

theorem function_not_mem : program.function ∉ program.entries.map Prod.fst := by
  intro hmem
  obtain ⟨entry, hentry, hname⟩ := List.mem_map.1 hmem
  obtain ⟨index, hindex, rfl⟩ := List.mem_map.1 hentry
  exact program.apart index (Nat.le_of_lt_succ (List.mem_range.1 hindex)) hname

/-- The closure of the program finds its own names, and the method where it is bound outside. -/
structure Closed (closure owner : Scope ν) (method : Native ν) : Prop where
  name : ∀ index ≤ program.rounds,
    closure.find (program.name index) = .ok (program.bound index, closure)
  function : closure.find program.function = .ok (.native method, owner)

theorem closed {closure owner root : Scope ν} {method : Native ν} {before after : World ν σ}
    {body : Expr ν} (h : closure.ClosedOver program.entries body root before after)
    (hfunction : root.find program.function = .ok (.native method, owner)) :
    program.Closed closure owner method where
  name index hindex := Scope.find_own
    (h.table.find_of_mem program.entries_distinct (program.mem_entries hindex))
    (program.plain index hindex)
  function := by
    have hnone := h.table.find_of_not_mem program.function_not_mem
    rw [Scope.find_outer h.parent program.functionPlain hnone]
    exact hfunction

end Doubling

/-! ## Native methods of two equal arguments -/

namespace World

/-- Nothing is recorded for the frames that there are, and no native method called. -/
structure Spares (before after : World ν σ) : Prop where
  size : before.size ≤ after.size
  records : ∀ number < before.size, ∀ name,
    after.recordAt number name = before.recordAt number name
  calls : after.calls = before.calls

theorem spares_emit (world : World ν σ) (event : Event ν) (hevent : event.call? = none) :
    world.Spares (world.emit event) :=
  ⟨Nat.le_refl _, fun _ _ _ => rfl, (world.matches_emit hevent).calls⟩

end World

/-- Nothing is recorded for the frames that there are, and only the method is called, once. -/
structure World.CallsOnce (method : Native ν) (before after : World ν σ) : Prop where
  size : before.size ≤ after.size
  records : ∀ number < before.size, ∀ name,
    after.recordAt number name = before.recordAt number name
  calls : ∃ call : NativeCall ν, call.1 = method ∧ after.calls = before.calls ++ [call]

theorem World.CallsOnce.emit {method : Native ν} {before after : World ν σ}
    (h : before.CallsOnce method after) (event : Event ν) (hevent : event.call? = none) :
    before.CallsOnce method (after.emit event) :=
  ⟨h.size, h.records, (after.spares_emit event hevent).calls ▸ h.calls⟩

/-- Given a value twice, the method gives a value, and what is seen of that, such as the payload, is
made from what is seen of the argument. The method may make values and frames and change the host,
but leaves records alone and calls no other method. -/
def Engine.Doubles (engine : Engine ν σ) (method : Native ν) (view : Value ν → α)
    (double : α → α) : Prop :=
  ∀ (value : Value ν) (scope : Scope ν) (world : World ν σ), ∃ result after,
    engine.invoke method [.value value, .value value] scope world = (.value result, after) ∧
      view result = double (view value) ∧ world.Spares after

theorem Engine.Doubles.callNative {engine : Engine ν σ} {method : Native ν}
    {view : Value ν → α} {double : α → α} (h : engine.Doubles method view double) (value : Value ν)
    (scope : Scope ν) (machine : Machine ν σ) :
    ∃ result after, engine.callNative method [.value value, .value value] scope machine =
        (.ok (.value result), ⟨machine.steps, after⟩) ∧
      view result = double (view value) ∧ machine.world.CallsOnce method after := by
  let invoking := machine.world.emit (.invoking method [.value value, .value value] scope)
  obtain ⟨result, after, hinvoke, hview, hspares⟩ := h value scope invoking
  have hreturned := after.spares_emit (.returned method (.value result)) rfl
  have hcall := Engine.callNative_apply engine method [.value value, .value value] scope machine
  rw [hinvoke] at hcall
  refine ⟨result, _, hcall, hview, hspares.size, hspares.records,
    (method, [.value value, .value value], scope), rfl, ?_⟩
  rw [hreturned.calls, hspares.calls]
  exact World.calls_emit machine.world _

/-! ## Resolving the names -/

namespace Doubling

/-- The frames are there, and the method is known if its name has a record at all. -/
structure Ready (program : Doubling ν) (closure owner : Scope ν) (method : Native ν)
    (world : World ν σ) : Prop where
  closureMade : closure.number < world.size
  ownerMade : owner.number < world.size
  function : world.memoized owner program.function = none ∨
    world.memoized owner program.function = some (.native method)

/-- No name of a round is recorded, and no native method called. -/
structure Continues (program : Doubling ν) (closure owner : Scope ν) (method : Native ν)
    (before after : World ν σ) : Prop where
  ready : program.Ready closure owner method after
  names : ∀ index ≤ program.rounds, after.memoized closure (program.name index) =
    before.memoized closure (program.name index)
  calls : after.calls = before.calls

variable {program : Doubling ν} {closure owner : Scope ν} {method : Native ν}

theorem Ready.keeps {before after : World ν σ} (h : program.Ready closure owner method before)
    (hsize : before.size ≤ after.size) (hrecords : ∀ number < before.size, ∀ name,
      after.recordAt number name = before.recordAt number name) :
    program.Ready closure owner method after where
  closureMade := Nat.lt_of_lt_of_le h.closureMade hsize
  ownerMade := Nat.lt_of_lt_of_le h.ownerMade hsize
  function := by
    rw [World.memoized_eq, hrecords _ h.ownerMade]
    exact h.function

theorem Continues.of_spares {before after : World ν σ}
    (h : program.Ready closure owner method before) (hspares : before.Spares after) :
    program.Continues closure owner method before after :=
  ⟨h.keeps hspares.size hspares.records, fun _ _ => hspares.records _ h.closureMade _,
    hspares.calls⟩

theorem Continues.emit {before after : World ν σ}
    (h : program.Continues closure owner method before after) (event : Event ν)
    (hevent : event.call? = none) :
    program.Continues closure owner method before (after.emit event) :=
  ⟨⟨h.ready.closureMade, h.ready.ownerMade, h.ready.function⟩, h.names,
    (after.spares_emit event hevent).calls.trans h.calls⟩

/-- The record of the method is none of a round. -/
theorem Continues.memoize {before after : World ν σ}
    (h : program.Continues closure owner method before after) :
    program.Continues closure owner method before
      (after.memoize owner program.function (.native method)) := by
  have hsize := World.size_memoize after owner program.function (.native method)
  refine ⟨⟨hsize.symm ▸ h.ready.closureMade, hsize.symm ▸ h.ready.ownerMade, .inr ?_⟩,
    fun index hindex => ?_, h.calls⟩
  · have hfunction := h.ready.function
    rw [World.memoized_eq] at hfunction ⊢
    rw [World.recordAt_memoize, if_pos ⟨rfl, rfl, h.ready.ownerMade⟩]
    rcases hfunction with hnone | hsome
    · rw [hnone, Option.getD_none]
    · rw [hsome, Option.getD_some]
  · rw [World.memoized_eq, World.recordAt_memoize,
      if_neg fun hsame => program.apart index hindex hsame.2.1]
    exact h.names index hindex

theorem Continues.trans {first second third : World ν σ}
    (h : program.Continues closure owner method first second)
    (h' : program.Continues closure owner method second third) :
    program.Continues closure owner method first third :=
  ⟨h'.ready, fun index hindex => (h'.names index hindex).trans (h.names index hindex),
    h'.calls.trans h.calls⟩

/-- What the name with this index is bound to has come to a result, with as many calls as the index
says. The names from the given one on have the records that they had. -/
structure Computes (program : Doubling ν) (closure owner : Scope ν) (method : Native ν)
    (view : Value ν → α) (double : α → α) (index least : Nat) (before : World ν σ)
    (result : Value ν) (after : World ν σ) : Prop where
  ready : program.Ready closure owner method after
  seen : view result = double^[index] (view program.start)
  names : ∀ other, least ≤ other → other ≤ program.rounds →
    after.memoized closure (program.name other) = before.memoized closure (program.name other)
  calls : ∃ made, after.calls = before.calls ++ made ∧ made.length = index ∧
    ∀ call ∈ made, call.1 = method

/-- The result of a name is recorded too. -/
structure Reaches (program : Doubling ν) (closure owner : Scope ν) (method : Native ν)
    (view : Value ν → α) (double : α → α) (index : Nat) (before : World ν σ) (result : Value ν)
    (after : World ν σ) : Prop
    extends program.Computes closure owner method view double index (index + 1) before result after
    where
  record : after.memoized closure (program.name index) = some (.value result)

variable {view : Value ν → α} {double : α → α} {index least : Nat} {before turn after : World ν σ}
  {result : Value ν}

/-- The first name is bound to the value itself. -/
theorem Continues.computes (h : program.Continues closure owner method before after) :
    program.Computes closure owner method view double 0 0 before program.start after :=
  ⟨h.ready, rfl, fun other _ hle => h.names other hle,
    [], by rw [h.calls, List.append_nil], rfl, nofun⟩

theorem Computes.of_continues
    (h : program.Computes closure owner method view double index least turn result after)
    (hturn : program.Continues closure owner method before turn) :
    program.Computes closure owner method view double index least before result after :=
  ⟨h.ready, h.seen, fun other hlt hle => (h.names other hlt hle).trans (hturn.names other hle),
    hturn.calls ▸ h.calls⟩

/-- The record of the result is the last thing that the resolution of a name does. -/
theorem Computes.memoize
    (h : program.Computes closure owner method view double index index before result turn)
    (hindex : index ≤ program.rounds)
    (hnone : before.memoized closure (program.name index) = none) :
    program.Reaches closure owner method view double index before result
      (turn.memoize closure (program.name index) (.value result)) := by
  have hother (scope : Scope ν) (name : String) (hname : program.name index ≠ name) :
      (turn.memoize closure (program.name index) (.value result)).memoized scope name =
        turn.memoized scope name := by
    rw [World.memoized_eq, World.recordAt_memoize, if_neg fun hsame => hname hsame.2.1.symm]
    rfl
  have hsize := World.size_memoize turn closure (program.name index) (.value result)
  have hturn := (h.names index (Nat.le_refl _) hindex).trans hnone
  refine ⟨⟨⟨hsize.symm ▸ h.ready.closureMade, hsize.symm ▸ h.ready.ownerMade, ?_⟩, h.seen,
    fun other hlt hle => ?_, h.calls⟩, ?_⟩
  · rw [hother _ _ (program.apart index hindex)]
    exact h.ready.function
  · rw [hother _ _ fun hsame => Nat.ne_of_lt hlt (program.distinct _ hindex _ hle hsame)]
    exact h.names other (Nat.le_of_lt hlt) hle
  · rw [World.memoized_eq] at hturn ⊢
    rw [World.recordAt_memoize, if_pos ⟨rfl, rfl, h.ready.closureMade⟩, hturn]
    rfl

theorem Computes.emit
    (h : program.Computes closure owner method view double index least before result after)
    (event : Event ν) (hevent : event.call? = none) :
    program.Computes closure owner method view double index least before result
      (after.emit event) :=
  ⟨⟨h.ready.closureMade, h.ready.ownerMade, h.ready.function⟩, h.seen, h.names,
    (after.spares_emit event hevent).calls ▸ h.calls⟩

theorem Reaches.emit
    (h : program.Reaches closure owner method view double index before result after)
    (event : Event ν) (hevent : event.call? = none) :
    program.Reaches closure owner method view double index before result (after.emit event) :=
  ⟨h.toComputes.emit event hevent, h.record⟩

/-- The call of the method on the result of a name, twice, computes what the next name is bound
to. -/
theorem Reaches.call {first : Value ν}
    (h : program.Reaches closure owner method view double index before first turn)
    (hview : view result = double (view first)) (hcall : turn.CallsOnce method after) :
    program.Computes closure owner method view double (index + 1) (index + 1) before result
      after := by
  obtain ⟨made, hmade, hcount, hmethods⟩ := h.calls
  obtain ⟨call, hmethod, hcalls⟩ := hcall.calls
  refine ⟨h.ready.keeps hcall.size hcall.records, ?_, fun other hlt hle => ?_, made ++ [call], ?_,
    ?_, ?_⟩
  · rw [hview, h.seen, Function.iterate_succ_apply']
  · rw [World.memoized_eq, hcall.records _ h.ready.closureMade]
    exact h.names other hlt hle
  · rw [hcalls, hmade, List.append_assoc]
  · rw [List.length_append, hcount, List.length_singleton]
  · intro other hother
    rcases List.mem_append.1 hother with hearlier | hlast
    · exact hmethods other hearlier
    · rw [List.mem_singleton.1 hlast]
      exact hmethod

end Doubling

namespace Engine

variable {engine : Engine ν σ} {program : Doubling ν} {closure owner : Scope ν}
  {method : Native ν} {view : Value ν → α} {double : α → α} {machine : Machine ν σ}

/-- The method's name takes two steps, with a record of it or without. -/
theorem function_takes (engine : Engine ν σ) (levels : Nat)
    (hclosed : program.Closed closure owner method)
    (hready : program.Ready closure owner method machine.world) :
    ((engine.nested (levels + 1)).resolve (.identifier program.function) closure).Takes
      engine.limits machine 2 (fun _ => True) fun head world =>
        head = .terminal (.native method) ∧
          program.Continues closure owner method machine.world world := by
  have hcounted := Doubling.Continues.of_spares hready
    (machine.world.spares_emit (.resolving (.identifier program.function)) rfl)
  have hresolved := hcounted.emit (.resolving (.native method)) rfl
  rcases hready.function with hnone | hsome
  · have hmethod : ((engine.nested (levels + 1)).resolve (.native method) owner).Takes engine.limits
        (machine.counted (.identifier program.function)) 1 (fun _ => True) fun head world =>
          head = .terminal (.native method) ∧
            program.Continues closure owner method machine.world world :=
      takes_terminal trivial (.native method) ⟨rfl, hresolved⟩
    refine takes_unrecorded trivial hclosed.function hnone hmethod ?_ ?_
    · rintro result world ⟨hresult, hworld⟩
      cases hresult
      exact ⟨rfl, hworld.memoize⟩
    · rintro scope world ⟨hscope, -⟩
      cases hscope
  · exact takes_recorded trivial trivial hclosed.function hsome ⟨rfl, hresolved⟩

/-- A round takes six steps beside those of the name before: the application, the method's name in
two, the second argument in two as it is recorded by then, and the result. -/
theorem round_takes (engine : Engine ν σ) (levels : Nat) {index : Nat} (machine : Machine ν σ)
    (hdoubles : engine.Doubles method view double)
    (hclosed : program.Closed closure owner method) (hindex : index ≤ program.rounds)
    (hready : program.Ready closure owner method machine.world)
    (hname : ∀ turn : Machine ν σ,
      program.Continues closure owner method machine.world turn.world →
      ((engine.nested (levels + 1)).resolve (.identifier (program.name index)) closure).Takes
        engine.limits turn (7 * index + 2) (fun _ => True) fun head world =>
          ∃ result, head = .terminal (.value result) ∧
            program.Reaches closure owner method view double index turn.world result world) :
    ((engine.nested (levels + 2)).resolve (program.bound (index + 1)) closure).Takes engine.limits
      machine (7 * index + 8) (fun _ => True) fun head world =>
        ∃ result, head = .terminal (.value result) ∧
          program.Computes closure owner method view double (index + 1) (index + 1) machine.world
            result world := by
  let counted := machine.counted (program.bound (index + 1))
  have hcounted := Doubling.Continues.of_spares hready
    (machine.world.spares_emit (.resolving (program.bound (index + 1))) rfl)
  have hfunction : ((engine.nested (levels + 1)).resolve (.identifier program.function)
      closure).Takes engine.limits counted 2 (fun _ => True) _ :=
    engine.function_takes levels hclosed hcounted.ready
  have hrest : ((engine.nested (levels + 1)).resolve (.identifier program.function) closure >>=
      fun head => engine.applyHead (engine.nested (levels + 1))
        [.identifier (program.name index), .identifier (program.name index)] closure head >>=
          engine.goOn (levels + 1)).Takes engine.limits counted (7 * index + 7) (fun _ => True)
        fun head world => ∃ result, head = .terminal (.value result) ∧
          program.Computes closure owner method view double (index + 1) (index + 1) machine.world
            result world := by
    refine (hfunction.bind fun head turn hhead => ?_).of_cost (Nat.add_comm 2 (7 * index + 5))
    obtain ⟨rfl, hturn⟩ := hhead
    have hstart := hcounted.trans hturn
    simp only [applyHead, Nested.resolveAll, bind_assoc, pure_bind]
    refine ((hname ⟨counted.steps + 2, turn⟩ hstart).bind fun head last hhead => ?_).of_cost
      (show 7 * index + 2 + 3 = 7 * index + 5 from rfl)
    obtain ⟨first, rfl, hfirst⟩ := hhead
    have hsecond : ((engine.nested (levels + 1)).resolve (.identifier (program.name index))
        closure).Takes engine.limits ⟨counted.steps + 2 + (7 * index + 2), last⟩ 2 (fun _ => True)
        fun head world => head = .terminal (.value first) ∧
          program.Reaches closure owner method view double index turn first world :=
      takes_recorded trivial trivial (hclosed.name index hindex) hfirst.record
        ⟨rfl, (hfirst.emit _ rfl).emit _ rfl⟩
    refine (hsecond.bind fun head world hhead => ?_).of_cost (show 2 + 1 = 3 from rfl)
    obtain ⟨rfl, hrecorded⟩ := hhead
    obtain ⟨result, after, hcall, hview, honce⟩ := hdoubles.callNative first closure
      ⟨counted.steps + 2 + (7 * index + 2) + 2, world⟩
    refine .bind_of_eq hcall (takes_terminal trivial (.value result) ⟨result, rfl, ?_⟩)
    exact (hrecorded.call hview (honce.emit _ rfl)).of_continues hstart
  exact resolve_takes trivial (resolve_operator · _ _) hrest

/-- A name takes a step more than what it is bound to, and the result is recorded. -/
theorem name_takes_of_bound {levels index cost : Nat}
    (hclosed : program.Closed closure owner method) (hindex : index ≤ program.rounds)
    (hnone : machine.world.memoized closure (program.name index) = none)
    (hbound : ((engine.nested (levels + 1)).resolve (program.bound index) closure).Takes
      engine.limits (machine.counted (.identifier (program.name index))) cost (fun _ => True)
      fun head world => ∃ result, head = .terminal (.value result) ∧
        program.Computes closure owner method view double index index machine.world result world) :
    ((engine.nested (levels + 1)).resolve (.identifier (program.name index)) closure).Takes
      engine.limits machine (cost + 1) (fun _ => True) fun head world =>
        ∃ result, head = .terminal (.value result) ∧
          program.Reaches closure owner method view double index machine.world result world := by
  refine takes_unrecorded trivial (hclosed.name index hindex) hnone hbound ?_ ?_
  · rintro result world ⟨value, hvalue, hworld⟩
    cases hvalue
    exact ⟨value, rfl, hworld.memoize hindex hnone⟩
  · rintro scope world ⟨value, hvalue, -⟩
    cases hvalue

/-- With all names up to this one without a record, the name takes seven steps for each round and
two. -/
theorem name_takes (hdoubles : engine.Doubles method view double)
    (hclosed : program.Closed closure owner method) {index : Nat} (hindex : index ≤ program.rounds)
    {levels : Nat} (hlevels : index ≤ levels)
    (hready : program.Ready closure owner method machine.world)
    (hunrecorded : ∀ other ≤ index, machine.world.memoized closure (program.name other) = none) :
    ((engine.nested (levels + 1)).resolve (.identifier (program.name index)) closure).Takes
      engine.limits machine (7 * index + 2) (fun _ => True) fun head world =>
        ∃ result, head = .terminal (.value result) ∧
          program.Reaches closure owner method view double index machine.world result world := by
  induction index generalizing levels machine with
  | zero =>
    have hnamed := Doubling.Continues.of_spares hready
      (machine.world.spares_emit (.resolving (.identifier (program.name 0))) rfl)
    exact name_takes_of_bound hclosed hindex (hunrecorded 0 (Nat.le_refl _)) (takes_terminal trivial
      (.value program.start) ⟨program.start, rfl, (hnamed.emit _ rfl).computes⟩)
  | succ index ih =>
    obtain ⟨levels, rfl⟩ := Nat.exists_eq_add_one.2 (Nat.zero_lt_of_lt hlevels)
    have hnamed := Doubling.Continues.of_spares hready
      (machine.world.spares_emit (.resolving (.identifier (program.name (index + 1)))) rfl)
    let named := machine.counted (.identifier (program.name (index + 1)))
    have hround := engine.round_takes levels named hdoubles hclosed (Nat.le_of_succ_le hindex)
      hnamed.ready fun turn hturn => ih (Nat.le_of_succ_le hindex) (Nat.le_of_succ_le_succ hlevels)
        hturn.ready fun other hle => ((hnamed.trans hturn).names other (by omega)).trans
          (hunrecorded other (by omega))
    refine name_takes_of_bound hclosed hindex (hunrecorded _ (Nat.le_refl _)) (hround.mono
      (fun _ h => h) fun head world hhead => ?_)
    obtain ⟨result, hresult, hworld⟩ := hhead
    exact ⟨result, hresult, hworld.of_continues hnamed⟩

/-- With fewer levels than rounds, the operator of some round is one level too deep. By then there
are two steps for the name and the application at each level, and two for the method's name at each
but the last. -/
theorem name_stops (hclosed : program.Closed closure owner method) {index levels : Nat}
    (hindex : index < program.rounds) (hlevels : levels ≤ index) {machine : Machine ν σ}
    (hready : program.Ready closure owner method machine.world)
    (hunrecorded : ∀ other ≤ index + 1,
      machine.world.memoized closure (program.name other) = none)
    (hsteps : machine.steps + (4 * levels + 2) ≤ engine.limits.maxSteps) :
    ((engine.nested (levels + 1)).resolve (.identifier (program.name (index + 1))) closure).Halts
      machine (.outOfDepth engine.limits.maxDepth) (machine.steps + (4 * levels + 2))
      fun _ => True := by
  induction levels generalizing index machine with
  | zero =>
    refine .of_eq (resolve_unrecorded (by omega) (hclosed.name (index + 1) hindex)
      (hunrecorded _ (Nat.le_refl _))) (Run.Halts.bind_left ?_ _)
    refine .of_eq (resolve_operator (show machine.steps + 1 < engine.limits.maxSteps by omega) _ _)
      (Run.Halts.bind_left ⟨_, rfl, trivial⟩ _)
  | succ levels ih =>
    obtain ⟨index, rfl⟩ := Nat.exists_eq_add_one.2 (Nat.zero_lt_of_lt hlevels)
    let named := machine.counted (.identifier (program.name (index + 2)))
    let counted := named.counted (program.bound (index + 2))
    have hcounted := (Doubling.Continues.of_spares hready
      (machine.world.spares_emit (.resolving (.identifier (program.name (index + 2)))) rfl)).emit
        (.resolving (program.bound (index + 2))) rfl
    have hfunction : ((engine.nested (levels + 1)).resolve (.identifier program.function)
        closure).Takes engine.limits counted 2 (fun _ => True) _ :=
      engine.function_takes levels hclosed hcounted.ready
    obtain ⟨head, turn, hrun, rfl, hturn⟩ := hfunction.done
      (show machine.steps + 2 + 2 ≤ engine.limits.maxSteps by omega)
    have hstart := hcounted.trans hturn
    have hinner : ((engine.nested (levels + 1)).resolve (.identifier (program.name (index + 1)))
        closure).Halts ⟨machine.steps + 2 + 2, turn⟩ _ _ _ :=
      ih (Nat.le_of_succ_le hindex) (Nat.le_of_succ_le_succ hlevels) hturn.ready
        (fun other hle => (hstart.names other (by omega)).trans (hunrecorded other (by omega)))
        (show machine.steps + 2 + 2 + (4 * levels + 2) ≤ engine.limits.maxSteps by omega)
    have htotal : machine.steps + 2 + 2 + (4 * levels + 2) =
        machine.steps + (4 * (levels + 1) + 2) := by omega
    rw [← htotal]
    refine .of_eq (resolve_unrecorded (by omega) (hclosed.name (index + 2) hindex)
      (hunrecorded _ (Nat.le_refl _))) (Run.Halts.bind_left ?_ _)
    refine .of_eq (resolve_operator (show machine.steps + 1 < engine.limits.maxSteps by omega) _ _)
      (Run.Halts.bind_right hrun ?_)
    rw [applyHead, Nested.resolveAll_cons]
    exact ((hinner.bind_left _).bind_left _).bind_left _

/-! ## The program -/

/-- The lambda is closed in its one step, and nothing is recorded in its closure. -/
theorem expr_takes (program : Doubling ν) (engine : Engine ν σ) (levels : Nat)
    (machine : Machine ν σ) {root : Scope ν}
    (hfind : root.find program.function = .ok (.native method, owner))
    (howner : machine.world.Stores owner)
    (hrecord : machine.world.memoized owner program.function = none) :
    ((engine.nested (levels + 2)).resolve program.expr root).Takes engine.limits machine 1
      (fun _ => True) fun head world => ∃ closure, head = .closure closure ∧
        program.Closed closure owner method ∧ program.Ready closure owner method world ∧
        (∀ index, world.memoized closure (program.name index) = none) ∧
        closure.body = .identifier (program.name program.rounds) ∧
        world.calls = machine.world.calls := by
  obtain ⟨closure, after, hclose, hclosure⟩ := engine.close_named levels root
    (machine.counted program.expr) (.identifier (program.name program.rounds))
    program.entries_plain program.entries_distinct
  have hcells : after = (World.emit _ (machine.counted program.expr).world).addFrames [closure] :=
    hclosure.world
  have hsize : after.size = machine.world.size + 1 := by
    rw [hcells, World.size_addFrames]
    rfl
  have hnumber : closure.number = machine.world.size := hclosure.number
  have hrecords (number : Nat) (name : String) :
      after.recordAt number name = machine.world.recordAt number name := by
    rw [hcells]
    exact World.recordAt_addFrames _ _ number name
  have hcalls : after.calls = machine.world.calls := by
    have hclosing := (machine.counted program.expr).world.spares_emit
      (.closing closure.bindings.size (.identifier (program.name program.rounds))) rfl
    rw [hcells]
    exact hclosing.calls.trans (machine.world.spares_emit (.resolving program.expr) rfl).calls
  have hready : program.Ready closure owner method after := by
    refine ⟨by omega, ?_, .inl ((hrecords _ _).trans hrecord)⟩
    have hlt := howner.lt_size
    omega
  exact takes_lambda trivial hclose ⟨closure, rfl, program.closed hclosure hfind, hready,
    fun index => (hrecords _ _).trans (World.recordAt_eq_none (Nat.le_of_eq hnumber.symm) _),
    hclosure.body, hcalls⟩

/-- What forcing the program comes to, if it comes to a value. -/
theorem expr_forced (program : Doubling ν) (engine : Engine ν σ)
    (hdoubles : engine.Doubles method view double) (hdepth : 1 ≤ engine.limits.maxDepth)
    (hrounds : program.rounds ≤ engine.limits.maxDepth)
    {root : Scope ν} (hfind : root.find program.function = .ok (.native method, owner))
    {world : World ν σ} (howner : world.Stores owner)
    (hrecord : world.memoized owner program.function = none) :
    (engine.forceLoop engine.limits.maxSteps program.expr root).Takes engine.limits ⟨0, world⟩
      (7 * program.rounds + 3) (fun _ => True) fun terminal last => ∃ result made,
        terminal = .value result ∧
        view result = double^[program.rounds] (view program.start) ∧
        last.calls = world.calls ++ made ∧ made.length = program.rounds ∧
        ∀ call ∈ made, call.1 = method := by
  obtain ⟨levels, hlevels⟩ := Nat.exists_eq_add_one.2 hdepth
  have htop := engine.resolveTop_eq hlevels
  have hexpr := engine.expr_takes program levels ⟨0, world⟩ hfind howner hrecord
  rw [forceLoop_eq, htop]
  refine (hexpr.bind fun head turn hhead => ?_).of_cost (Nat.add_comm 1 (7 * program.rounds + 2))
  obtain ⟨closure, rfl, hclosed, hready, hnone, hbody, hcalls⟩ := hhead
  have hforcing := Doubling.Continues.of_spares hready (turn.spares_emit (.forcing closure) rfl)
  have hname : ((engine.nested (levels + 2)).resolve
      (.identifier (program.name program.rounds)) closure).Takes engine.limits
        ⟨1, turn.emit (.forcing closure)⟩ (7 * program.rounds + 2) (fun _ => True) _ :=
    name_takes hdoubles hclosed (Nat.le_refl _) (hlevels ▸ hrounds) hforcing.ready
      fun other _ => hnone other
  refine .bind_of_eq rfl ?_
  rw [hbody, forceLoop_eq, htop]
  refine (hname.bind fun head last hhead => ?_).of_cost (Nat.add_zero _)
  obtain ⟨result, rfl, hresult⟩ := hhead
  obtain ⟨made, hmade, hcount, hmethods⟩ := hresult.calls
  exact .of_eq rfl ⟨result, made, rfl, hresult.seen,
    hmade.trans (congrArg (· ++ made) (hforcing.calls.trans hcalls)), hcount, hmethods⟩

/-- Forcing the program stops where a round is too deep. -/
theorem expr_stops (program : Doubling ν) (engine : Engine ν σ)
    (hdepth : 1 ≤ engine.limits.maxDepth) (hrounds : engine.limits.maxDepth < program.rounds)
    (hsteps : 4 * engine.limits.maxDepth + 3 ≤ engine.limits.maxSteps)
    {root : Scope ν} (hfind : root.find program.function = .ok (.native method, owner))
    {world : World ν σ} (howner : world.Stores owner)
    (hrecord : world.memoized owner program.function = none) :
    (engine.forceLoop engine.limits.maxSteps program.expr root).Halts ⟨0, world⟩
      (.outOfDepth engine.limits.maxDepth) (4 * engine.limits.maxDepth + 3) fun _ => True := by
  obtain ⟨levels, hlevels⟩ := Nat.exists_eq_add_one.2 hdepth
  have htop := engine.resolveTop_eq hlevels
  obtain ⟨last, hlast⟩ := Nat.exists_eq_add_one.2 (Nat.zero_lt_of_lt hrounds)
  have hexpr := engine.expr_takes program levels ⟨0, world⟩ hfind howner hrecord
  obtain ⟨head, turn, hrun, closure, rfl, hclosed, hready, hnone, hbody, -⟩ :=
    hexpr.done (show 0 + 1 ≤ engine.limits.maxSteps by omega)
  have hforcing := Doubling.Continues.of_spares hready (turn.spares_emit (.forcing closure) rfl)
  have htotal : 1 + (4 * (levels + 1) + 2) = 4 * engine.limits.maxDepth + 3 := by omega
  have hname : ((engine.nested (levels + 2)).resolve
      (.identifier (program.name program.rounds)) closure).Halts
        ⟨1, turn.emit (.forcing closure)⟩ (.outOfDepth engine.limits.maxDepth)
          (1 + (4 * (levels + 1) + 2)) fun _ => True := by
    rw [hlast]
    exact name_stops hclosed (by omega) (by omega) hforcing.ready (fun other _ => hnone other)
      (show 1 + (4 * (levels + 1) + 2) ≤ engine.limits.maxSteps by omega)
  rw [← htotal, forceLoop_eq, htop]
  refine .bind_right hrun (.bind_right rfl ?_)
  rw [hbody, forceLoop_eq, htop]
  exact hname.bind_left _

/-- The rounds are linear in steps, in native calls and in what is nested, though their names occur
twice each. -/
theorem doubling_linear (program : Doubling ν) (engine : Engine ν σ)
    (hdoubles : engine.Doubles method view double) (hdepth : 1 ≤ engine.limits.maxDepth)
    {root : Scope ν} (hfind : root.find program.function = .ok (.native method, owner))
    {world : World ν σ} (howner : world.Stores owner)
    (hrecord : world.memoized owner program.function = none) :
    let evaluated := engine.evaluate (.force program.expr root) world
    (program.rounds ≤ engine.limits.maxDepth → 7 * program.rounds + 3 ≤ engine.limits.maxSteps →
      ∃ result made, evaluated.reported = .ok (.value result) ∧
        view result = double^[program.rounds] (view program.start) ∧
        evaluated.steps = 7 * program.rounds + 3 ∧
        evaluated.world.calls = world.calls ++ made ∧ made.length = program.rounds ∧
        ∀ call ∈ made, call.1 = method) ∧
    (program.rounds ≤ engine.limits.maxDepth → engine.limits.maxSteps < 7 * program.rounds + 3 →
      evaluated.reported = .error (.stepBudgetExhausted engine.limits.maxSteps) ∧
        evaluated.steps = engine.limits.maxSteps + 1) ∧
    (engine.limits.maxDepth < program.rounds →
      4 * engine.limits.maxDepth + 3 ≤ engine.limits.maxSteps →
      evaluated.reported = .error (.recursionLimit engine.limits.maxDepth) ∧
        evaluated.steps = 4 * engine.limits.maxDepth + 3) := by
  intro evaluated
  refine ⟨fun hrounds hsteps => ?_, fun hrounds hsteps => ?_, fun hrounds hsteps => ?_⟩
  · obtain ⟨terminal, last, hrun, result, made, rfl, hview, hcalls, hcount, hmethods⟩ :=
      (engine.expr_forced program hdoubles hdepth hrounds hfind howner hrecord).done
        (show 0 + (7 * program.rounds + 3) ≤ engine.limits.maxSteps by omega)
    have hevaluated : evaluated = _ := evaluate_force hrun
    rw [hevaluated]
    exact ⟨result, made, rfl, hview, Nat.zero_add _, hcalls, hcount, hmethods⟩
  · obtain ⟨last, hrun, -⟩ :=
      (engine.expr_forced program hdoubles hdepth hrounds hfind howner hrecord).short
        (Nat.zero_le _) (show engine.limits.maxSteps < 0 + (7 * program.rounds + 3) by omega)
    have hevaluated : evaluated = _ := evaluate_force hrun
    rw [hevaluated]
    exact ⟨rfl, rfl⟩
  · obtain ⟨last, hrun, -⟩ :=
      engine.expr_stops program hdepth hrounds hsteps hfind howner hrecord
    have hevaluated : evaluated = _ := evaluate_force hrun
    rw [hevaluated]
    exact ⟨rfl, rfl⟩

end Engine

/-- Two payloads as they are shown. -/
def shownPayload (payload : Payload StandardNative) : Payload StandardNative :=
  .text (" ".intercalate [payload.display, payload.display])

def showMethod : Native StandardNative :=
  ⟨"show", .display⟩

theorem doubles_show (limits : Limits) :
    (standardHost.engine 1 limits).Doubles showMethod Value.payload shownPayload :=
  fun _ _ _ => ⟨_, _, rfl, rfl, Nat.le_refl _, fun _ _ _ => rfl, rfl⟩

/-- A number is shown twice, and then what that has come to. -/
def shownTwice : Doubling StandardNative where
  rounds := 2
  name
    | 0 => "x"
    | 1 => "y"
    | _ => "z"
  function := "show"
  start := ⟨.supplied 0, .integer .i64 7⟩
  plain := by decide
  distinct := by decide
  functionPlain := by decide
  apart := by decide

def rootOfShow : Scope StandardNative × World StandardNative HostState :=
  (World.initial .initial).newRoot (.ofList [("show", .native showMethod)])

/-- Two rounds with as many steps as they take, with one less, and with one level too few. -/
theorem doubling_linear_shown :
    let evaluated (limits : Limits) := (standardHost.engine 1 limits).evaluate
      (.force shownTwice.expr rootOfShow.1) rootOfShow.2
    (∃ result, (evaluated ⟨17, 2⟩).reported = .ok (.value result) ∧
      result.payload = .text "\"7 7\" \"7 7\"") ∧
      (evaluated ⟨17, 2⟩).steps = 17 ∧ (evaluated ⟨17, 2⟩).world.calls.length = 2 ∧
      (evaluated ⟨16, 2⟩).reported = .error (.stepBudgetExhausted 16) ∧
      (evaluated ⟨17, 1⟩).reported = .error (.recursionLimit 1) := by
  intro evaluated
  have hlinear (limits : Limits) (hdepth : 1 ≤ limits.maxDepth) :=
    (standardHost.engine 1 limits).doubling_linear shownTwice (doubles_show limits) hdepth
      (show rootOfShow.1.find "show" = .ok (.native showMethod, rootOfShow.1) from rfl)
      (show rootOfShow.2.Stores rootOfShow.1 from rfl) rfl
  obtain ⟨hdone, -, -⟩ := hlinear ⟨17, 2⟩ (by decide)
  obtain ⟨result, made, hreported, hpayload, hsteps, hcalls, hcount, -⟩ :=
    hdone (Nat.le_refl 2) (Nat.le_refl 17)
  obtain ⟨-, hshort, -⟩ := hlinear ⟨16, 2⟩ (by decide)
  obtain ⟨-, -, hdeep⟩ := hlinear ⟨17, 1⟩ (by decide)
  have hnone : rootOfShow.2.calls = [] := rfl
  refine ⟨⟨result, hreported, hpayload.trans rfl⟩, hsteps, ?_,
    (hshort (Nat.le_refl 2) (by decide)).1, (hdeep (by decide) (by decide)).1⟩
  rw [hcalls, hnone, List.nil_append, hcount]
  rfl

end CallByNeed
