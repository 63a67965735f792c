import CallByNeed.Proofs.Costs.Basic
import CallByNeed.Proofs.Names.Plain

/-! # Endless tail calls

Blocks that call one another in tail position, each handing its arguments on, never come to anything
(`TailCalls`). Every call is a loop's round: its operator and its arguments are resolved one level
deep, and the arguments are values again by then, so what the next call defers are values and not
the arguments of the call before (`Scope.IsHanded`). So all rounds cost the same and none of them is
nested in another, and the loop stops where the budget ends (`Engine.tail_calls_exhaust`).
-/

namespace CallByNeed
set_option autoImplicit false

variable {ν σ : Type}

/-! ## Families of tail calls -/

/-- Blocks under different plain names, each of which calls another one, or itself, with all of its
arguments. -/
structure TailCalls (ν : Type) where
  last : Nat
  name : Fin (last + 1) → String
  next : Fin (last + 1) → Fin (last + 1)
  /-- What the first call is made with. -/
  values : List (Value ν)
  plain : ∀ index, positional? (name index) = none
  distinct : Function.Injective name

namespace TailCalls

variable (family : TailCalls ν)

def arity : Nat := family.values.length

/-- All arguments of a block, by their names. -/
def passed : List (Expr ν) :=
  (List.range family.arity).map fun position => .identifier (argumentName position)

/-- The call of the next block with the arguments as they are. -/
def handOn (index : Fin (family.last + 1)) : Expr ν :=
  .application (.identifier (family.name (family.next index))) family.passed

def entries : List (String × Expr ν) :=
  (List.finRange (family.last + 1)).map fun index =>
    (family.name index, .block (family.handOn index))

/-- The first call, with the values. -/
def start : Expr ν :=
  .application (.identifier (family.name 0)) (family.values.map .value)

def program : Expr ν :=
  .lambda (Lambda.items (Lambda.named family.entries) family.start)

/-- So many steps are taken from one call to the next: three for the application and its operator,
and three for each argument. -/
def period : Nat := 3 * family.arity + 3

/-- The calls that the budget allows for: the first after the steps of the lambda, the application,
the name of its operator, the block and the values, and then one in each period. -/
def callsWithin (maxSteps : Nat) : Nat :=
  if maxSteps < family.arity + 4 then 0 else (maxSteps - (family.arity + 4)) / family.period + 1

theorem mem_entries (index : Fin (family.last + 1)) :
    (family.name index, .block (family.handOn index)) ∈ family.entries :=
  List.mem_map_of_mem (List.mem_finRange index)

theorem entries_plain : ∀ entry ∈ family.entries, positional? entry.1 = none := by
  intro entry hentry
  obtain ⟨index, -, rfl⟩ := List.mem_map.1 hentry
  exact family.plain index

theorem entries_distinct : (family.entries.map Prod.fst).Nodup := by
  have hnames : family.entries.map Prod.fst =
      (List.finRange (family.last + 1)).map family.name := List.map_map
  rw [hnames]
  exact (List.nodup_finRange _).map family.distinct

/-- The blocks are found in the closure from this scope. -/
def FoundFrom (closure scope : Scope ν) : Prop :=
  ∀ index, scope.find (family.name index) = .ok (.block (family.handOn index), closure)

/-- Nothing is recorded for the names of the blocks. -/
def Unrecorded (closure : Scope ν) (world : World ν σ) : Prop :=
  ∀ index, world.memoized closure (family.name index) = none

variable {family}

theorem foundFrom_closure {closure scope : Scope ν} {body : Expr ν} {before after : World ν σ}
    (h : closure.ClosedOver family.entries body scope before after) :
    family.FoundFrom closure closure := fun index =>
  Scope.find_own (h.table.find_of_mem family.entries_distinct (family.mem_entries index))
    (family.plain index)

/-- The frame of a call finds the blocks where the called block lies. -/
theorem FoundFrom.call {closure block : Scope ν} (h : family.FoundFrom closure closure)
    (hparent : block.parent? = some closure) (hbindings : block.bindings = .empty) (number : Nat)
    (arguments : List (Expr ν)) : family.FoundFrom closure (.call number block arguments) := by
  intro index
  have hnone : (Scope.call number block arguments).bindings.find? (family.name index) = none := by
    show block.bindings.find? _ = none
    rw [hbindings]
    rfl
  have houter : (Scope.call number block arguments).parent? = some closure := hparent
  exact (Scope.find_outer houter (family.plain index) hnone).trans (h index)

end TailCalls

/-! ## Frames that are handed values -/

/-- The arguments of the frame are thunks of the values themselves. An index beyond the largest one
has no name of its own. -/
def Scope.IsHanded (frame : Scope ν) (values : List (Value ν)) : Prop :=
  ∃ thunks : List (Scope ν), frame.arguments? = some (thunks.map .scope) ∧
    thunks.length = values.length ∧
    ∀ position value, position ≤ largestIndex → values[position]? = some value →
      ∃ thunk, thunks[position]? = some thunk ∧ thunk.kind = .thunk ∧ thunk.body = .value value

/-- Each argument that has a name is resolved to its value in exactly so many steps, by any engine
that may take them and in any world that has no record of it. -/
def Scope.ArgumentsTake (σ : Type) (frame : Scope ν) (cost : Nat) (values : List (Value ν)) :
    Prop :=
  ∀ (engine : Engine ν σ) (world : World ν σ) (position : Nat) (value : Value ν),
    cost ≤ engine.limits.maxSteps → position ≤ largestIndex → values[position]? = some value →
    world.memoized frame (argumentName position) = none →
    let evaluated := engine.evaluate (.resolve (.identifier (argumentName position)) frame) world
    evaluated.reported = .ok (.value value) ∧ evaluated.steps = cost

/-- The values that the names of arguments stand for, where so many arguments are named. -/
def handedOn {α : Type} (values : List α) : List α :=
  List.ofFn fun position : Fin values.length =>
    values.get ⟨min position.val largestIndex,
      Nat.lt_of_le_of_lt (Nat.min_le_left _ _) position.isLt⟩

theorem length_handedOn {α : Type} (values : List α) :
    (handedOn values).length = values.length :=
  List.length_ofFn

theorem getElem?_handedOn {α : Type} {values : List α} {position : Nat}
    (h : position < values.length) :
    (handedOn values)[position]? = values[min position largestIndex]? := by
  have hmin : min position largestIndex < values.length :=
    Nat.lt_of_le_of_lt (Nat.min_le_left _ _) h
  rw [handedOn, List.getElem?_ofFn, dif_pos h, List.getElem?_eq_getElem hmin]
  rfl

theorem getElem?_handedOn_of_le {α : Type} {values : List α} {position : Nat}
    (h : position ≤ largestIndex) : (handedOn values)[position]? = values[position]? := by
  by_cases hposition : position < values.length
  · rw [getElem?_handedOn hposition, Nat.min_eq_left h]
  · have hvalues := Nat.not_lt.1 hposition
    rw [List.getElem?_eq_none hvalues,
      List.getElem?_eq_none (Nat.le_trans (Nat.le_of_eq (length_handedOn values)) hvalues)]

namespace Scope

theorem getElem?_thunks (number : Nat) (calling : Scope ν) (arguments : List (Expr ν))
    (position : Nat) :
    (Scope.thunks number calling arguments)[position]? =
      arguments[position]?.map fun argument => .thunk (number + position) argument calling := by
  rw [thunks, List.getElem?_map, List.getElem?_zipIdx, Option.map_map]
  rfl

/-- A call with the values, up to those without a name, makes such a frame. -/
theorem isHanded_call {values handed : List (Value ν)} (hlength : handed.length = values.length)
    (hvalues : ∀ position ≤ largestIndex, handed[position]? = values[position]?)
    (number first : Nat) (block calling : Scope ν) :
    (Scope.call number block
      ((Scope.thunks first calling (handed.map .value)).map .scope)).IsHanded values := by
  refine ⟨_, rfl, ?_, fun position value hposition hvalue => ?_⟩
  · rw [thunks, List.length_map, List.length_zipIdx, List.length_map, hlength]
  · refine ⟨.thunk (first + position) (.value value) calling, ?_, rfl, rfl⟩
    rw [getElem?_thunks, List.getElem?_map, hvalues position hposition, hvalue]
    rfl

end Scope

/-- A call with the values makes one such frame, in which nothing is recorded, and leaves all
records as they are. -/
theorem Run.call_hands {values handed : List (Value ν)} (hlength : handed.length = values.length)
    (hvalues : ∀ position ≤ largestIndex, handed[position]? = values[position]?)
    (block calling : Scope ν) (machine : Machine ν σ) :
    ∃ number thunks world, Run.call block (handed.map .value) calling machine =
        (.ok (.call number block thunks), ⟨machine.steps, world⟩) ∧
      (Scope.call number block thunks).IsHanded values ∧
      world.callFrames = machine.world.callFrames ++ [.call number block thunks] ∧
      (∀ other name, world.recordAt other name = machine.world.recordAt other name) ∧
      machine.world.size ≤ number := by
  have hcall := World.newCall_eq machine.world block calling (handed.map .value)
  have hframes := machine.world.callFrames_newCall block calling (handed.map .value)
  have hrun := Engine.call_apply block (handed.map .value) calling machine
  rw [hcall] at hframes hrun
  refine ⟨_, _, _, hrun, Scope.isHanded_call hlength hvalues _ _ block calling, hframes,
    fun other name => ?_, Nat.le_add_right _ _⟩
  exact World.recordAt_addFrames _ machine.world other name

namespace World

/-- So many calls are made, each of them with the values. -/
def MakesCalls (values : List (Value ν)) (count : Nat) (before after : World ν σ) : Prop :=
  ∃ made, after.callFrames = before.callFrames ++ made ∧ made.length = count ∧
    ∀ frame ∈ made, frame.IsHanded values

namespace MakesCalls

variable {values : List (Value ν)} {before middle after : World ν σ} {count : Nat}

theorem none (h : after.callFrames = before.callFrames) : before.MakesCalls values 0 after :=
  ⟨[], by rw [h, List.append_nil], rfl, nofun⟩

theorem call {frame : Scope ν} (hframe : frame.IsHanded values)
    (hfirst : middle.callFrames = before.callFrames ++ [frame])
    (h : middle.MakesCalls values count after) : before.MakesCalls values (count + 1) after := by
  obtain ⟨made, hframes, hcount, hmade⟩ := h
  refine ⟨frame :: made, ?_, ?_, ?_⟩
  · rw [hframes, hfirst, List.append_assoc, List.singleton_append]
  · rw [List.length_cons, hcount]
  · rintro other hother
    rcases List.mem_cons.1 hother with rfl | hlater
    · exact hframe
    · exact hmade other hlater

end MakesCalls

/-- The same records and the same frames of calls. -/
structure Retains (before after : World ν σ) : Prop where
  records : ∀ number name, after.recordAt number name = before.recordAt number name
  calls : after.callFrames = before.callFrames

end World

namespace TailCalls

/-- While arguments are resolved, those from this position on are without a record, as are the names
of the blocks. -/
structure Handing (family : TailCalls ν) (closure frame : Scope ν) (before : World ν σ)
    (position : Nat) (world : World ν σ) : Prop where
  calls : world.callFrames = before.callFrames
  names : family.Unrecorded closure world
  arguments : ∀ later, position ≤ later → world.memoized frame (argumentName later) = none

namespace Handing

variable {family : TailCalls ν} {closure frame : Scope ν} {before turn after : World ν σ}
  {position : Nat} (h : family.Handing closure frame before position turn)
include h

theorem retains (hafter : turn.Retains after) :
    family.Handing closure frame before position after where
  calls := hafter.calls.trans h.calls
  names index := (hafter.records _ _).trans (h.names index)
  arguments later hlater := (hafter.records _ _).trans (h.arguments later hlater)

theorem memoize (result : Terminal ν) :
    family.Handing closure frame before (position + 1)
      (turn.memoize frame (argumentName position) result) := by
  have hother (scope : Scope ν) (name : String) (hname : argumentName position ≠ name) :
      (turn.memoize frame (argumentName position) result).memoized scope name =
        turn.memoized scope name := by
    rw [World.memoized_eq, World.recordAt_memoize, if_neg fun hsame => hname hsame.2.1.symm]
    rfl
  refine ⟨(World.callFrames_of_frames (World.scopeAt_memoize turn frame _ result)).trans h.calls,
    fun index => ?_, fun later hlater => ?_⟩
  · rw [hother _ _ (argumentName_ne_of_plain (family.plain index) position)]
    exact h.names index
  · rw [hother _ _ fun hsame => Nat.ne_of_lt hlater (argumentName_injective hsame)]
    exact h.arguments later (Nat.le_of_succ_le hlater)

end Handing
end TailCalls

/-! ## A call -/

namespace Engine

variable {engine : Engine ν σ} {levels : Nat} {machine : Machine ν σ} {scope : Scope ν}

/-- An argument of a frame that is handed values is resolved in three steps: those of its name, of
the thunk and of the value. It is recorded for the frame. -/
theorem argument_takes {frame : Scope ν} {values : List (Value ν)} (hframe : frame.IsHanded values)
    {position : Nat} {value : Value ν} (hvalue : values[min position largestIndex]? = some value)
    (hrecord : machine.world.memoized frame (argumentName position) = none)
    {cut : World ν σ → Prop} (hcut : ∀ world, machine.world.Retains world → cut world) :
    ((engine.nested (levels + 1)).resolve (.identifier (argumentName position)) frame).Takes
      engine.limits machine 3 cut fun head world => head = .terminal (.value value) ∧
        ∃ turn, machine.world.Retains turn ∧
          world = turn.memoize frame (argumentName position) (.value value) := by
  obtain ⟨thunks, harguments, -, hthunks⟩ := hframe
  obtain ⟨thunk, hthunk, hkind, hbody⟩ := hthunks _ value (Nat.min_le_right _ _) hvalue
  have hfind : frame.find (argumentName position) = .ok (.scope thunk, frame) := by
    refine Scope.find_argument (positional?_argumentName position) harguments ?_
    rw [List.getElem?_map, hthunk]
    rfl
  have hretains (world : World ν σ) (hcells : world.cells = machine.world.cells) :
      machine.world.Retains world :=
    ⟨World.recordAt_of_cells hcells, World.callFrames_of_frames (World.scopeAt_of_cells hcells)⟩
  let named := machine.counted (.identifier (argumentName position))
  have hstart := hcut machine.world (hretains machine.world rfl)
  have hnamed := hcut named.world (hretains named.world rfl)
  have hentered := hcut (named.counted (.scope thunk)).world (hretains _ rfl)
  have hvalue : ((engine.nested (levels + 1)).resolve thunk.body (thunk.parent?.getD thunk)).Takes
      engine.limits (named.counted (.scope thunk)) 1 cut fun head world =>
        head = .terminal (.value value) ∧ machine.world.Retains world := by
    rw [hbody]
    exact takes_terminal hentered (.value value) ⟨rfl, hretains _ rfl⟩
  have hthunk : ((engine.nested (levels + 1)).resolve (.scope thunk) frame).Takes engine.limits
      named 2 cut fun head world =>
        head = .terminal (.value value) ∧ machine.world.Retains world :=
    takes_thunk hnamed hkind hvalue
  refine takes_unrecorded hstart hfind hrecord hthunk ?_ ?_
  · rintro result world ⟨hresult, hworld⟩
    cases hresult
    exact ⟨rfl, world, hworld, rfl⟩
  · rintro closure world ⟨hclosure, -⟩
    cases hclosure

/-- Arguments of a frame that is handed values take three steps each. -/
theorem argumentsTake_of_isHanded {frame : Scope ν} {values : List (Value ν)}
    (hframe : frame.IsHanded values) : frame.ArgumentsTake σ 3 values := by
  intro engine world position value hsteps hposition hvalue hrecord evaluated
  have hindex : values[min position largestIndex]? = some value := by
    rwa [Nat.min_eq_left hposition]
  have htakes : (engine.resolveTop (.identifier (argumentName position)) frame).Takes engine.limits
      ⟨0, world⟩ 3 (fun _ => True) _ :=
    argument_takes hframe hindex hrecord fun _ _ => trivial
  obtain ⟨head, after, hrun, rfl, -⟩ := htakes.done hsteps
  have hevaluated : evaluated = _ := evaluate_resolve hrun
  rw [hevaluated]
  exact ⟨rfl, rfl⟩

/-- A block's name is resolved in two steps, and to a new closure each time. -/
theorem block_takes {name : String} {body : Expr ν} {owner : Scope ν}
    (hfind : scope.find name = .ok (.block body, owner))
    (hrecord : machine.world.memoized owner name = none) :
    ((engine.nested (levels + 1)).resolve (.identifier name) scope).Takes engine.limits machine 2
      (fun world => machine.world.Retains world) fun head world =>
        machine.world.Retains world ∧ ∃ block, head = .closure block ∧
          block.parent? = some owner ∧ block.bindings = .empty ∧ block.body = body := by
  let named := machine.counted (.identifier name)
  obtain ⟨block, after, hclose, hblock⟩ :=
    engine.close_block levels owner (named.counted (.block body)) body
  have hafter : machine.world.Retains after := by
    rw [hblock.world]
    refine ⟨fun number label => World.recordAt_addFrames _ _ number label, ?_⟩
    have hkind : decide (block.kind = .call) = false := by rw [hblock.kind]; rfl
    rw [World.callFrames_addFrames, List.filter_singleton, hkind]
    exact List.append_nil _
  have hbound : ((engine.nested (levels + 1)).resolve (.block body) owner).Takes engine.limits
      named 1 (fun world => machine.world.Retains world) fun head world =>
        machine.world.Retains world ∧ ∃ block, head = .closure block ∧
          block.parent? = some owner ∧ block.bindings = .empty ∧ block.body = body :=
    takes_lambda ⟨fun _ _ => rfl, rfl⟩ hclose
      ⟨hafter, block, rfl, hblock.parent, hblock.table.unique .empty, hblock.body⟩
  refine takes_unrecorded ⟨fun _ _ => rfl, rfl⟩ hfind hrecord hbound ?_ fun _ _ h => h
  rintro result world ⟨-, block, hhead, -⟩
  cases hhead

/-- Values come to themselves, at a step each. -/
theorem values_take (engine : Engine ν σ) (levels : Nat) (machine : Machine ν σ)
    (scope : Scope ν) (values : List (Value ν)) :
    ((engine.nested (levels + 1)).resolveAll scope (values.map .value)).Takes engine.limits machine
      values.length (fun world => machine.world.Retains world)
      fun heads world => heads = values.map .value ∧ machine.world.Retains world := by
  have hvalue (position : Nat) (argument result : Expr ν)
      (hargument : (values.map Expr.value)[position]? = some argument)
      (hresult : (values.map Expr.value)[position]? = some result) (turn : Machine ν σ)
      (hturn : machine.world.Retains turn.world) :
      ((engine.nested (levels + 1)).resolve argument scope).Takes engine.limits turn 1
        (fun world => machine.world.Retains world)
        fun head world => head.toExpr = result ∧ machine.world.Retains world := by
    obtain rfl := Option.some.inj (hargument.symm.trans hresult)
    rw [List.getElem?_map] at hargument
    obtain ⟨value, -, rfl⟩ := Option.map_eq_some_iff.1 hargument
    exact takes_terminal hturn (.value value) ⟨rfl, hturn.records, hturn.calls⟩
  have hall := Nested.resolveAll_takes rfl hvalue ⟨fun _ _ => rfl, rfl⟩
  rwa [List.length_map, Nat.one_mul] at hall

section Calls

variable {family : TailCalls ν} {closure : Scope ν}

/-- The arguments of a frame that is handed values come to these values, at three steps each, and
the names of the blocks are still without a record then. -/
theorem arguments_take (engine : Engine ν σ) (levels : Nat) (machine : Machine ν σ)
    {frame : Scope ν} (hframe : frame.IsHanded family.values)
    (hunrecorded : family.Unrecorded closure machine.world)
    (hfresh : ∀ name, machine.world.memoized frame name = none) :
    ((engine.nested (levels + 1)).resolveAll frame family.passed).Takes engine.limits machine
      (3 * family.arity) (fun world => world.callFrames = machine.world.callFrames)
      fun heads world => heads = (handedOn family.values).map .value ∧
        world.callFrames = machine.world.callFrames ∧ family.Unrecorded closure world := by
  have hlength : family.passed.length = ((handedOn family.values).map Expr.value).length := by
    rw [TailCalls.passed, List.length_map, List.length_range, List.length_map, length_handedOn,
      TailCalls.arity]
  have hstart : family.Handing closure frame machine.world 0 machine.world :=
    ⟨rfl, hunrecorded, fun later _ => hfresh (argumentName later)⟩
  have hargument (position : Nat) (argument result : Expr ν)
      (hargument : family.passed[position]? = some argument)
      (hresult : ((handedOn family.values).map Expr.value)[position]? = some result)
      (turn : Machine ν σ)
      (hturn : family.Handing closure frame machine.world position turn.world) :
      ((engine.nested (levels + 1)).resolve argument frame).Takes engine.limits turn 3
        (fun world => world.callFrames = machine.world.callFrames) fun head world =>
          head.toExpr = result ∧
            family.Handing closure frame machine.world (position + 1) world := by
    rw [TailCalls.passed, List.getElem?_map] at hargument
    obtain ⟨_, hrange, rfl⟩ := Option.map_eq_some_iff.1 hargument
    obtain ⟨hposition, rfl⟩ := List.getElem?_eq_some_iff.1 hrange
    rw [List.length_range] at hposition
    rw [List.getElem?_map, getElem?_handedOn hposition] at hresult
    obtain ⟨value, hvalue, rfl⟩ := Option.map_eq_some_iff.1 hresult
    rw [List.getElem_range]
    refine (argument_takes hframe hvalue (hturn.arguments position (Nat.le_refl _))
      fun world hworld => hworld.calls.trans hturn.calls).mono (fun _ h => h)
      fun head world h => ?_
    obtain ⟨rfl, after, hafter, rfl⟩ := h
    exact ⟨rfl, (hturn.retains hafter).memoize (.value value)⟩
  have hall := Nested.resolveAll_takes hlength hargument hstart
  rw [TailCalls.passed, List.length_map, List.length_range] at hall
  exact hall.mono (fun _ h => h) fun heads world h => ⟨h.1, h.2.calls, h.2.names⟩

variable (hcloses : family.FoundFrom closure closure)
include hcloses

/-- A call of a block exhausts the budget if what the block does then does, or if the budget ends
before the call is made. -/
theorem call_exhausts {arguments : List (Expr ν)} (cost : Nat) {count : Nat}
    {index : Fin (family.last + 1)} (hle : machine.steps ≤ engine.limits.maxSteps)
    (hfound : family.FoundFrom closure scope)
    (hunrecorded : family.Unrecorded closure machine.world)
    (harguments : ∀ world, machine.world.Retains world →
      ((engine.nested (levels + 1)).resolveAll scope arguments).Takes engine.limits
        ⟨machine.steps + 3, world⟩ cost (fun last => last.callFrames = world.callFrames)
        fun heads last => last.callFrames = world.callFrames ∧
          family.Unrecorded closure last ∧ ∃ handed : List (Value ν), heads = handed.map .value ∧
            handed.length = family.values.length ∧
            ∀ position ≤ largestIndex, handed[position]? = family.values[position]?)
    (hshort : engine.limits.maxSteps < machine.steps + 3 + cost → count = 0)
    (hbody : ∀ frame world, machine.steps + 3 + cost ≤ engine.limits.maxSteps →
      family.FoundFrom closure frame → frame.IsHanded family.values →
      family.Unrecorded closure world →
      (∀ name, world.memoized frame name = none) → ∃ later, count = later + 1 ∧
        ((engine.nested (levels + 2)).resolve (family.handOn index) frame).Exhausts engine.limits
          ⟨machine.steps + 3 + cost, world⟩ (world.MakesCalls family.values later)) :
    ((engine.nested (levels + 2)).resolve (.application (.identifier (family.name index)) arguments)
      scope).Exhausts engine.limits machine (machine.world.MakesCalls family.values count) := by
  have hcut (world : World ν σ) (hcount : count = 0)
      (hcalls : world.callFrames = machine.world.callFrames) :
      machine.world.MakesCalls family.values count world := hcount ▸ .none hcalls
  refine resolve_exhausts hle (fun hmax => hcut _ (hshort (by omega)) rfl)
    (resolve_operator · _ arguments) fun hlimit => ?_
  let counted := machine.counted (.application (.identifier (family.name index)) arguments)
  have hoperator : ((engine.nested (levels + 1)).resolve (.identifier (family.name index))
      scope).Takes engine.limits counted 2 _ _ := block_takes (hfound index) (hunrecorded index)
  refine hoperator.bind_exhausts hlimit (fun hmax world hworld => hcut world (hshort ?_)
    hworld.calls) fun head world hdone hhead => ?_
  · have hmax : engine.limits.maxSteps < machine.steps + 1 + 2 := hmax
    omega
  obtain ⟨hretains, block, rfl, hparent, hbindings, hblock⟩ := hhead
  rw [applyHead, bind_assoc]
  refine (harguments world ⟨hretains.records, hretains.calls⟩).bind_exhausts hdone
    (fun hmax last hcalls => hcut last (hshort hmax) (hcalls.trans hretains.calls))
    fun heads last hmade hheads => ?_
  obtain ⟨hcalls, hnames, handed, rfl, hlength, hvalues⟩ := hheads
  obtain ⟨number, thunks, after, hcall, hhanded, hframes, hrecords, hnew⟩ :=
    Run.call_hands hlength hvalues block scope ⟨machine.steps + 3 + cost, last⟩
  obtain ⟨later, rfl, hrest⟩ := hbody (.call number block thunks) after hmade
    (hcloses.call hparent hbindings number thunks) hhanded
    (fun other => (hrecords _ _).trans (hnames other))
    fun name => (hrecords number name).trans (World.recordAt_eq_none hnew name)
  rw [bind_assoc]
  refine .bind_right hcall (Run.Halts.mono ?_ fun world hworld =>
    .call hhanded (hframes.trans (congrArg (· ++ _) (hcalls.trans hretains.calls))) hworld)
  rw [pure_bind, goOn, show (Scope.call number block thunks).body = family.handOn index from hblock]
  exact hrest

/-- What a called block does exhausts the budget, with a call in each period that is left. -/
theorem handOn_exhausts {frame : Scope ν} {index : Fin (family.last + 1)}
    (hle : machine.steps ≤ engine.limits.maxSteps) (hfound : family.FoundFrom closure frame)
    (hframe : frame.IsHanded family.values) (hunrecorded : family.Unrecorded closure machine.world)
    (hfresh : ∀ name, machine.world.memoized frame name = none) :
    ((engine.nested (levels + 2)).resolve (family.handOn index) frame).Exhausts engine.limits
      machine (machine.world.MakesCalls family.values
        ((engine.limits.maxSteps - machine.steps) / family.period)) := by
  induction hleft : engine.limits.maxSteps - machine.steps using Nat.strong_induction_on
    generalizing frame index machine with
  | _ left ih =>
    have hperiod : machine.steps + 3 + 3 * family.arity = machine.steps + family.period := by
      rw [TailCalls.period]
      omega
    have hpositive : 0 < family.period := Nat.succ_pos _
    refine call_exhausts hcloses (3 * family.arity) hle hfound hunrecorded (fun world hworld => ?_)
      (fun hshort => ?_) fun next world hdone hnext hhanded hnames hnew => ?_
    · have htake := engine.arguments_take levels ⟨machine.steps + 3, world⟩ hframe
        (fun other => (hworld.records _ _).trans (hunrecorded other))
        fun name => (hworld.records _ _).trans (hfresh name)
      exact htake.mono (fun _ h => h) fun heads last hheads => ⟨hheads.2.1, hheads.2.2,
        handedOn family.values, hheads.1, length_handedOn _,
        fun position hposition => getElem?_handedOn_of_le hposition⟩
    · rw [hperiod] at hshort
      exact Nat.div_eq_of_lt (by omega)
    · rw [hperiod] at hdone ⊢
      refine ⟨(left - family.period) / family.period, ?_, ?_⟩
      · rw [Nat.div_eq_sub_div hpositive (by omega)]
      · exact ih (left - family.period) (by omega) hdone hnext hhanded hnames hnew
          (show engine.limits.maxSteps - (machine.steps + family.period) = _ by omega)

end Calls

/-! ## The program -/

/-- The lambda is closed in its one step, and the blocks are found in its closure. -/
theorem program_takes (family : TailCalls ν) (engine : Engine ν σ) (levels : Nat)
    (root : Scope ν) (machine : Machine ν σ) :
    ((engine.nested (levels + 2)).resolve family.program root).Takes engine.limits machine 1
      (fun world => machine.world.Retains world) fun head world => machine.world.Retains world ∧
        ∃ closure, head = .closure closure ∧ family.FoundFrom closure closure ∧
          family.Unrecorded closure world ∧ closure.body = family.start := by
  obtain ⟨closure, after, hclose, hclosure⟩ := engine.close_named levels root
    (machine.counted family.program) family.start family.entries_plain family.entries_distinct
  have hrecords (number : Nat) (name : String) :
      after.recordAt number name = machine.world.recordAt number name := by
    rw [hclosure.world]
    exact World.recordAt_addFrames _ _ number name
  have hkind : decide (closure.kind = .call) = false := by rw [hclosure.kind]; rfl
  have hcalls : after.callFrames = machine.world.callFrames := by
    rw [hclosure.world, World.callFrames_addFrames, List.filter_singleton, hkind]
    exact List.append_nil _
  have hnew : machine.world.size ≤ closure.number := Nat.le_of_eq hclosure.number.symm
  refine takes_lambda ⟨fun _ _ => rfl, rfl⟩ hclose ⟨⟨hrecords, hcalls⟩, closure, rfl,
    TailCalls.foundFrom_closure hclosure, fun index => ?_, hclosure.body⟩
  exact (hrecords _ _).trans (World.recordAt_eq_none hnew _)

theorem start_exhausts {family : TailCalls ν} {levels : Nat} {machine : Machine ν σ}
    {closure : Scope ν} (hcloses : family.FoundFrom closure closure)
    (hunrecorded : family.Unrecorded closure machine.world) (hfirst : machine.steps = 1)
    (hle : 1 ≤ engine.limits.maxSteps) :
    ((engine.nested (levels + 2)).resolve family.start closure).Exhausts engine.limits machine
      (machine.world.MakesCalls family.values (family.callsWithin engine.limits.maxSteps)) := by
  have hcost : machine.steps + 3 + family.values.length = family.arity + 4 := by
    rw [TailCalls.arity, hfirst]
    omega
  refine call_exhausts hcloses family.values.length (hfirst ▸ hle) hcloses hunrecorded
    (fun world hworld => ?_) (fun hshort => ?_)
    fun frame world hdone hfound hframe hnames hfresh => ?_
  · have htake := engine.values_take levels ⟨machine.steps + 3, world⟩ closure family.values
    exact htake.mono (fun last hlast => hlast.calls) fun heads last hheads =>
      ⟨hheads.2.calls, fun index => (hheads.2.records _ _).trans ((hworld.records _ _).trans
        (hunrecorded index)), family.values, hheads.1, rfl, fun _ _ => rfl⟩
  · rw [hcost] at hshort
    exact if_pos hshort
  · rw [hcost] at hdone ⊢
    refine ⟨_, if_neg (Nat.not_lt.2 hdone), ?_⟩
    exact handOn_exhausts hcloses hdone hfound hframe hnames hfresh

/-- Blocks that call one another for ever, handing on their arguments, take the steps that there are
and nothing nested. Each of the calls made defers the values themselves, whatever number of calls
has handed them on, so to resolve an argument for the first time takes three steps in every call. -/
theorem tail_calls_exhaust (family : TailCalls ν) (engine : Engine ν σ)
    (hdepth : 1 ≤ engine.limits.maxDepth) (root : Scope ν) (world : World ν σ) :
    let evaluated := engine.evaluate (.force family.program root) world
    evaluated.reported = .error (.stepBudgetExhausted engine.limits.maxSteps) ∧
      evaluated.steps = engine.limits.maxSteps + 1 ∧
      ∃ made, evaluated.world.callFrames = world.callFrames ++ made ∧
        made.length = family.callsWithin engine.limits.maxSteps ∧
        ∀ frame ∈ made, frame.IsHanded family.values ∧
          frame.ArgumentsTake σ 3 family.values := by
  intro evaluated
  obtain ⟨levels, hlevels⟩ := Nat.exists_eq_add_one.2 hdepth
  have htop := engine.resolveTop_eq hlevels
  have hprogram := engine.program_takes family levels root ⟨0, world⟩
  have hforce : (engine.forceLoop engine.limits.maxSteps family.program root).Exhausts engine.limits
      ⟨0, world⟩ (world.MakesCalls family.values
        (family.callsWithin engine.limits.maxSteps)) := by
    rw [forceLoop_eq, htop]
    refine hprogram.bind_exhausts (Nat.zero_le _) (fun hmax after hafter => ?_)
      fun head after hdone hhead => ?_
    · have hmax : engine.limits.maxSteps < 0 + 1 := hmax
      have hnone : family.callsWithin engine.limits.maxSteps = 0 := if_pos (by omega)
      exact hnone ▸ .none hafter.calls
    · obtain ⟨hretains, closure, rfl, hcloses, hnames, hbody⟩ := hhead
      have hstart : ((engine.nested (levels + 2)).resolve family.start closure).Exhausts
          engine.limits ⟨1, after.emit (.forcing closure)⟩ _ :=
        start_exhausts hcloses hnames rfl hdone
      refine .bind_right rfl ?_
      rw [hbody, forceLoop_eq, htop]
      refine (hstart.bind_left _).mono fun last hlast => ?_
      obtain ⟨made, hframes, hmade⟩ := hlast
      exact ⟨made, hframes.trans (congrArg (· ++ made) hretains.calls), hmade⟩
  obtain ⟨after, hrun, made, hframes, hcount, hmade⟩ := hforce
  have hevaluated : evaluated = _ := evaluate_force hrun
  rw [hevaluated]
  exact ⟨rfl, rfl, made, hframes, hcount, fun frame hframe =>
    ⟨hmade frame hframe, argumentsTake_of_isHanded (hmade frame hframe)⟩⟩

end Engine

/-- Two blocks that call each other with two arguments. -/
def alternatingCalls : TailCalls StandardNative where
  last := 1
  name index := if index = 0 then "even" else "odd"
  next index := if index = 0 then 1 else 0
  values := [⟨.supplied 0, .bool true⟩, ⟨.supplied 1, .unit⟩]
  plain := by decide
  distinct := by
    unfold Function.Injective
    decide

/-- Within thirty steps there are three calls, none of them nested. -/
theorem tail_calls_exhaust_alternating :
    let evaluated := (standardHost.engine 0 ⟨30, 1⟩).evaluate
      (.force alternatingCalls.program (.root 0 .empty))
      ((World.initial .initial).newRoot .empty).2
    evaluated.reported = .error (.stepBudgetExhausted 30) ∧ evaluated.steps = 31 ∧
      evaluated.world.callFrames.length = 3 := by
  intro evaluated
  obtain ⟨hreported, hsteps, made, hframes, hcount, -⟩ :=
    (standardHost.engine 0 ⟨30, 1⟩).tail_calls_exhaust alternatingCalls (Nat.le_refl 1)
      (.root 0 .empty) ((World.initial .initial).newRoot .empty).2
  refine ⟨hreported, hsteps, ?_⟩
  rw [hframes, List.length_append, hcount]
  rfl

end CallByNeed
