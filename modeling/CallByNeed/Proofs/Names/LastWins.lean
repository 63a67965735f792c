import Mathlib.Data.List.Induction
import Mathlib.Data.List.Sort
import Mathlib.Data.String.Basic
import CallByNeed.Proofs.Names.Positions
import CallByNeed.Proofs.Worlds.Additions

/-! # The closure of a lambda

`Engine.Closes` says what closing a lambda does. The bindings are named in their order
(`Engine.Binds`), each with a warning if a binding before it has the same name, up to the first that
does not come to a name. If all do, the closure is a new frame whose table lists the last binding of
each name (`Table.LastWins`), and there were as many warnings as bindings that are not listed.
`Engine.evaluate_close` shows that lambdas are closed by these rules and in no other way.
-/

namespace CallByNeed
set_option autoImplicit false

variable {ν σ α : Type}

/-! ## Tables of last entries -/

namespace Table

/-- The table lists exactly the names of these entries, once each, with the last entry of each. -/
structure LastWins (table : Table α) (entries : List (String × α)) : Prop where
  ordered : table.names.Pairwise (· < ·)
  names : ∀ name, name ∈ table.names ↔ name ∈ entries.map Prod.fst
  find : ∀ name, table.find? name = entries.reverse.lookup name

theorem mem_names_iff {table : Table α} {name : String} :
    name ∈ table.names ↔ ∃ entry, table.find? name = some entry := by
  obtain ⟨entries⟩ := table
  show name ∈ entries.map Prod.fst ↔ ∃ entry, findEntry name entries = some entry
  induction entries with
  | nil => exact ⟨fun h => absurd h List.not_mem_nil, nofun⟩
  | cons first rest ih =>
    obtain ⟨other, old⟩ := first
    rw [List.map_cons, List.mem_cons, findEntry]
    by_cases hname : name = other
    · rw [if_pos hname]
      exact ⟨fun _ => ⟨old, rfl⟩, fun _ => .inl hname⟩
    · rw [if_neg hname, ← ih]
      exact or_iff_right hname

/-- An ordered table lists what its lookups find. -/
theorem mem_entries_iff {table : Table α} (h : table.names.Pairwise (· < ·)) {name : String}
    {entry : α} : (name, entry) ∈ table.entries ↔ table.find? name = some entry := by
  refine ⟨fun hentry => ?_, mem_of_find?⟩
  obtain ⟨entries⟩ := table
  change (entries.map Prod.fst).Pairwise (· < ·) at h
  change (name, entry) ∈ entries at hentry
  show findEntry name entries = some entry
  induction entries with
  | nil => exact absurd hentry List.not_mem_nil
  | cons first rest ih =>
    obtain ⟨other, old⟩ := first
    rw [List.map_cons, List.pairwise_cons] at h
    rw [findEntry]
    rcases List.mem_cons.1 hentry with hfirst | hrest
    · cases hfirst
      rw [if_pos rfl]
    · have hless := h.1 name (List.mem_map_of_mem hrest)
      rw [if_neg (ne_of_gt hless)]
      exact ih h.2 hrest

/-- Ordered tables that answer every lookup alike are the same. -/
theorem ext_of_find? {table other : Table α} (h : table.names.Pairwise (· < ·))
    (hother : other.names.Pairwise (· < ·)) (hfind : ∀ name, table.find? name = other.find? name) :
    table = other := by
  have hentries : table.entries = other.entries := by
    have : Std.Irrefl fun first second : String × α => first.1 < second.1 :=
      ⟨fun entry => lt_irrefl entry.1⟩
    have : Std.Antisymm fun first second : String × α => first.1 < second.1 :=
      ⟨fun _ _ hless hmore => absurd hmore (lt_asymm hless)⟩
    refine (List.pairwise_map.1 h).eq_of_mem_iff (List.pairwise_map.1 hother) ?_
    rintro ⟨name, entry⟩
    rw [mem_entries_iff h, mem_entries_iff hother, hfind]
  obtain ⟨entries⟩ := table
  exact congrArg Table.mk hentries

theorem names_insertEntry (name : String) (entry : α) (entries : List (String × α))
    (other : String) :
    other ∈ (insertEntry name entry entries).map Prod.fst ↔
      other = name ∨ other ∈ entries.map Prod.fst := by
  have hinsert := find?_insert ⟨entries⟩ name other entry
  have hnames : other ∈ (Table.mk (insertEntry name entry entries)).names ↔
      other = name ∨ other ∈ (Table.mk entries).names := by
    rw [mem_names_iff, mem_names_iff]
    show (∃ found, (Table.insert ⟨entries⟩ name entry).find? other = some found) ↔ _
    rw [hinsert]
    by_cases hother : other = name
    · rw [if_pos hother]
      exact ⟨fun _ => .inl hother, fun _ => ⟨entry, rfl⟩⟩
    · rw [if_neg hother]
      exact (or_iff_right hother).symm
  exact hnames

theorem ordered_insert {table : Table α} (h : table.names.Pairwise (· < ·)) (name : String)
    (entry : α) : (table.insert name entry).names.Pairwise (· < ·) := by
  obtain ⟨entries⟩ := table
  change (entries.map Prod.fst).Pairwise (· < ·) at h
  show ((insertEntry name entry entries).map Prod.fst).Pairwise (· < ·)
  induction entries with
  | nil => exact List.pairwise_singleton _ _
  | cons first rest ih =>
    obtain ⟨other, old⟩ := first
    rw [List.map_cons] at h
    have hrest := List.pairwise_cons.1 h
    rw [insertEntry]
    by_cases hname : name = other
    · rw [if_pos hname, hname]
      exact h
    · rw [if_neg hname]
      by_cases hless : name < other
      · rw [if_pos hless]
        refine List.pairwise_cons.2 ⟨fun later hlater => ?_, h⟩
        rcases List.mem_cons.1 hlater with rfl | hlater
        · exact hless
        · exact hless.trans (hrest.1 later hlater)
      · rw [if_neg hless]
        refine List.pairwise_cons.2 ⟨fun later hlater => ?_, ih hrest.2⟩
        rcases (names_insertEntry name entry rest later).1 hlater with rfl | hlater
        · exact (lt_or_gt_of_ne hname).resolve_left hless
        · exact hrest.1 later hlater

/-- A table grows by the names that are new to it. -/
theorem size_insert {table : Table α} (h : table.names.Pairwise (· < ·)) (name : String)
    (entry : α) : (table.insert name entry).size =
      if (table.find? name).isSome then table.size else table.size + 1 := by
  obtain ⟨entries⟩ := table
  change (entries.map Prod.fst).Pairwise (· < ·) at h
  show (insertEntry name entry entries).length =
    if (findEntry name entries).isSome then entries.length else entries.length + 1
  induction entries with
  | nil => rfl
  | cons first rest ih =>
    obtain ⟨other, old⟩ := first
    rw [List.map_cons] at h
    have hrest := List.pairwise_cons.1 h
    rw [insertEntry, findEntry]
    by_cases hname : name = other
    · rw [if_pos hname, if_pos hname]
      rfl
    · rw [if_neg hname, if_neg hname]
      by_cases hless : name < other
      · -- The names that follow are larger still.
        have hnew : findEntry name rest = none := by
          cases hfound : findEntry name rest with
          | none => rfl
          | some found =>
            have hmem : name ∈ (Table.mk rest).names := mem_names_iff.2 ⟨found, hfound⟩
            exact absurd (hrest.1 name hmem) (lt_asymm hless)
        rw [if_pos hless, hnew]
        rfl
      · rw [if_neg hless, List.length_cons, ih hrest.2]
        split <;> rfl

namespace LastWins

variable {table other : Table α} {entries : List (String × α)}

theorem of_find (ordered : table.names.Pairwise (· < ·))
    (find : ∀ name, table.find? name = entries.reverse.lookup name) : table.LastWins entries := by
  refine ⟨ordered, fun name => ?_, find⟩
  rw [mem_names_iff, find, ← Option.isSome_iff_exists, List.lookup_isSome_iff, List.mem_map]
  constructor
  · rintro ⟨entry, hentry, hname⟩
    exact ⟨entry, List.mem_reverse.1 hentry, (beq_iff_eq.1 hname).symm⟩
  · rintro ⟨entry, hentry, rfl⟩
    exact ⟨entry, List.mem_reverse.2 hentry, beq_self_eq_true _⟩

theorem empty : (empty : Table α).LastWins [] :=
  .of_find .nil fun _ => rfl

theorem insert (h : table.LastWins entries) (name : String) (entry : α) :
    (table.insert name entry).LastWins (entries ++ [(name, entry)]) := by
  refine .of_find (ordered_insert h.ordered name entry) fun found => ?_
  rw [find?_insert, List.reverse_append, List.reverse_singleton, List.singleton_append,
    List.lookup_cons, h.find]
  by_cases hfound : found = name
  · rw [if_pos hfound, hfound, beq_self_eq_true]
  · rw [if_neg hfound, beq_false_of_ne hfound]

/-- There is one table for a list of entries. -/
theorem unique (h : table.LastWins entries) (hother : other.LastWins entries) : table = other :=
  ext_of_find? h.ordered hother.ordered fun name => (h.find name).trans (hother.find name).symm

end LastWins
end Table

/-! ## Naming bindings -/

/-- Bindings are named in their order: these are the names with what is bound to them, and the
warnings about what is dropped as a later binding has its name. -/
inductive Engine.Binds (engine : Engine ν σ) (levels : Nat) (scope : Scope ν)
    (start : Machine ν σ) :
    List (Lambda.Binding ν) → List (String × Expr ν) → List (String × Expr ν) →
      Machine ν σ → Prop where
  | none : Binds engine levels scope start [] [] [] start
  | fresh {before : List (Lambda.Binding ν)} {entries warnings : List (String × Expr ν)}
      {position bound : Expr ν} {name : String} {turn after : Machine ν σ}
      (hbefore : Binds engine levels scope start before entries warnings turn)
      (hname : engine.Names position scope turn levels (.ok name) after)
      (hfresh : entries.reverse.lookup name = none) :
      Binds engine levels scope start (before ++ [(position, bound)]) (entries ++ [(name, bound)])
        warnings after
  | again {before : List (Lambda.Binding ν)} {entries warnings : List (String × Expr ν)}
      {position bound dropped : Expr ν} {name : String} {turn after : Machine ν σ}
      (hbefore : Binds engine levels scope start before entries warnings turn)
      (hname : engine.Names position scope turn levels (.ok name) after)
      (hdropped : entries.reverse.lookup name = some dropped) :
      Binds engine levels scope start (before ++ [(position, bound)]) (entries ++ [(name, bound)])
        (warnings ++ [(name, dropped)]) ⟨after.steps, after.world.emit (.rebound name dropped)⟩

namespace Engine

variable {engine : Engine ν σ} {levels : Nat} {scope : Scope ν} {start turn : Machine ν σ}
  {bindings : List (Lambda.Binding ν)} {entries warnings : List (String × Expr ν)}

/-- One more binding is named where those before it have led to. -/
theorem bindAll_snoc {nested : Nested ν σ} {position bound : Expr ν} {table : Table (Expr ν)}
    {name : String} {after : Machine ν σ}
    (h : nested.bindAll scope bindings .empty start = (.ok table, turn))
    (hname : nested.bindingName position scope turn = (.ok name, after)) :
    nested.bindAll scope (bindings ++ [(position, bound)]) .empty start =
      (Run.reportRebound name table >>= fun _ => pure (table.insert name bound)) after := by
  rw [Nested.bindAll_append, Run.bind_apply, h]
  dsimp only
  rw [Nested.bindAll_cons, Run.bind_apply, hname]
  rfl

/-- The names of bindings, in order, make a table of last entries. Each binding is listed in it, or
was warned about. -/
theorem Binds.bindAll (h : engine.Binds levels scope start bindings entries warnings turn) :
    ∃ table, (engine.nested levels).bindAll scope bindings .empty start = (.ok table, turn) ∧
      table.LastWins entries ∧ warnings.length + table.size = bindings.length := by
  induction h with
  | none => exact ⟨.empty, rfl, .empty, rfl⟩
  | @fresh before entries warnings position bound name turn after hbefore hname hfresh ih =>
    obtain ⟨table, hbind, htable, hcount⟩ := ih
    have hsize := Table.size_insert htable.ordered name bound
    rw [htable.find, hfresh] at hsize
    refine ⟨_, ?_, htable.insert name bound, ?_⟩
    · rw [bindAll_snoc hbind ((engine.bindingName_iff levels _ scope _ _ _).2 hname),
        Run.reportRebound, htable.find, hfresh]
      rfl
    · rw [hsize, List.length_append, ← hcount]
      rfl
  | @again before entries warnings position bound dropped name turn after hbefore hname hdropped
      ih =>
    obtain ⟨table, hbind, htable, hcount⟩ := ih
    have hsize := Table.size_insert htable.ordered name bound
    rw [htable.find, hdropped] at hsize
    refine ⟨_, ?_, htable.insert name bound, ?_⟩
    · rw [bindAll_snoc hbind ((engine.bindingName_iff levels _ scope _ _ _).2 hname),
        Run.reportRebound, htable.find, hdropped]
      rfl
    · rw [hsize, List.length_append, List.length_append, ← hcount]
      exact Nat.add_right_comm _ 1 _

theorem Binds.snoc (bound : Expr ν) {position : Expr ν} {name : String} {after : Machine ν σ}
    (h : engine.Binds levels scope start bindings entries warnings turn)
    (hname : engine.Names position scope turn levels (.ok name) after) :
    ∃ warnings after, engine.Binds levels scope start (bindings ++ [(position, bound)])
      (entries ++ [(name, bound)]) warnings after := by
  cases hlast : entries.reverse.lookup name with
  | none => exact ⟨_, _, h.fresh hname hlast⟩
  | some dropped => exact ⟨_, _, h.again hname hlast⟩

/-- Either all bindings are named, or one is not after those before it were. -/
theorem binds_or_stops (engine : Engine ν σ) (levels : Nat) (scope : Scope ν)
    (start : Machine ν σ) (bindings : List (Lambda.Binding ν)) :
    (∃ entries warnings turn, engine.Binds levels scope start bindings entries warnings turn) ∨
      ∃ before position bound rest entries warnings turn stop after,
        bindings = before ++ (position, bound) :: rest ∧
        engine.Binds levels scope start before entries warnings turn ∧
        engine.Names position scope turn levels (.error stop) after := by
  induction bindings using List.reverseRecOn with
  | nil => exact .inl ⟨[], [], start, .none⟩
  | append_singleton before binding ih =>
    obtain ⟨position, bound⟩ := binding
    rcases ih with ⟨entries, warnings, turn, hbefore⟩ |
      ⟨first, target, other, rest, entries, warnings, turn, stop, after, rfl, hfirst, hname⟩
    · rcases hrun : (engine.nested levels).bindingName position scope turn with
        ⟨stop | name, after⟩
      · have hname := (engine.bindingName_iff levels _ scope _ _ _).1 hrun
        exact .inr ⟨before, position, bound, [], entries, warnings, turn, stop, after, rfl, hbefore,
          hname⟩
      · obtain ⟨more, last, hmore⟩ :=
          hbefore.snoc bound ((engine.bindingName_iff levels _ scope _ _ _).1 hrun)
        exact .inl ⟨_, more, last, hmore⟩
    · exact .inr ⟨first, target, other, rest ++ [(position, bound)], entries, warnings, turn, stop,
        after, List.append_assoc _ _ _, hfirst, hname⟩

end Engine

/-! ## Closing -/

namespace Lambda

theorem split_ok_iff {items : List (Item ν)} {bindings : List (Binding ν)} {body : Expr ν} :
    split items = .ok (bindings, body) ↔ items = Lambda.items bindings body := by
  refine ⟨fun h => ?_, ?_⟩
  · induction items using split.induct generalizing bindings with
    | case1 => cases h
    | case2 returning =>
      cases h
      rfl
    | case3 returning next rest => cases h
    | case4 position bound rest others returning hrest ih =>
      rw [split, hrest] at h
      cases h
      rw [ih hrest]
      rfl
    | case5 position bound rest shape hrest ih =>
      rw [split, hrest] at h
      cases h
  · rintro rfl
    induction bindings with
    | nil => rfl
    | cons binding rest ih =>
      show split (.binding binding.1 binding.2 :: Lambda.items rest body) = _
      rw [split, ih]

/-- A lambda has parts if it lists bindings and one bare expression after them. -/
theorem parts_ok_iff {items : List (Item ν)} {bindings : List (Binding ν)} {body : Expr ν} :
    parts items = .ok (bindings, body) ↔ items = Lambda.items bindings body := by
  have hbare : (Lambda.items bindings body).countP isBare = 1 := by
    rw [Lambda.items, List.countP_append, List.countP_map]
    rw [show isBare ∘ (fun binding : Binding ν => Item.binding binding.1 binding.2) =
      fun _ => false from rfl, List.countP_false]
    rfl
  rw [← split_ok_iff, parts]
  by_cases hmany : 1 < items.countP isBare
  · rw [if_pos hmany]
    refine ⟨nofun, fun h => ?_⟩
    rw [split_ok_iff.1 h, hbare] at hmany
    exact absurd hmany (Nat.lt_irrefl 1)
  · rw [if_neg hmany]

end Lambda

/-- A new closure of these entries and this body is the last thing that is made. -/
structure Scope.ClosedOver (closure : Scope ν) (entries : List (String × Expr ν))
    (returning : Expr ν) (scope : Scope ν) (before after : World ν σ) : Prop where
  kind : closure.kind = .closure
  parent : closure.parent? = some scope
  body : closure.body = returning
  table : closure.bindings.LastWins entries
  number : closure.number = before.size
  world : after = (before.emit (.closing closure.bindings.size returning)).addFrames [closure]

namespace Scope.ClosedOver

variable {entries : List (String × Expr ν)} {table : Table (Expr ν)}

theorem of_table (h : table.LastWins entries) (body : Expr ν) (scope : Scope ν)
    (world : World ν σ) :
    (Scope.closure world.size table body scope).ClosedOver entries body scope world
      ((world.emit (.closing table.size body)).addFrames
        [.closure world.size table body scope]) :=
  ⟨rfl, Scope.parent?_closure _ _ _ _, rfl, h, rfl, rfl⟩

/-- The closure is the one that is made of the table. -/
theorem eq_closure {closure scope : Scope ν} {body : Expr ν} {before after : World ν σ}
    (h : closure.ClosedOver entries body scope before after) (htable : table.LastWins entries) :
    closure = .closure before.size table body scope ∧
      (before.emit (.closing table.size body)).newClosure table body scope = (closure, after) := by
  have heq : closure = .closure before.size table body scope := by
    obtain ⟨hkind, hparent, hbody, hentries, hnumber, -⟩ := h
    obtain ⟨⟨number, role, bindings, returning⟩, outer⟩ := closure
    cases hnumber
    cases hbody
    cases hentries.unique htable
    obtain rfl : role = .closure := by cases role <;> first | rfl | cases hkind
    cases outer with
    | nil => cases hparent
    | cons frame outer =>
      cases hparent
      rfl
  refine ⟨heq, ?_⟩
  have hworld := h.world
  subst heq
  rw [hworld]
  exact World.newScope_eq (before.emit (.closing table.size body)) _

end Scope.ClosedOver

/-- What closing a lambda comes to, with so many levels allowed for its names, and the machine it
leaves. -/
inductive Engine.Closes (engine : Engine ν σ) (levels : Nat) (items : List (Item ν))
    (scope : Scope ν) (machine : Machine ν σ) :
    Except Stop (Scope ν) → Machine ν σ → Prop where
  | malformed {shape : LambdaShape} (hshape : Lambda.parts items = .error shape)
      (hitems : ∀ bindings body, items ≠ Lambda.items bindings body) :
      Closes engine levels items scope machine (.error (.failed (.malformedLambda shape))) machine
  | nameStops {before rest : List (Lambda.Binding ν)} {position bound body : Expr ν}
      {entries warnings : List (String × Expr ν)} {turn after : Machine ν σ} {stop : Stop}
      (hitems : items = Lambda.items (before ++ (position, bound) :: rest) body)
      (hbefore : engine.Binds levels scope machine before entries warnings turn)
      (hname : engine.Names position scope turn levels (.error stop) after) :
      Closes engine levels items scope machine (.error stop) after
  | closed {bindings : List (Lambda.Binding ν)} {body : Expr ν}
      {entries warnings : List (String × Expr ν)} {turn : Machine ν σ} {closure : Scope ν}
      {world : World ν σ} (hitems : items = Lambda.items bindings body)
      (hbindings : engine.Binds levels scope machine bindings entries warnings turn)
      (hclosure : closure.ClosedOver entries body scope turn.world world)
      (hwarnings : warnings.length + closure.bindings.size = bindings.length) :
      Closes engine levels items scope machine (.ok closure) ⟨turn.steps, world⟩

namespace Engine

variable {engine : Engine ν σ} {levels : Nat} {items : List (Item ν)} {scope : Scope ν}
  {machine after : Machine ν σ} {outcome : Except Stop (Scope ν)}

/-- The rules say what happens. -/
theorem Closes.close (h : engine.Closes levels items scope machine outcome after) :
    (engine.nested levels).close items scope machine = (outcome, after) := by
  cases h with
  | malformed hshape hitems =>
    rw [Nested.close, hshape]
    rfl
  | nameStops hitems hbefore hname =>
    obtain ⟨table, hbind, -, -⟩ := hbefore.bindAll
    rw [Nested.close, Lambda.parts_ok_iff.2 hitems]
    dsimp only
    rw [Run.bind_apply, Nested.bindAll_append, Run.bind_apply, hbind]
    dsimp only
    rw [Nested.bindAll_cons, Run.bind_apply, (engine.bindingName_iff levels _ scope _ _ _).2 hname]
  | closed hitems hbindings hclosure hwarnings =>
    obtain ⟨table, hbind, htable, -⟩ := hbindings.bindAll
    obtain ⟨rfl, hmade⟩ := hclosure.eq_closure htable
    rw [Nested.close, Lambda.parts_ok_iff.2 hitems]
    dsimp only
    rw [Run.bind_apply, hbind]
    dsimp only
    rw [Run.bind_apply, Run.emit_apply]
    dsimp only
    rw [Run.withWorld_apply, hmade]

/-- The rules cover whatever happens. -/
theorem closes_close (engine : Engine ν σ) (levels : Nat) (items : List (Item ν))
    (scope : Scope ν) (machine : Machine ν σ) :
    ∃ outcome after, engine.Closes levels items scope machine outcome after := by
  cases hparts : Lambda.parts items with
  | error shape =>
    refine ⟨_, _, .malformed hparts fun bindings body hitems => ?_⟩
    cases hparts.symm.trans (Lambda.parts_ok_iff.2 hitems)
  | ok parts =>
    obtain ⟨bindings, body⟩ := parts
    have hitems := Lambda.parts_ok_iff.1 hparts
    rcases engine.binds_or_stops levels scope machine bindings with
      ⟨entries, warnings, turn, hbindings⟩ |
      ⟨before, position, bound, rest, entries, warnings, turn, stop, after, rfl, hbefore, hname⟩
    · obtain ⟨table, -, htable, hcount⟩ := hbindings.bindAll
      exact ⟨_, _, .closed hitems hbindings (.of_table htable body scope turn.world) hcount⟩
    · exact ⟨_, _, .nameStops hitems hbefore hname⟩

theorem evaluate_close_eq (engine : Engine ν σ) (items : List (Item ν)) (scope : Scope ν)
    (world : World ν σ) :
    engine.evaluate (.close items scope) world =
      match (engine.nested engine.limits.maxDepth).close items scope ⟨0, world⟩ with
      | (outcome, after) => ⟨Expr.scope <$> outcome, after.steps, after.world⟩ := by
  rw [evaluate, Run.execute, run, map_eq_pure_bind, Run.bind_apply]
  rcases (engine.nested engine.limits.maxDepth).close items scope ⟨0, world⟩ with
    ⟨stop | closure, after⟩ <;> rfl

/-- A lambda is closed by these rules, and in no other way. -/
theorem evaluate_close (engine : Engine ν σ) (items : List (Item ν)) (scope : Scope ν)
    (world : World ν σ) (outcome : Except Stop (Scope ν)) (after : Machine ν σ) :
    engine.evaluate (.close items scope) world =
        ⟨Expr.scope <$> outcome, after.steps, after.world⟩ ↔
      engine.Closes engine.limits.maxDepth items scope ⟨0, world⟩ outcome after := by
  have hevaluate (found : Except Stop (Scope ν)) (last : Machine ν σ)
      (hfound : engine.Closes engine.limits.maxDepth items scope ⟨0, world⟩ found last) :
      engine.evaluate (.close items scope) world =
        ⟨Expr.scope <$> found, last.steps, last.world⟩ := by
    rw [evaluate_close_eq, hfound.close]
  refine ⟨fun h => ?_, hevaluate outcome after⟩
  obtain ⟨found, last, hfound⟩ := engine.closes_close engine.limits.maxDepth items scope ⟨0, world⟩
  have hsame := h.symm.trans (hevaluate found last hfound)
  obtain ⟨steps, left⟩ := after
  obtain ⟨steps', left'⟩ := last
  rcases outcome with stop | closure <;> rcases found with stop' | closure' <;> cases hsame
  · exact hfound
  · exact hfound

end Engine
end CallByNeed
