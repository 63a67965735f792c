import CallByNeed.Proofs.Names.Digits
import CallByNeed.Proofs.Names.LastWins

/-! # Plain names and names of arguments

A lambda whose bindings have different plain identifiers for names is closed without a step, and the
closure finds each of them (`Engine.close_named`). Any other plain name is found from where the
closure lies. The names of arguments are those that stand for an index (`positional?_argumentName`).
-/

namespace CallByNeed
set_option autoImplicit false

variable {ν σ α : Type}

/-! ## Names of arguments -/

/-- The name of the argument with this index. -/
def argumentName (index : Nat) : String :=
  "$" ++ toString index

theorem toList_argumentName (index : Nat) :
    (argumentName index).toList = '$' :: Nat.toDigits 10 index := by
  rw [argumentName, String.toList_append, Nat.toString_eq_ofList_toDigits, String.toList_ofList,
    String.toList_ofList]
  rfl

/-- The name of an argument stands for its index, up to the largest index that there is. -/
theorem positional?_argumentName (index : Nat) :
    positional? (argumentName index) = some (min index largestIndex) :=
  positional?_of_padded 0 index (toList_argumentName index)

theorem argumentName_injective {index other : Nat} (h : argumentName index = argumentName other) :
    index = other := by
  have hlists := congrArg String.toList h
  rw [toList_argumentName, toList_argumentName, List.cons.injEq] at hlists
  calc index
    _ = Nat.ofDigitChars 10 (Nat.toDigits 10 index) 0 := Nat.ofDigitChars_ten_toDigits.symm
    _ = Nat.ofDigitChars 10 (Nat.toDigits 10 other) 0 := by rw [hlists.2]
    _ = other := Nat.ofDigitChars_ten_toDigits

theorem argumentName_ne_of_plain {name : String} (hname : positional? name = none) (index : Nat) :
    argumentName index ≠ name := by
  rintro rfl
  rw [positional?_argumentName] at hname
  cases hname

/-! ## Lookup of different names -/

namespace Table.LastWins

variable {table : Table α} {entries : List (String × α)} {name : String}

theorem find_of_mem (h : table.LastWins entries) (hdistinct : (entries.map Prod.fst).Nodup)
    {entry : α} (hentry : (name, entry) ∈ entries) : table.find? name = some entry := by
  have hname := (h.names name).2 (List.mem_map_of_mem hentry)
  obtain ⟨found, hfound⟩ := mem_names_iff.1 hname
  have hlookup := hfound
  rw [h.find] at hlookup
  obtain ⟨later, earlier, hsplit, -⟩ := List.lookup_eq_some_iff.1 hlookup
  have hmem : (name, found) ∈ entries := by
    rw [← List.mem_reverse, hsplit]
    exact List.mem_append_right _ List.mem_cons_self
  have hsame := List.inj_on_of_nodup_map hdistinct hmem hentry rfl
  rw [hfound, (Prod.mk.inj hsame).2]

theorem find_of_not_mem (h : table.LastWins entries) (hname : name ∉ entries.map Prod.fst) :
    table.find? name = none := by
  cases hfound : table.find? name with
  | none => rfl
  | some found => exact absurd ((h.names name).1 (mem_names_iff.2 ⟨found, hfound⟩)) hname

end Table.LastWins

namespace Scope

variable {scope outer : Scope ν} {name : String}

theorem outer_eq_of_parent (h : scope.parent? = some outer) : scope.outer = outer.frames := by
  obtain ⟨frame, _ | ⟨next, rest⟩⟩ := scope
  · cases h
  · cases h
    rfl

/-- A plain name that a frame does not bind is found from the frame around it. -/
theorem find_outer (hparent : scope.parent? = some outer) (hname : positional? name = none)
    (hbound : scope.bindings.find? name = none) : scope.find name = outer.find name := by
  have houter := outer_eq_of_parent hparent
  obtain ⟨frame, rest⟩ := scope
  simp only [find, hname, frames, findBinding]
  rw [show frame.bindings.find? name = none from hbound]
  exact congrArg (findBinding name) houter

/-- An index is looked up in the nearest arguments, which may be the frame's own. -/
theorem find_argument {index : Nat} {arguments : List (Expr ν)} {argument : Expr ν}
    (hname : positional? name = some index) (harguments : scope.arguments? = some arguments)
    (hargument : arguments[index]? = some argument) :
    scope.find name = .ok (argument, scope) := by
  obtain ⟨frame, rest⟩ := scope
  simp only [find, hname, frames, findArgument]
  rw [show frame.role.arguments? = some arguments from harguments]
  dsimp only
  rw [hargument]

end Scope

/-! ## Closing over plain names -/

/-- Bindings whose names are written as identifiers. -/
def Lambda.named (entries : List (String × Expr ν)) : List (Lambda.Binding ν) :=
  entries.map fun entry => (.identifier entry.1, entry.2)

namespace Engine

variable {engine : Engine ν σ}

/-- Different plain identifiers are the names of their bindings, with nothing to be done. -/
theorem binds_named {entries : List (String × Expr ν)} (engine : Engine ν σ) (levels : Nat)
    (scope : Scope ν) (machine : Machine ν σ)
    (hplain : ∀ entry ∈ entries, positional? entry.1 = none)
    (hdistinct : (entries.map Prod.fst).Nodup) :
    engine.Binds (levels + 1) scope machine (Lambda.named entries) entries [] machine := by
  induction entries using List.reverseRecOn with
  | nil => exact .none
  | append_singleton before entry ih =>
    obtain ⟨name, bound⟩ := entry
    rw [List.map_append, List.map_singleton, List.nodup_append] at hdistinct
    obtain ⟨hbefore, -, hnew⟩ := hdistinct
    have hfresh : before.reverse.lookup name = none := by
      rw [List.lookup_eq_none_iff]
      intro other hother
      have hmem : other.1 ∈ before.map Prod.fst :=
        List.mem_map_of_mem (List.mem_reverse.1 hother)
      exact bne_iff_ne.2 fun hsame => hnew _ hmem _ (List.mem_singleton_self name) hsame.symm
    have hname : engine.Names (.identifier name) scope machine (levels + 1) (.ok name) machine :=
      .arrives (.identifier scope machine (hplain (name, bound) (List.mem_append_right _
        (List.mem_singleton_self _))))
    rw [Lambda.named, List.map_append]
    exact .fresh (ih (fun entry hentry => hplain entry (List.mem_append_left _ hentry)) hbefore)
      hname hfresh

theorem close_of_binds {levels : Nat} {scope : Scope ν} {machine : Machine ν σ}
    {bindings : List (Lambda.Binding ν)} {entries warnings : List (String × Expr ν)}
    (h : engine.Binds levels scope machine bindings entries warnings machine) (body : Expr ν) :
    ∃ closure world, (engine.nested levels).close (Lambda.items bindings body) scope machine =
        (.ok closure, ⟨machine.steps, world⟩) ∧
      closure.ClosedOver entries body scope machine.world world := by
  obtain ⟨table, -, htable, hcount⟩ := h.bindAll
  have hclosure := Scope.ClosedOver.of_table htable body scope machine.world
  exact ⟨_, _, Closes.close (.closed rfl h hclosure hcount), hclosure⟩

/-- A lambda of different plain names is closed at once. -/
theorem close_named {entries : List (String × Expr ν)} (engine : Engine ν σ) (levels : Nat)
    (scope : Scope ν) (machine : Machine ν σ) (body : Expr ν)
    (hplain : ∀ entry ∈ entries, positional? entry.1 = none)
    (hdistinct : (entries.map Prod.fst).Nodup) :
    ∃ closure world, (engine.nested (levels + 1)).close
        (Lambda.items (Lambda.named entries) body) scope machine =
          (.ok closure, ⟨machine.steps, world⟩) ∧
      closure.ClosedOver entries body scope machine.world world :=
  close_of_binds (engine.binds_named levels scope machine hplain hdistinct) body

/-- A block is closed at once, also where nothing may be nested. -/
theorem close_block (engine : Engine ν σ) (levels : Nat) (scope : Scope ν)
    (machine : Machine ν σ) (body : Expr ν) :
    ∃ closure world, (engine.nested levels).close [.bare body] scope machine =
        (.ok closure, ⟨machine.steps, world⟩) ∧
      closure.ClosedOver [] body scope machine.world world := by
  have hnone : engine.Binds levels scope machine [] [] [] machine := .none
  exact close_of_binds hnone body

end Engine
end CallByNeed
