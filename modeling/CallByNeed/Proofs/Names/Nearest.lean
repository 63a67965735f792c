import CallByNeed.Proofs.Names.Registered

/-! # The nearest owner

Lookup goes along the chain of scopes around a frame, nearest first. A plain name belongs to the
nearest scope that binds it. An index is answered by the nearest scope with arguments alone: if its
list is too short, no other list is tried, and bindings play no part (`Scope.find_nearest`).

Both searches pass over the scopes that have nothing to offer, so they come to the same from each
scope on their way (`Scope.search_between`).
-/

namespace CallByNeed
set_option autoImplicit false

variable {ν α : Type}

namespace Scope

/-! ## Chains -/

/-- Each of the frames as a scope, within the frames after it. -/
def chainOf : List (Frame ν) → List (Scope ν)
  | [] => []
  | frame :: outer => ⟨frame, outer⟩ :: chainOf outer

/-- The scope and the scopes around it, nearest first. -/
def chain (scope : Scope ν) : List (Scope ν) :=
  chainOf scope.frames

/-- After a scope comes the chain of its parent. -/
theorem chain_eq (scope : Scope ν) :
    scope.chain = scope :: (scope.parent?.map chain).getD [] := by
  obtain ⟨frame, _ | ⟨next, outer⟩⟩ := scope <;> rfl

/-- The scope binds the name. -/
def Binds (name : String) (scope : Scope ν) : Prop :=
  ∃ bound, scope.bindings.find? name = some bound

/-- The scope is that of a frame with an argument list. -/
def HasArguments (scope : Scope ν) : Prop :=
  ∃ arguments, scope.arguments? = some arguments

/-- The owner is the first scope of the chain that has something. Some scopes are nearer, and the
others lie farther out. -/
structure Nearest (has : Scope ν → Prop) (scope owner : Scope ν)
    (nearer farther : List (Scope ν)) : Prop where
  chain : scope.chain = nearer ++ owner :: farther
  owns : has owner
  passed : ∀ inner ∈ nearer, ¬has inner

section Chains

variable {has : Scope ν → Prop} {scope owner : Scope ν} {nearer farther : List (Scope ν)}

theorem Nearest.mem (h : Nearest has scope owner nearer farther) : scope ∈ nearer ++ [owner] := by
  have hchain := h.chain
  rw [chain_eq] at hchain
  cases nearer with
  | nil => exact List.mem_singleton.2 (List.cons.inj hchain).1
  | cons first rest =>
    rw [(List.cons.inj hchain).1]
    exact List.mem_cons_self

/-- Some scope of the chain is the first one that has it, or none has it. -/
theorem nearest_or_none (has : Scope ν → Prop) (scope : Scope ν) :
    (∃ owner nearer farther, Nearest has scope owner nearer farther) ∨
      ∀ inner ∈ scope.chain, ¬has inner := by
  classical
  cases hfound : scope.chain.find? fun inner => decide (has inner) with
  | none =>
    refine .inr fun inner hm hinner => ?_
    exact List.find?_eq_none.1 hfound inner hm (decide_eq_true hinner)
  | some owner =>
    obtain ⟨howner, nearer, farther, hchain, hpassed⟩ := List.find?_eq_some_iff_append.1 hfound
    refine .inl ⟨owner, nearer, farther, hchain, of_decide_eq_true howner, fun inner hm => ?_⟩
    have hinner := hpassed inner hm
    rw [Bool.not_eq_true', decide_eq_false_iff_not] at hinner
    exact hinner

/-! ## Searches -/

variable {search : List (Frame ν) → α}
  (hpass : ∀ frame outer, ¬has ⟨frame, outer⟩ → search (frame :: outer) = search outer)
include hpass

/-- A search that passes over what has nothing comes to the same from all scopes on its way. -/
theorem search_between {frames : List (Frame ν)}
    (hchain : chainOf frames = nearer ++ owner :: farther)
    (hpassed : ∀ inner ∈ nearer, ¬has inner) :
    search frames = search owner.frames ∧
      ∀ between ∈ nearer ++ [owner], search between.frames = search owner.frames := by
  induction frames generalizing nearer with
  | nil => cases nearer <;> cases hchain
  | cons frame outer ih =>
    cases nearer with
    | nil =>
      obtain ⟨rfl, -⟩ := List.cons.inj hchain
      exact ⟨rfl, fun between hm => by rw [List.mem_singleton.1 hm]⟩
    | cons first rest =>
      obtain ⟨rfl, houter⟩ := List.cons.inj hchain
      obtain ⟨hfirst, hrest⟩ := List.forall_mem_cons.1 hpassed
      obtain ⟨hsearch, hbetween⟩ := ih houter hrest
      have hhere : search (frame :: outer) = search owner.frames :=
        (hpass frame outer hfirst).trans hsearch
      exact ⟨hhere, List.forall_mem_cons.2 ⟨hhere, hbetween⟩⟩

/-- A search that passes over everything comes to the end of the chain. -/
theorem search_none {frames : List (Frame ν)} (hnone : ∀ inner ∈ chainOf frames, ¬has inner) :
    search frames = search [] := by
  induction frames with
  | nil => rfl
  | cons frame outer ih =>
    obtain ⟨hfirst, hrest⟩ := List.forall_mem_cons.1 hnone
    exact (hpass frame outer hfirst).trans (ih hrest)

end Chains

/-! ## Plain names -/

section Names

variable {scope owner : Scope ν} {nearer farther : List (Scope ν)} {name : String}
  (hname : positional? name = none)
include hname

theorem find_plain (scope : Scope ν) : scope.find name = findBinding name scope.frames := by
  rw [find, hname]

omit hname in
theorem findBinding_pass (frame : Frame ν) (outer : List (Frame ν))
    (h : ¬Binds name ⟨frame, outer⟩) :
    findBinding name (frame :: outer) = findBinding name outer := by
  have hnone : frame.bindings.find? name = none :=
    Option.eq_none_iff_forall_ne_some.2 fun bound hbound => h ⟨bound, hbound⟩
  rw [findBinding, hnone]

/-- From each scope on the way to the nearest one that binds it, a plain name is found there. -/
theorem find_of_nearest_binding (h : Nearest (Binds name) scope owner nearer farther)
    {bound : Expr ν} (hbound : owner.bindings.find? name = some bound) :
    ∀ between ∈ nearer ++ [owner], between.find name = .ok (bound, owner) := by
  intro between hm
  have hsearch := (search_between findBinding_pass h.chain h.passed).2 between hm
  rw [find_plain hname, hsearch, ← find_plain hname, find_own hbound hname]

theorem find_unbound (h : ∀ inner ∈ scope.chain, ¬Binds name inner) :
    scope.find name = .error (.missingIdentifier name) := by
  rw [find_plain hname, search_none findBinding_pass h]
  rfl

end Names

/-! ## Indices -/

section Indices

variable {scope owner : Scope ν} {nearer farther : List (Scope ν)} {name : String} {index : Nat}
  (hname : positional? name = some index)
include hname

theorem find_index (scope : Scope ν) : scope.find name = findArgument index scope.frames := by
  rw [find, hname]

omit hname in
theorem findArgument_pass (frame : Frame ν) (outer : List (Frame ν))
    (h : ¬HasArguments ⟨frame, outer⟩) :
    findArgument index (frame :: outer) = findArgument index outer := by
  have hnone : frame.role.arguments? = none :=
    Option.eq_none_iff_forall_ne_some.2 fun arguments harguments => h ⟨arguments, harguments⟩
  rw [findArgument, hnone]

/-- From each scope on the way to the nearest argument list, that list answers an index. -/
theorem find_of_nearest_arguments (h : Nearest HasArguments scope owner nearer farther)
    {arguments : List (Expr ν)} (harguments : owner.arguments? = some arguments) :
    ∀ between ∈ nearer ++ [owner], between.find name =
      match arguments[index]? with
      | some argument => .ok (argument, owner)
      | none => .error (.positionalOutOfRange index arguments.length) := by
  intro between hm
  have hpass := @findArgument_pass ν index
  rw [find_index hname, (search_between hpass h.chain h.passed).2 between hm]
  obtain ⟨frame, outer⟩ := owner
  rewrite [frames, findArgument, show frame.role.arguments? = some arguments from harguments]
  rfl

theorem find_unsupplied (h : ∀ inner ∈ scope.chain, ¬HasArguments inner) :
    scope.find name = .error (.positionalOutOfRange index 0) := by
  rw [find_index hname, search_none findArgument_pass h]
  rfl

end Indices

/-! ## Lookup -/

/-- What is found from a scope is found from every scope up to the owner. -/
theorem find_up_to_owner {scope owner : Scope ν} {name : String} {bound : Expr ν}
    (h : scope.find name = .ok (bound, owner)) :
    ∃ nearer farther, scope.chain = nearer ++ owner :: farther ∧
      ∀ between ∈ nearer ++ [owner], between.find name = .ok (bound, owner) := by
  cases hname : positional? name with
  | none =>
    rcases nearest_or_none (Binds name) scope with ⟨other, nearer, farther, hnearest⟩ | hnone
    · obtain ⟨found, hfound⟩ := hnearest.owns
      have hall := find_of_nearest_binding hname hnearest hfound
      cases h.symm.trans (hall scope hnearest.mem)
      exact ⟨nearer, farther, hnearest.chain, hall⟩
    · cases h.symm.trans (find_unbound hname hnone)
  | some index =>
    rcases nearest_or_none HasArguments scope with ⟨other, nearer, farther, hnearest⟩ | hnone
    · obtain ⟨arguments, harguments⟩ := hnearest.owns
      have hall := find_of_nearest_arguments hname hnearest harguments
      have hscope := hall scope hnearest.mem
      cases hargument : arguments[index]? with
      | none =>
        rw [hargument] at hscope
        cases h.symm.trans hscope
      | some argument =>
        simp only [hargument] at hscope hall
        cases h.symm.trans hscope
        exact ⟨nearer, farther, hnearest.chain, hall⟩
    · cases h.symm.trans (find_unsupplied hname hnone)

/-- Lookup finds exactly the nearest owner. A plain name is found in the nearest scope of the chain
that binds it, and it is missing exactly if no scope of the chain binds it. An index is answered by
the nearest argument list, which may be too short, whatever is bound and whatever lies farther out.
What is found is found alike from the owner and from all scopes on the way to it. -/
theorem find_nearest (scope : Scope ν) (name : String) :
    (positional? name = none →
      (∀ bound owner, scope.find name = .ok (bound, owner) ↔
        owner.bindings.find? name = some bound ∧
          ∃ nearer farther, Nearest (Binds name) scope owner nearer farther) ∧
      ∀ failure, scope.find name = .error failure ↔
        failure = .missingIdentifier name ∧ ∀ inner ∈ scope.chain, ¬Binds name inner) ∧
    (∀ index, positional? name = some index →
      (∀ owner nearer farther arguments, Nearest HasArguments scope owner nearer farther →
        owner.arguments? = some arguments →
          (∀ h : index < arguments.length, scope.find name = .ok (arguments[index], owner)) ∧
          (arguments.length ≤ index →
            scope.find name = .error (.positionalOutOfRange index arguments.length))) ∧
      ((∀ inner ∈ scope.chain, ¬HasArguments inner) →
        scope.find name = .error (.positionalOutOfRange index 0))) ∧
    ∀ bound owner, scope.find name = .ok (bound, owner) →
      ∃ nearer farther, scope.chain = nearer ++ owner :: farther ∧
        ∀ between ∈ nearer ++ [owner], between.find name = .ok (bound, owner) := by
  refine ⟨fun hname => ?_, fun index hname => ⟨?_, find_unsupplied hname⟩,
    fun bound owner => find_up_to_owner⟩
  · rcases nearest_or_none (Binds name) scope with ⟨owner, nearer, farther, hnearest⟩ | hnone
    · obtain ⟨bound, hbound⟩ := hnearest.owns
      have hfind := find_of_nearest_binding hname hnearest hbound scope hnearest.mem
      have howner : owner ∈ scope.chain := by
        rw [hnearest.chain]
        exact List.mem_append_right _ List.mem_cons_self
      refine ⟨fun other place => ⟨fun h => ?_, fun ⟨hother, _, _, hplace⟩ => ?_⟩,
        fun failure => ⟨fun h => ?_, fun h => absurd hnearest.owns (h.2 owner howner)⟩⟩
      · cases hfind.symm.trans h
        exact ⟨hbound, nearer, farther, hnearest⟩
      · exact find_of_nearest_binding hname hplace hother scope hplace.mem
      · cases hfind.symm.trans h
    · have hfind := find_unbound hname hnone
      refine ⟨fun bound owner => ⟨fun h => ?_, fun ⟨hbound, nearer, farther, hnearest⟩ => ?_⟩,
        fun failure => ⟨fun h => ?_, fun h => ?_⟩⟩
      · cases hfind.symm.trans h
      · exact find_of_nearest_binding hname hnearest hbound scope hnearest.mem
      · cases hfind.symm.trans h
        exact ⟨rfl, hnone⟩
      · rw [hfind, h.1]
  · intro owner nearer farther arguments hnearest harguments
    have hfind := find_of_nearest_arguments hname hnearest harguments scope hnearest.mem
    refine ⟨fun h => ?_, fun h => ?_⟩
    · rw [hfind, List.getElem?_eq_getElem h]
    · rw [hfind, List.getElem?_eq_none h]

/-- A block within a call with one argument, within a call with two, within a root. The inner call
and the root both bind `x`. -/
def innerBlock : Scope Unit :=
  ⟨⟨3, .closure, .empty, .identifier "x"⟩,
    [⟨2, .call [.identifier "a"], ⟨[("x", .identifier "near")]⟩, .identifier "x"⟩,
      ⟨1, .call [.identifier "b", .identifier "c"], .empty, .identifier "x"⟩,
      ⟨0, .root, ⟨[("x", .identifier "far")]⟩, .failure .rootScopeMisuse⟩]⟩

/-- The block finds `x` in the inner call and `y` nowhere. It finds the argument of the inner call,
and no second one, although the outer call has two. -/
theorem find_nearest_innerBlock :
    (∃ owner, innerBlock.find "x" = .ok (.identifier "near", owner) ∧ owner.number = 2) ∧
      innerBlock.find "y" = .error (.missingIdentifier "y") ∧
      (∃ owner, innerBlock.find "$0" = .ok (.identifier "a", owner) ∧ owner.number = 2) ∧
      innerBlock.find "$1" = .error (.positionalOutOfRange 1 1) := by
  have hbare : ∀ name, ¬Binds name innerBlock := fun name ⟨bound, hbound⟩ => nomatch hbound
  have hcalls : Nearest HasArguments innerBlock ⟨_, innerBlock.outer.tail⟩ [innerBlock] _ :=
    ⟨rfl, ⟨_, rfl⟩, List.forall_mem_singleton.2 fun ⟨_, harguments⟩ => nomatch harguments⟩
  have hnone : ∀ inner ∈ innerBlock.chain, (inner.bindings.find? "y").isNone := by decide +kernel
  obtain ⟨hbound, -⟩ := (find_nearest innerBlock "x").1 (by decide +kernel)
  obtain ⟨-, hunbound⟩ := (find_nearest innerBlock "y").1 (by decide +kernel)
  obtain ⟨hfirst, -⟩ :=
    ((find_nearest innerBlock "$0").2.1 0 (by decide +kernel)).1 _ _ _ _ hcalls rfl
  obtain ⟨-, hsecond⟩ :=
    ((find_nearest innerBlock "$1").2.1 1 (by decide +kernel)).1 _ _ _ _ hcalls rfl
  refine ⟨⟨_, (hbound _ _).2 ⟨by rfl, [innerBlock], _, rfl, ⟨_, rfl⟩, ?_⟩, rfl⟩,
    (hunbound _).2 ⟨rfl, fun inner hm ⟨bound, hfound⟩ => ?_⟩,
    ⟨_, hfirst (by decide), rfl⟩, hsecond (by decide)⟩
  · exact List.forall_mem_singleton.2 (hbare "x")
  · have hinner := hnone inner hm
    rw [hfound] at hinner
    cases hinner

end Scope
end CallByNeed
