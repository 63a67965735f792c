import CallByNeed.Proofs.Names.Digits
import CallByNeed.Proofs.Names.Nearest

/-! # Lookup by index

An index is the number that a name spells, cut off at the largest index. While no argument list is
longer than that, cutting off changes no answer: the nearest arguments are asked for the number
itself, however large it is (`Scope.find_of_isDigit`), and a name with digits of another script has
no argument (`Scope.find_of_other`). The answer hangs on the roles of the frames alone, which hold
the arguments, and not on what is bound (`Scope.lookup_roles`).
-/

namespace CallByNeed
set_option autoImplicit false

variable {ν : Type}

namespace Scope

/-- The arguments are the nearest argument list around the scope, and the owner is the scope of the
frame that has them. -/
structure AnsweredBy (scope owner : Scope ν) (arguments : List (Expr ν)) : Prop where
  nearest : ∃ nearer farther, Nearest HasArguments scope owner nearer farther
  arguments : owner.arguments? = some arguments

/-- A frame with arguments answers for itself. -/
theorem answeredBy_self {scope : Scope ν} {arguments : List (Expr ν)}
    (h : scope.arguments? = some arguments) : scope.AnsweredBy scope arguments := by
  refine ⟨⟨[], (scope.parent?.map chain).getD [], chain_eq scope, ⟨arguments, h⟩, ?_⟩, h⟩
  exact fun inner hinner => absurd hinner List.not_mem_nil

section Arguments

variable {scope owner : Scope ν} {arguments : List (Expr ν)} {name : String} {digits : List Char}
  (h : scope.AnsweredBy owner arguments) (hname : IndexName name digits)
include h

theorem AnsweredBy.find {index : Nat} (hindex : positional? name = some index) :
    scope.find name =
      match arguments[index]? with
      | some argument => .ok (argument, owner)
      | none => .error (.positionalOutOfRange index arguments.length) := by
  obtain ⟨nearer, farther, hnearest⟩ := h.nearest
  exact find_of_nearest_arguments hindex hnearest h.arguments scope hnearest.mem

omit h in
/-- Where no list reaches the largest index, an index may be cut off there. -/
theorem getElem?_min_largestIndex (hlength : arguments.length ≤ largestIndex) (number : Nat) :
    arguments[min number largestIndex]? = arguments[number]? := by
  rcases Nat.le_total number largestIndex with hnumber | hnumber
  · rw [Nat.min_eq_left hnumber]
  · rw [Nat.min_eq_right hnumber, List.getElem?_eq_none hlength,
      List.getElem?_eq_none (Nat.le_trans hlength hnumber)]

include hname

/-- The argument of the number that is spelled, or none if there are not so many. -/
theorem find_of_isDigit (hlength : arguments.length ≤ largestIndex)
    (hdigits : ∀ digit ∈ digits, digit.isDigit = true) :
    scope.find name =
      match arguments[Nat.ofDigitChars 10 digits 0]? with
      | some argument => .ok (argument, owner)
      | none => .error (.positionalOutOfRange (min (Nat.ofDigitChars 10 digits 0) largestIndex)
          arguments.length) := by
  rw [h.find (hname.positional?_of_isDigit hdigits), getElem?_min_largestIndex hlength]

theorem find_of_other (hlength : arguments.length ≤ largestIndex)
    (hother : ∃ digit ∈ digits, digit.isDigit = false) :
    scope.find name = .error (.positionalOutOfRange largestIndex arguments.length) := by
  rw [h.find (hname.positional?_of_other hother), List.getElem?_eq_none hlength]

end Arguments

/-! ## Bindings -/

/-- Frames of the same roles answer an index with the same expression, whatever they bind. -/
theorem findArgument_roles (index : Nat) {frames others : List (Frame ν)}
    (hroles : frames.map Frame.role = others.map Frame.role) :
    (findArgument index frames).map Prod.fst = (findArgument index others).map Prod.fst := by
  induction frames generalizing others with
  | nil =>
    rw [List.map_eq_nil_iff.1 hroles.symm]
  | cons frame outer ih =>
    cases others with
    | nil => cases hroles
    | cons other rest =>
      obtain ⟨hrole, houter⟩ := List.cons.inj hroles
      rw [findArgument, findArgument, ← hrole]
      cases frame.role.arguments? with
      | none => exact ih houter
      | some arguments =>
        dsimp only
        cases arguments[index]? <;> rfl

theorem lookup_roles {name : String} {index : Nat} (hindex : positional? name = some index)
    {scope other : Scope ν} (hroles : scope.frames.map Frame.role = other.frames.map Frame.role) :
    scope.lookup name = other.lookup name := by
  have hfound := findArgument_roles index hroles
  rw [lookup, lookup, find_index hindex, find_index hindex]
  generalize findArgument index scope.frames = found at hfound ⊢
  generalize findArgument index other.frames = otherFound at hfound ⊢
  rcases found with failure | ⟨argument, owner⟩ <;>
    rcases otherFound with otherFailure | ⟨otherArgument, otherOwner⟩ <;>
    cases hfound <;> rfl

/-! ## Saturation -/

/-- Indices saturate and never wrap. A name stands for an index exactly if it is `$` followed by
decimal digits, at least one and nothing else. If they are all from `0` to `9`, the index is the
number that they spell, with any zeros in front, or the largest number of 64 bits if that is less.
If one is of another script, it is that largest number. Where the nearest argument list is no
longer than that, lookup answers with the argument of the number itself or with none, and what
frames bind plays no part. -/
theorem indices_saturate (name : String) :
    ((positional? name).isSome ↔ ∃ digits, IndexName name digits) ∧
    (∀ digits, IndexName name digits → (∀ digit ∈ digits, digit.isDigit = true) →
      positional? name = some (min (Nat.ofDigitChars 10 digits 0) (Nat.pow 2 64 - 1)) ∧
      ∀ (scope owner : Scope ν) (arguments : List (Expr ν)),
        scope.AnsweredBy owner arguments → arguments.length ≤ Nat.pow 2 64 - 1 →
          scope.find name =
            match arguments[Nat.ofDigitChars 10 digits 0]? with
            | some argument => .ok (argument, owner)
            | none => .error (.positionalOutOfRange
                (min (Nat.ofDigitChars 10 digits 0) (Nat.pow 2 64 - 1)) arguments.length)) ∧
    (∀ zeros number, name.toList = '$' :: (List.replicate zeros '0' ++ Nat.toDigits 10 number) →
      positional? name = some (min number (Nat.pow 2 64 - 1))) ∧
    (∀ digits, IndexName name digits → (∃ digit ∈ digits, digit.isDigit = false) →
      positional? name = some (Nat.pow 2 64 - 1) ∧
      ∀ (scope owner : Scope ν) (arguments : List (Expr ν)),
        scope.AnsweredBy owner arguments → arguments.length ≤ Nat.pow 2 64 - 1 →
          scope.find name = .error (.positionalOutOfRange (Nat.pow 2 64 - 1) arguments.length)) ∧
    ∀ index, positional? name = some index → ∀ scope : Scope ν,
      ((∀ inner ∈ scope.chain, ¬HasArguments inner) →
        scope.find name = .error (.positionalOutOfRange index 0)) ∧
      ∀ other : Scope ν, scope.frames.map Frame.role = other.frames.map Frame.role →
        scope.lookup name = other.lookup name := by
  refine ⟨⟨fun h => ?_, fun ⟨digits, hname⟩ => ?_⟩, fun digits hname hdigits => ⟨?_, ?_⟩,
    fun zeros number => positional?_of_padded zeros number,
    fun digits hname hother => ⟨hname.positional?_of_other hother, ?_⟩,
    fun index hindex scope => ⟨find_unsupplied hindex, fun other => lookup_roles hindex⟩⟩
  · obtain ⟨index, hindex⟩ := Option.isSome_iff_exists.1 h
    exact exists_indexName hindex
  · rw [hname.positional?_eq]
    rfl
  · exact hname.positional?_of_isDigit hdigits
  · exact fun scope owner arguments h hlength => find_of_isDigit h hname hlength hdigits
  · exact fun scope owner arguments h hlength => find_of_other h hname hlength hother

/-- A call with two arguments. It binds `$01`, which names its second argument, and the name of the
first number that has more than 64 bits. -/
def shadowed : Scope Unit :=
  ⟨⟨1, .call [.identifier "a", .identifier "b"],
    ⟨[("$01", .identifier "bound"), ("$18446744073709551616", .identifier "bound")]⟩,
    .identifier "$01"⟩, [⟨0, .root, .empty, .failure .rootScopeMisuse⟩]⟩

/-- The call finds its second argument with a zero in front of the number, as it would if it bound
nothing, and the root finds none. The call finds none for the number after the largest one, and none
for a one of another script. A number with the end of the line after it is no index. -/
theorem indices_saturate_shadowed :
    shadowed.find "$01" = .ok (.identifier "b", shadowed) ∧
      shadowed.lookup "$01" =
        ({ shadowed with frame.bindings := .empty } : Scope Unit).lookup "$01" ∧
      (root 0 .empty : Scope Unit).find "$01" = .error (.positionalOutOfRange 1 0) ∧
      shadowed.find "$18446744073709551616" = .error (.positionalOutOfRange (Nat.pow 2 64 - 1) 2) ∧
      shadowed.find "$\u0967" = .error (.positionalOutOfRange (Nat.pow 2 64 - 1) 2) ∧
      positional? "$0018446744073709551615" = some (Nat.pow 2 64 - 1) ∧
      positional? "$1\n" = none := by
  have hshadowed : shadowed.AnsweredBy shadowed [.identifier "a", .identifier "b"] :=
    answeredBy_self rfl
  have hsecond : IndexName "$01" ['0', '1'] :=
    ⟨by rfl, by decide, List.all_eq_true.1 (by decide +kernel)⟩
  have hlarge : IndexName "$18446744073709551616" (Nat.toDigits 10 (Nat.pow 2 64)) :=
    ⟨by decide +kernel, Nat.toDigits_ne_nil, List.all_eq_true.1 (by decide +kernel)⟩
  have hforeign : IndexName "$\u0967" ['\u0967'] :=
    ⟨by rfl, by decide, List.all_eq_true.1 (by decide +kernel)⟩
  obtain ⟨-, hdigits, -, -, hindex⟩ := indices_saturate (ν := Unit) "$01"
  obtain ⟨hposition, hfindSecond⟩ := hdigits _ hsecond (List.all_eq_true.1 (by decide))
  obtain ⟨-, hfindLarge⟩ := (indices_saturate (ν := Unit) "$18446744073709551616").2.1 _ hlarge
    (List.all_eq_true.1 (by decide +kernel))
  obtain ⟨-, hfindForeign⟩ := (indices_saturate (ν := Unit) "$\u0967").2.2.2.1 _ hforeign
    ⟨'\u0967', List.mem_singleton_self _, rfl⟩
  refine ⟨hfindSecond shadowed _ _ hshadowed (by decide), (hindex _ hposition shadowed).2 _ rfl,
    (hindex _ hposition _).1 ?_, ?_, hfindForeign shadowed _ _ hshadowed (by decide),
    (indices_saturate (ν := Unit) "$0018446744073709551615").2.2.1 2 (Nat.pow 2 64 - 1) ?_, ?_⟩
  · exact List.forall_mem_singleton.2 fun ⟨_, harguments⟩ => nomatch harguments
  · rw [hfindLarge shadowed _ _ hshadowed (by decide), Nat.ofDigitChars_ten_toDigits]
    rfl
  · decide +kernel
  · refine Option.not_isSome_iff_eq_none.1 fun hsome => ?_
    obtain ⟨digits, hname⟩ := (indices_saturate (ν := Unit) "$1\n").1.1 hsome
    obtain ⟨-, rfl⟩ := List.cons.inj hname.spelling
    exact absurd (hname.decimal '\n' (by decide)) (by decide +kernel)

end Scope
end CallByNeed
