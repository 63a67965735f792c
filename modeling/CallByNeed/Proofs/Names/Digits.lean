import CallByNeed.Identifier

/-! # Names of digits

A name is that of an argument if it is `$` followed by decimal digits (`IndexName`). The digits are
read one by one, and reading stops at the first digit that is none of `0` to `9` and at the first
number of more than 64 bits. As numbers only grow while they are read, a number is read to its end
exactly if it has at most 64 bits at its end (`Text.foldlM_readDigit`), so an index is the number
that is spelled or the largest one, whichever is less (`IndexName.positional?_of_isDigit`).
-/

namespace CallByNeed
set_option autoImplicit false

namespace Text

variable {digits : List Char} {digit : Char}

/-! ## Digits -/

theorem isAsciiDigit_eq_isDigit (digit : Char) : isAsciiDigit digit = digit.isDigit := rfl

theorem isDecimalDigit_of_isDigit (h : digit.isDigit = true) : isDecimalDigit digit = true := by
  have hdigit := Char.isDigit_iff_toNat.1 h
  refine Array.any_eq_true.2 ⟨0, by decide, Bool.and_eq_true_iff.2 ?_⟩
  exact ⟨decide_eq_true hdigit.1, decide_eq_true (Nat.lt_succ_of_le hdigit.2)⟩

/-! ## Reading numbers -/

theorem checked_of_lt {number : Nat} (h : number < Nat.pow 2 64) : checked number = some number :=
  if_pos h

theorem checked_of_le {number : Nat} (h : Nat.pow 2 64 ≤ number) : checked number = none :=
  if_neg (Nat.not_lt.2 h)

/-- A number that takes more than 64 bits counts as the largest index. -/
theorem checked_getD (number : Nat) :
    (checked number).getD largestIndex = min number largestIndex := by
  have hlargest : largestIndex + 1 = Nat.pow 2 64 := rfl
  rcases Nat.lt_or_ge number (Nat.pow 2 64) with h | h
  · rw [checked_of_lt h, Option.getD_some, Nat.min_eq_left (by omega)]
  · rw [checked_of_le h, Option.getD_none, Nat.min_eq_right (by omega)]

/-- One more digit is read unless the number with the digit is too large: ten times the number is
no larger. -/
theorem readDigit_of_isDigit (number : Nat) (h : digit.isDigit = true) :
    readDigit number digit = checked (10 * number + (digit.toNat - '0'.toNat)) := by
  rw [readDigit, isAsciiDigit_eq_isDigit, h]
  rcases Nat.lt_or_ge (10 * number) (Nat.pow 2 64) with htens | htens
  · rw [checked_of_lt htens]
    rfl
  · rw [checked_of_le htens, checked_of_le (Nat.le_add_right_of_le htens)]
    rfl

theorem readDigit_of_not_isDigit (number : Nat) (h : digit.isDigit = false) :
    readDigit number digit = none := by
  rw [readDigit, isAsciiDigit_eq_isDigit, h]
  cases checked (10 * number) <;> rfl

/-- Reading on never makes a number smaller. -/
theorem le_ofDigitChars (digits : List Char) (number : Nat) :
    number ≤ Nat.ofDigitChars 10 digits number := by
  rw [Nat.ofDigitChars_eq_ofDigitChars_zero]
  exact Nat.le_add_right_of_le (Nat.le_mul_of_pos_left number (Nat.pow_pos (by decide)))

/-- All digits are read unless the number that they spell is too large: once a number is too large,
so is every one after it. -/
theorem foldlM_readDigit (hdigits : ∀ digit ∈ digits, digit.isDigit = true) {number : Nat}
    (hnumber : number < Nat.pow 2 64) :
    digits.foldlM readDigit number = checked (Nat.ofDigitChars 10 digits number) := by
  induction digits generalizing number with
  | nil => exact (checked_of_lt hnumber).symm
  | cons digit rest ih =>
    obtain ⟨hdigit, hrest⟩ := List.forall_mem_cons.1 hdigits
    rw [List.foldlM_cons, readDigit_of_isDigit number hdigit, Nat.ofDigitChars_cons]
    rcases Nat.lt_or_ge (10 * number + (digit.toNat - '0'.toNat)) (Nat.pow 2 64) with hnext | hnext
    · rw [checked_of_lt hnext]
      exact ih hrest hnext
    · rw [checked_of_le hnext, checked_of_le (Nat.le_trans hnext (le_ofDigitChars rest _))]
      rfl

theorem foldlM_readDigit_of_other (hother : ∃ digit ∈ digits, digit.isDigit = false)
    (number : Nat) : digits.foldlM readDigit number = none := by
  induction digits generalizing number with
  | nil =>
    obtain ⟨digit, hdigit, -⟩ := hother
    cases hdigit
  | cons digit rest ih =>
    rw [List.foldlM_cons]
    obtain ⟨other, hmem, hother⟩ := hother
    rcases List.mem_cons.1 hmem with rfl | hrest
    · rw [readDigit_of_not_isDigit number hother]
      rfl
    · cases readDigit number digit with
      | none => rfl
      | some next => exact ih ⟨other, hrest, hother⟩ next

/-- Decimal digits have no sign in front. -/
theorem readNumber_of_decimal (hsome : digits ≠ [])
    (hdecimal : ∀ digit ∈ digits, isDecimalDigit digit = true) :
    readNumber digits = digits.foldlM readDigit 0 := by
  cases digits with
  | nil => exact absurd rfl hsome
  | cons first rest =>
    have hplus : isDecimalDigit '+' = false := by decide +kernel
    have hfirst := hdecimal first List.mem_cons_self
    unfold readNumber
    split
    next hsigned =>
      obtain ⟨rfl, -⟩ := List.cons.inj hsigned
      exact absurd hfirst (by rw [hplus]; decide)
    next => rfl

end Text

/-! ## Names of arguments -/

/-- The name is `$` followed by these decimal digits, at least one, and by nothing else. -/
structure IndexName (name : String) (digits : List Char) : Prop where
  spelling : name.toList = '$' :: digits
  nonempty : digits ≠ []
  decimal : ∀ digit ∈ digits, Text.isDecimalDigit digit = true

/-- The name of an index is `$` and digits. -/
theorem exists_indexName {name : String} {index : Nat} (h : positional? name = some index) :
    ∃ digits, IndexName name digits := by
  unfold positional? at h
  split at h
  next digits hspelling =>
    split at h
    next => cases h
    next hdigits =>
      rw [Bool.not_eq_true, Bool.or_eq_false_iff, Bool.not_eq_false', List.all_eq_true] at hdigits
      exact ⟨digits, hspelling, List.isEmpty_eq_false_iff.1 hdigits.1, hdigits.2⟩
  next => cases h

namespace IndexName

variable {name : String} {digits : List Char} (h : IndexName name digits)
include h

theorem positional?_eq :
    positional? name = some ((digits.foldlM Text.readDigit 0).getD largestIndex) := by
  have hempty : digits.isEmpty = false := List.isEmpty_eq_false_iff.2 h.nonempty
  have hall : digits.all Text.isDecimalDigit = true := List.all_eq_true.2 h.decimal
  rw [← Text.readNumber_of_decimal h.nonempty h.decimal, positional?, h.spelling]
  show (if digits.isEmpty || !digits.all Text.isDecimalDigit then none
    else some ((Text.readNumber digits).getD largestIndex)) = _
  rw [hempty, hall]
  rfl

/-- Digits from `0` to `9` stand for the number that they spell, or for the largest index if that
number is larger. -/
theorem positional?_of_isDigit (hdigits : ∀ digit ∈ digits, digit.isDigit = true) :
    positional? name = some (min (Nat.ofDigitChars 10 digits 0) largestIndex) := by
  rw [h.positional?_eq, Text.foldlM_readDigit hdigits (by decide), Text.checked_getD]

/-- Digits of which some are of another script stand for the largest index. -/
theorem positional?_of_other (hother : ∃ digit ∈ digits, digit.isDigit = false) :
    positional? name = some largestIndex := by
  rw [h.positional?_eq, Text.foldlM_readDigit_of_other hother, Option.getD_none]

end IndexName

/-- A number stands for itself, however many zeros are written in front of it, up to the largest
index. -/
theorem positional?_of_padded {name : String} (zeros number : Nat)
    (hname : name.toList = '$' :: (List.replicate zeros '0' ++ Nat.toDigits 10 number)) :
    positional? name = some (min number largestIndex) := by
  have hdigits : ∀ digit ∈ List.replicate zeros '0' ++ Nat.toDigits 10 number,
      digit.isDigit = true := by
    intro digit hdigit
    rcases List.mem_append.1 hdigit with hzero | hnumber
    · rw [List.eq_of_mem_replicate hzero]
      rfl
    · exact Nat.isDigit_of_mem_toDigits (by decide) (by decide) hnumber
  have h : IndexName name (List.replicate zeros '0' ++ Nat.toDigits 10 number) :=
    ⟨hname, List.append_ne_nil_of_right_ne_nil _ Nat.toDigits_ne_nil,
      fun digit hdigit => Text.isDecimalDigit_of_isDigit (hdigits digit hdigit)⟩
  rw [h.positional?_of_isDigit hdigits, Nat.ofDigitChars_append, Nat.ofDigitChars_replicate_zero,
    Nat.mul_zero, Nat.ofDigitChars_ten_toDigits]

end CallByNeed
