import CallByNeed.Text.DecimalDigit

/-! # Positional identifiers

An identifier is a name. The names `$0`, `$1`, … are reserved: they stand for the arguments of the
nearest enclosing call.
-/

namespace CallByNeed
set_option autoImplicit false

/-- The index that stands for every index too large to be one. -/
def largestIndex : Nat := Nat.pow 2 64 - 1

/-- The argument index that a name stands for, if it is `$` followed by decimal digits only. Digits
that cannot be read as a number stand for the largest index. -/
def positional? (name : String) : Option Nat :=
  match name.toList with
  | '$' :: digits =>
      if digits.isEmpty || !digits.all Text.isDecimalDigit then none
      else some ((Text.readNumber digits).getD largestIndex)
  | _ => none

end CallByNeed
