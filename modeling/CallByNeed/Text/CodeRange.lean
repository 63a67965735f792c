/-! # Ranges of code points

A Unicode property is given by the ranges of the code points that have it.
-/

namespace CallByNeed.Text
set_option autoImplicit false

/-- The first and the last code point of a range. -/
abbrev CodeRange := Nat × Nat

def inRanges (ranges : Array CodeRange) (c : Char) : Bool :=
  ranges.any fun range => range.1 ≤ c.toNat && c.toNat ≤ range.2

end CallByNeed.Text
