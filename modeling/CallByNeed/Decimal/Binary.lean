/-! # Binary floating point numbers

The meaning of the bits of a binary interchange format: a sign, an exponent field and a fraction
field.
-/

namespace CallByNeed.Decimal
set_option autoImplicit false

/-- The widths of the fields of a binary format. -/
structure BinaryFormat where
  fractionBits : Nat
  exponentBits : Nat

def BinaryFormat.double : BinaryFormat := ⟨52, 11⟩

def BinaryFormat.single : BinaryFormat := ⟨23, 8⟩

inductive BinaryNumber where
  | nan
  | infinite (negative : Bool)
  /-- The number `significand * 2 ^ exponent` with its sign. It is `closeBelow` if the next smaller
  number of the format is only half as far away as the next larger one. -/
  | finite (negative : Bool) (significand : Nat) (exponent : Int) (closeBelow : Bool)

def BinaryFormat.decode (format : BinaryFormat) (bits : Nat) : BinaryNumber :=
  let fraction := bits % Nat.pow 2 format.fractionBits
  let field := bits / Nat.pow 2 format.fractionBits % Nat.pow 2 format.exponentBits
  let negative := bits / Nat.pow 2 (format.fractionBits + format.exponentBits) % 2 = 1
  let bias : Int := Int.pow 2 (format.exponentBits - 1) - 1 + format.fractionBits
  if field = Nat.pow 2 format.exponentBits - 1 then
    if fraction = 0 then .infinite negative else .nan
  else if field = 0 then .finite negative fraction (1 - bias) false
  else
    .finite negative (fraction + Nat.pow 2 format.fractionBits) (field - bias)
      (fraction = 0 && 1 < field)

end CallByNeed.Decimal
