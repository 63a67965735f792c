import CallByNeed.Decimal.Binary
import CallByNeed.Decimal.Shortest

/-! # Positional notation

Numbers are written with the fewest digits that read back, in positional notation whatever their
size: no exponent, no point without digits after it, a minus sign also on the negative zero.
-/

namespace CallByNeed.Decimal
set_option autoImplicit false

def DecimalNumber.positional (number : DecimalNumber) : String :=
  let digits := Nat.toDigits 10 number.digits
  if 0 ≤ number.exponent then
    String.ofList (digits ++ List.replicate number.exponent.toNat '0')
  else
    let places := (-number.exponent).toNat
    let padded := List.replicate (places + 1 - digits.length) '0' ++ digits
    let whole := padded.length - places
    String.ofList (padded.take whole ++ '.' :: padded.drop whole)

def BinaryNumber.text : BinaryNumber → String
  | .nan => "NaN"
  | .infinite negative => if negative then "-inf" else "inf"
  | .finite negative significand exponent closeBelow =>
      let magnitude :=
        if significand = 0 then "0"
        else (Interval.around significand exponent closeBelow).shortest.positional
      if negative then "-" ++ magnitude else magnitude

def BinaryFormat.text (format : BinaryFormat) (bits : Nat) : String :=
  (format.decode bits).text

end CallByNeed.Decimal
