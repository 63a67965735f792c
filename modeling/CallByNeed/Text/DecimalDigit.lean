/-! # Decimal digits

The decimal digits of all scripts: the general category `Nd` as of version 16 of Unicode. Each
script's digits are ten consecutive code points that start with its zero. Numbers are read from the
digits `0` to `9` alone, one digit at a time, and only numbers of 64 bits are read.
-/

namespace CallByNeed.Text
set_option autoImplicit false

/-- The zeros of all scripts in increasing order. -/
def zeroDigits : Array Nat := #[
  0x30, 0x660, 0x6F0, 0x7C0, 0x966, 0x9E6, 0xA66, 0xAE6, 0xB66, 0xBE6, 0xC66, 0xCE6, 0xD66,
  0xDE6, 0xE50, 0xED0, 0xF20, 0x1040, 0x1090, 0x17E0, 0x1810, 0x1946, 0x19D0, 0x1A80, 0x1A90,
  0x1B50, 0x1BB0, 0x1C40, 0x1C50, 0xA620, 0xA8D0, 0xA900, 0xA9D0, 0xA9F0, 0xAA50, 0xABF0, 0xFF10,
  0x104A0, 0x10D30, 0x10D40, 0x11066, 0x110F0, 0x11136, 0x111D0, 0x112F0, 0x11450, 0x114D0,
  0x11650, 0x116C0, 0x116D0, 0x116DA, 0x11730, 0x118E0, 0x11950, 0x11BF0, 0x11C50, 0x11D50,
  0x11DA0, 0x11F50, 0x16130, 0x16A60, 0x16AC0, 0x16B50, 0x16D70, 0x1CCF0, 0x1D7CE,
  0x1D7D8, 0x1D7E2, 0x1D7EC, 0x1D7F6, 0x1E140, 0x1E2F0, 0x1E4F0, 0x1E5F1, 0x1E950, 0x1FBF0]

def isDecimalDigit (c : Char) : Bool :=
  zeroDigits.any fun first => first ≤ c.toNat && c.toNat < first + 10

def isAsciiDigit (c : Char) : Bool :=
  '0' ≤ c && c ≤ '9'

/-! ## Numbers of 64 bits -/

/-- The number, unless it takes more than 64 bits. -/
def checked (number : Nat) : Option Nat :=
  if number < Nat.pow 2 64 then some number else none

/-- Reads one more digit of a number. It has to be one of `0` to `9`, and neither ten times the
number nor the number with the digit may take more than 64 bits. -/
def readDigit (number : Nat) (digit : Char) : Option Nat := do
  let tens ← checked (10 * number)
  if isAsciiDigit digit then checked (tens + (digit.toNat - '0'.toNat)) else none

/-- Reads a number digit by digit. There is at least one. -/
def readDigits (digits : List Char) : Option Nat :=
  if digits.isEmpty then none else digits.foldlM readDigit 0

/-- Reads a number: digits after an optional plus sign, below `2 ^ 64`. -/
def readNumber : List Char → Option Nat
  | '+' :: digits => readDigits digits
  | digits => readDigits digits

end CallByNeed.Text
