import CallByNeed.Text.DefaultIgnorable
import CallByNeed.Text.GraphemeExtend
import CallByNeed.Text.Unprintable

/-! # Quoted text

A text in double quotes. The quote, the backslash and the common control characters are written
with a backslash, and every other character that a reader could not see as a shape of its own is
written by its code point.
-/

namespace CallByNeed.Text
set_option autoImplicit false

/-- The code point of a character in lower case hexadecimal without leading zeros. -/
def hexDigits (c : Char) : List Char :=
  Nat.toDigits 16 c.toNat

/-- Whether a character is written as it is, the quote and the backslash apart. -/
def isPlain (c : Char) : Bool :=
  if c.toNat < 0x80 then ' ' ≤ c && c ≤ '~'
  else !isCombining c && !isDefaultIgnorable c && !isUnprintable c

def escape (c : Char) : List Char :=
  match c with
  | '\x00' => ['\\', '0']
  | '\t' => ['\\', 't']
  | '\r' => ['\\', 'r']
  | '\n' => ['\\', 'n']
  | '"' => ['\\', '"']
  | '\\' => ['\\', '\\']
  | _ => if isPlain c then [c] else ['\\', 'u', '\x7b'] ++ hexDigits c ++ ['\x7d']

/-- The text in double quotes with its escapes. -/
def quoted (text : String) : String :=
  String.ofList ('"' :: text.toList.flatMap escape ++ ['"'])

end CallByNeed.Text
