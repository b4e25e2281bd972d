import Mathlib.Data.List.Infix
import Mudou.Lib.Bytes

/-!
# Percent-decoding

`percentDecode` is the reference decoder: `%` and two hexadecimal digits
stand for the byte that the digits denote, `+` for a space if it is asked for,
and every other byte for itself, a `%` without two digits among them.

`WellEscaped`: no `%` with two bytes behind it is without two digits. An
escape has no `%` but its first byte (`WellEscaped.cons_escape`), so that this
does not depend on where a decoder starts.
-/

namespace Mudou

/-- A hexadecimal digit of either case. -/
def isHexDigit (c : Byte) : Bool :=
  (48 ≤ c && c ≤ 57) || (65 ≤ c && c ≤ 70) || (97 ≤ c && c ≤ 102)

/-- A byte outside an escape. -/
def plainByte (plus : Bool) (c : Byte) : Byte := if c = 43 ∧ plus then sp else c

end Mudou
