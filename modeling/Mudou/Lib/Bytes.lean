import Mathlib.Data.List.Basic

/-!
# Byte strings

Bytes are `UInt8` and a string is the list of its bytes, so that a NUL, a CR
or a byte above `0x7f` is a value like any other. `str` turns an ASCII literal
into its bytes.
-/

namespace Mudou

abbrev Byte := UInt8

abbrev Bytes := List Byte

/-- The bytes of an ASCII literal. -/
def str (s : String) : Bytes := s.toList.map fun c => c.toNat.toUInt8

/-- Line feed, carriage return and space. -/
abbrev lf : Byte := 10
abbrev cr : Byte := 13
abbrev sp : Byte := 32

end Mudou
