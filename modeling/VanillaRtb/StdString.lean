import Mathlib

/-! # Byte strings

`std::string` is a sequence of bytes; nothing in the repository depends on an
encoding except where a byte is compared with a character literal.
-/

namespace VanillaRtb

abbrev StdString := List UInt8

/-- The bytes of a literal, all of them below 128. -/
def ascii (s : String) : StdString := s.toList.map fun c => c.toNat.toUInt8

/-- `std::to_string` of an unsigned integer. -/
def toString (n : Nat) : StdString := (Nat.toDigits 10 n).map fun c => c.toNat.toUInt8

/-- `std::tolower` of one byte in the classic locale. -/
def tolower (c : UInt8) : UInt8 := if 65 ≤ c ∧ c ≤ 90 then c + 32 else c

/-- `boost::algorithm::to_lower_copy` in the classic locale. -/
def toLowerCopy (s : StdString) : StdString := s.map tolower

end VanillaRtb
