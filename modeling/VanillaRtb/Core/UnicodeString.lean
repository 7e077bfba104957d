import VanillaRtb.Lib.Unicode
import VanillaRtb.OpenRtb

/-! # Unicode strings

`unicode_string` converts with `std::codecvt_utf8_utf16<char32_t>`, so it holds the units of
UTF-16, each in a `char32_t`. What is converted back and what is appended is right all the same;
how many elements there are and how they compare is right below U+10000.
-/

namespace VanillaRtb.OpenRtb

open Lib Lib.Unicode

/-- `vanilla::from_utf8`; none where `from_bytes` throws. -/
def fromUtf8 (source : StdString) : Option (List UInt32) := (decodeUtf8 source).map utf16

/-- `vanilla::to_utf8`; none where `to_bytes` throws. -/
def toUtf8 (source : List UInt32) : Option StdString := (decodeUtf16 source).map utf8

namespace UnicodeString

/-- The constructor from a `std::string`. -/
def ofString (source : StdString) : Option UnicodeString := (fromUtf8 source).map mk

variable (u other : UnicodeString)

def toUtf8 : Option StdString := OpenRtb.toUtf8 u.data

def length : Nat := u.data.length

/-- `operator+=(const std::string &)` -/
def appendString (source : StdString) : Option UnicodeString :=
  (fromUtf8 source).map fun more => ⟨u.data ++ more⟩

/-- `operator+=(const unicode_string &)` -/
def append : UnicodeString := ⟨u.data ++ other.data⟩

/-- `operator<` -/
def less : Bool := u.data < other.data

end UnicodeString

/-- Two texts, as `unicode_string`s of their UTF-8, are handled by their code points: there is one
element for each, they compare like these, they are converted back, and appended they are the
`unicode_string` of the two one behind the other. -/
def HeldByCodePoints (s t : List Char) : Prop :=
  ∃ u v, UnicodeString.ofString (utf8 s) = some u ∧ UnicodeString.ofString (utf8 t) = some v ∧
    (u.data = s.map Char.val ∧ v.data = t.map Char.val) ∧
    (u.length = s.length ∧ v.length = t.length) ∧
    u.less v = decide (s.map Char.val < t.map Char.val) ∧
    (u.toUtf8 = some (utf8 s) ∧ v.toUtf8 = some (utf8 t)) ∧
    UnicodeString.ofString (utf8 s ++ utf8 t) = some (u.append v) ∧
    u.appendString (utf8 t) = some (u.append v)

section

variable (s t : List Char)

theorem fromUtf8_utf8 : fromUtf8 (utf8 s) = some (utf16 s) := by
  simp [fromUtf8, decodeUtf8_utf8]

theorem ofString_utf8 : UnicodeString.ofString (utf8 s) = some ⟨utf16 s⟩ := by
  simp [UnicodeString.ofString, fromUtf8_utf8]

/-- Whatever the code points are, nothing is lost. -/
theorem toUtf8_ofString : (UnicodeString.mk (utf16 s)).toUtf8 = some (utf8 s) := by
  simp [UnicodeString.toUtf8, toUtf8, decodeUtf16_utf16]

theorem ofString_append :
    UnicodeString.ofString (utf8 s ++ utf8 t) =
      some ((UnicodeString.mk (utf16 s)).append ⟨utf16 t⟩) := by
  simp [← utf8_append, ofString_utf8, utf16_append, UnicodeString.append]

theorem appendString_utf8 :
    (UnicodeString.mk (utf16 s)).appendString (utf8 t) =
      some ((UnicodeString.mk (utf16 s)).append ⟨utf16 t⟩) := by
  simp [UnicodeString.appendString, fromUtf8_utf8, UnicodeString.append]

theorem held_iff_basic :
    HeldByCodePoints s t ↔ ∀ c ∈ s ++ t, c.toNat < 0x10000 := by
  have basic : (∀ c ∈ s ++ t, c.toNat < 0x10000) ↔
      utf16 s = s.map Char.val ∧ utf16 t = t.map Char.val := by
    rw [utf16_eq_iff, utf16_eq_iff]
    simp [or_imp, forall_and]
  rw [basic]
  constructor
  · rintro ⟨u, v, first, second, same, -⟩
    rw [ofString_utf8] at first second
    cases first
    cases second
    exact same
  · rintro ⟨first, second⟩
    refine ⟨⟨utf16 s⟩, ⟨utf16 t⟩, ofString_utf8 s, ofString_utf8 t, ⟨first, second⟩, ?_, ?_,
      ⟨toUtf8_ofString s, toUtf8_ofString t⟩, ofString_append s t, appendString_utf8 s t⟩
    · simp [UnicodeString.length, first, second]
    · simp [UnicodeString.less, first, second]

end

/-- U+1F600 takes two elements. -/
theorem emoji_held_twice : ¬ HeldByCodePoints [Char.ofNat 0x1F600] [] := by
  rintro ⟨u, v, first, -, ⟨same, -⟩, -⟩
  rw [ofString_utf8] at first
  cases first
  exact absurd same (by decide)

end VanillaRtb.OpenRtb
