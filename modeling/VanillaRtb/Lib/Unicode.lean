import Mathlib.Data.List.Basic

/-! # UTF-8 and UTF-16

A text is a list of code points. In UTF-16 those from U+10000 up take two units, a high and a low
surrogate, and all others take one. The units may be kept in a wider type.
-/

namespace VanillaRtb.Lib.Unicode

def utf8 (text : List Char) : List UInt8 := text.flatMap String.utf8EncodeChar

def decodeUtf8 (bytes : List UInt8) : Option (List Char) :=
  bytes.toByteArray.utf8Decode?.map Array.toList

/-- The units of one code point. -/
def units (c : Char) : List UInt32 :=
  if c.toNat < 0x10000 then
    [c.val]
  else
    [UInt32.ofNat (0xD800 + (c.toNat - 0x10000) / 0x400),
      UInt32.ofNat (0xDC00 + (c.toNat - 0x10000) % 0x400)]

def utf16 (text : List Char) : List UInt32 := text.flatMap units

def isHigh (u : UInt32) : Bool := 0xD800 ≤ u.toNat && u.toNat < 0xDC00

def isLow (u : UInt32) : Bool := 0xDC00 ≤ u.toNat && u.toNat < 0xE000

/-- A unit that is no surrogate stands for itself. -/
def decodeUtf16 : List UInt32 → Option (List Char)
  | [] => some []
  | [u] =>
      if !isHigh u && !isLow u && u.toNat < 0x110000 then some [Char.ofNat u.toNat] else none
  | u :: v :: rest =>
      if isHigh u then
        if isLow v then
          (decodeUtf16 rest).map
            (Char.ofNat (0x10000 + (u.toNat - 0xD800) * 0x400 + (v.toNat - 0xDC00)) :: ·)
        else
          none
      else if !isLow u && u.toNat < 0x110000 then
        (decodeUtf16 (v :: rest)).map (Char.ofNat u.toNat :: ·)
      else
        none

variable {c : Char} {text : List Char}

theorem decodeUtf8_utf8 (text : List Char) : decodeUtf8 (utf8 text) = some text := by
  have bytes : (utf8 text).toByteArray = text.utf8Encode := rfl
  simp [decodeUtf8, bytes]

theorem utf8_append (text more : List Char) : utf8 (text ++ more) = utf8 text ++ utf8 more :=
  List.flatMap_append

theorem utf16_append (text more : List Char) : utf16 (text ++ more) = utf16 text ++ utf16 more :=
  List.flatMap_append

/-- A code point is no surrogate. -/
theorem toNat_range (c : Char) : c.toNat < 0xD800 ∨ 0xE000 ≤ c.toNat ∧ c.toNat < 0x110000 := by
  have valid := c.valid
  unfold UInt32.isValidChar Nat.isValidChar at valid
  unfold Char.toNat
  omega

theorem units_one (basic : c.toNat < 0x10000) : units c = [c.val] := if_pos basic

theorem decodeUtf16_units (c : Char) (rest : List UInt32) :
    decodeUtf16 (units c ++ rest) = (decodeUtf16 rest).map (c :: ·) := by
  have range := toNat_range c
  by_cases basic : c.toNat < 0x10000
  · have noHigh : isHigh c.val = false := by
      simp only [isHigh]
      change (0xD800 ≤ c.toNat && c.toNat < 0xDC00) = false
      simp
      omega
    have noLow : isLow c.val = false := by
      simp only [isLow]
      change (0xDC00 ≤ c.toNat && c.toNat < 0xE000) = false
      simp
      omega
    have small : c.toNat < 0x110000 := by omega
    rw [units_one basic]
    cases rest with
    | nil => simp [decodeUtf16, noHigh, noLow, small]
    | cons v rest => simp [decodeUtf16, noHigh, noLow, small]
  · have high : (UInt32.ofNat (0xD800 + (c.toNat - 0x10000) / 0x400)).toNat =
        0xD800 + (c.toNat - 0x10000) / 0x400 := by
      apply UInt32.toNat_ofNat_of_lt'
      simp [UInt32.size]
      omega
    have low : (UInt32.ofNat (0xDC00 + (c.toNat - 0x10000) % 0x400)).toNat =
        0xDC00 + (c.toNat - 0x10000) % 0x400 := by
      apply UInt32.toNat_ofNat_of_lt'
      simp [UInt32.size]
      omega
    have isHigh_ : isHigh (UInt32.ofNat (0xD800 + (c.toNat - 0x10000) / 0x400)) = true := by
      simp only [isHigh, high]
      simp
      omega
    have isLow_ : isLow (UInt32.ofNat (0xDC00 + (c.toNat - 0x10000) % 0x400)) = true := by
      simp only [isLow, low]
      simp
      omega
    have whole : 0x10000 + (c.toNat - 0x10000) / 0x400 * 0x400 + (c.toNat - 0x10000) % 0x400 =
        c.toNat := by
      omega
    rw [units, if_neg basic, List.cons_append, List.cons_append, List.nil_append, decodeUtf16,
      if_pos isHigh_, if_pos isLow_, high, low]
    simp [whole, Char.ofNat_toNat]

theorem decodeUtf16_utf16 (text : List Char) : decodeUtf16 (utf16 text) = some text := by
  induction text with
  | nil => rfl
  | cons c text ih =>
      rw [utf16, List.flatMap_cons, decodeUtf16_units]
      rw [utf16] at ih
      simp [ih]

/-- There is one unit for each code point exactly if all are below U+10000. -/
theorem utf16_eq_iff (text : List Char) :
    utf16 text = text.map Char.val ↔ ∀ c ∈ text, c.toNat < 0x10000 := by
  have long (c : Char) : 1 ≤ (units c).length := by
    unfold units
    split <;> simp
  have atLeast (text : List Char) : text.length ≤ (utf16 text).length := by
    induction text with
    | nil => simp
    | cons c text ih =>
        have := long c
        rw [utf16, List.flatMap_cons, List.length_append, List.length_cons]
        rw [utf16] at ih
        omega
  induction text with
  | nil => simp [utf16]
  | cons c text ih =>
      by_cases basic : c.toNat < 0x10000
      · rw [utf16] at ih ⊢
        simp [units_one basic, basic, ih]
      · constructor
        · intro same
          have lengths := congrArg List.length same
          have := atLeast text
          rw [utf16, List.flatMap_cons, List.length_append, List.length_map, List.length_cons,
            units, if_neg basic] at lengths
          rw [utf16] at this
          simp only [List.length_cons, List.length_nil] at lengths
          omega
        · intro all
          exact absurd (all c List.mem_cons_self) basic

end VanillaRtb.Lib.Unicode
