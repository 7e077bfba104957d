import Mathlib

/-! # JSON documents

The syntax of a document with everything that its bytes say: white space, the spelling of
numbers and the escapes of strings. A document is well formed by construction, so what is
true of every document is true of every well-formed text.
-/

namespace VanillaRtb.Lib

namespace JsonText

def isSpace (c : UInt8) : Bool := c = 32 ∨ c = 9 ∨ c = 10 ∨ c = 13

/-- White space, maybe none. -/
structure Space where
  bytes : List UInt8
  isSpace : ∀ c ∈ bytes, JsonText.isSpace c = true

def digit (d : Fin 10) : UInt8 := UInt8.ofNat (48 + d)

inductive Integral where
  | zero
  | positive (first : Fin 9) (more : List (Fin 10))

structure Fraction where
  first : Fin 10
  more : List (Fin 10)

structure Exponent where
  capital : Bool
  /-- Nothing, a plus or a minus sign. -/
  sign : Option Bool
  first : Fin 10
  more : List (Fin 10)

structure Number where
  minus : Bool
  integral : Integral
  fraction : Option Fraction
  exponent : Option Exponent

inductive Escape where
  | quote
  | backslash
  | slash
  | backspace
  | formFeed
  | newline
  | carriageReturn
  | tab

structure HexDigit where
  value : Fin 16
  capital : Bool

inductive Character where
  | plain (c : UInt8) (valid : 32 ≤ c ∧ c ≠ 34 ∧ c ≠ 92)
  | escape (e : Escape)
  | unicode (a b c d : HexDigit)

structure Element (J : Type) where
  before : Space
  value : J
  after : Space

structure Member (J : Type) where
  before : Space
  name : List Character
  colonBefore : Space
  colonAfter : Space
  value : J
  after : Space

end JsonText

open JsonText

/-- The white space of a container stands before its closing bracket. -/
inductive Json where
  | null
  | boolean (b : Bool)
  | number (n : Number)
  | string (s : List Character)
  | array (elements : List (Element Json)) (space : Space)
  | object (members : List (Member Json)) (space : Space)

namespace JsonText

section Spelling

namespace Integral

def digits : Integral → List (Fin 10)
  | zero => [0]
  | positive first more => first.succ :: more

end Integral

def magnitude (ds : List (Fin 10)) : Nat := ds.foldl (fun n d => 10 * n + d.val) 0

namespace Fraction

def digits (f : Fraction) : List (Fin 10) := f.first :: f.more

def text (f : Fraction) : List UInt8 := 46 :: f.digits.map digit

end Fraction

namespace Exponent

def digits (e : Exponent) : List (Fin 10) := e.first :: e.more

def signText (e : Exponent) : List UInt8 :=
  match e.sign with
  | none => []
  | some false => [43]
  | some true => [45]

def text (e : Exponent) : List UInt8 :=
  (if e.capital then 69 else 101) :: (e.signText ++ e.digits.map digit)

def value (e : Exponent) : ℤ := if e.sign = some true then -magnitude e.digits else magnitude e.digits

end Exponent

namespace Number

def text (n : Number) : List UInt8 :=
  (if n.minus then [45] else []) ++ n.integral.digits.map digit ++
    (n.fraction.elim [] Fraction.text ++ n.exponent.elim [] Exponent.text)

/-- The number that is written. -/
def value (n : Number) : ℚ :=
  (if n.minus then -1 else 1) *
    (magnitude n.integral.digits +
      n.fraction.elim 0 fun f => (magnitude f.digits : ℚ) / 10 ^ f.digits.length) *
    10 ^ (n.exponent.elim 0 Exponent.value)

end Number

namespace Escape

def letter : Escape → UInt8
  | quote => 34
  | backslash => 92
  | slash => 47
  | backspace => 98
  | formFeed => 102
  | newline => 110
  | carriageReturn => 114
  | tab => 116

end Escape

def HexDigit.text (d : HexDigit) : UInt8 :=
  UInt8.ofNat (if d.value.val < 10 then 48 + d.value else if d.capital then 55 + d.value
    else 87 + d.value)

namespace Character

def text : Character → List UInt8
  | plain c _ => [c]
  | escape e => [92, e.letter]
  | unicode a b c d => [92, 117, a.text, b.text, c.text, d.text]

end Character

/-- What stands between the quotes. -/
def stringText (s : List Character) : List UInt8 := s.flatMap Character.text

def quoted (s : List Character) : List UInt8 := 34 :: (stringText s ++ [34])

/-- The byte that an escape stands for. -/
def Escape.meaning : Escape → UInt8
  | quote => 34
  | backslash => 92
  | slash => 47
  | backspace => 8
  | formFeed => 12
  | newline => 10
  | carriageReturn => 13
  | tab => 9

def codeUnit (a b c d : HexDigit) : Nat :=
  ((a.value.val * 16 + b.value.val) * 16 + c.value.val) * 16 + d.value.val

def utf8 (n : Nat) : List UInt8 :=
  if n < 0x80 then [UInt8.ofNat n]
  else if n < 0x800 then [UInt8.ofNat (0xC0 + n / 64), UInt8.ofNat (0x80 + n % 64)]
  else if n < 0x10000 then
    [UInt8.ofNat (0xE0 + n / 4096), UInt8.ofNat (0x80 + n / 64 % 64), UInt8.ofNat (0x80 + n % 64)]
  else
    [UInt8.ofNat (0xF0 + n / 262144), UInt8.ofNat (0x80 + n / 4096 % 64),
      UInt8.ofNat (0x80 + n / 64 % 64), UInt8.ofNat (0x80 + n % 64)]

/-- What the string says in UTF-8, nothing where half of a surrogate pair is missing. -/
def contents : List Character → Option (List UInt8)
  | [] => some []
  | .plain c _ :: s => (contents s).map (c :: ·)
  | .escape e :: s => (contents s).map (e.meaning :: ·)
  | .unicode a b c d :: s =>
      let high := codeUnit a b c d
      if 0xD800 ≤ high ∧ high < 0xDC00 then
        match s with
        | .unicode a b c d :: s =>
            let low := codeUnit a b c d
            if 0xDC00 ≤ low ∧ low < 0xE000 then
              (contents s).map (utf8 (0x10000 + (high - 0xD800) * 1024 + (low - 0xDC00)) ++ ·)
            else none
        | _ => none
      else (contents s).map (utf8 high ++ ·)

def Character.isPlain : Character → Bool
  | plain _ _ => true
  | _ => false

theorem contents_plain {s : List Character} (plain : ∀ c ∈ s, c.isPlain = true) :
    contents s = some (stringText s) := by
  induction s with
  | nil => rfl
  | cons c s ih =>
      rw [List.forall_mem_cons] at plain
      cases c with
      | plain c valid => rw [contents, ih plain.2]; rfl
      | escape e => cases plain.1
      | unicode a b c d => cases plain.1

theorem utf8_length (n : Nat) : (utf8 n).length ≤ 4 := by
  unfold utf8
  split_ifs <;> simp

theorem stringText_cons (c : Character) (s : List Character) :
    stringText (c :: s) = c.text ++ stringText s := List.flatMap_cons

theorem stringText_nil_iff (s : List Character) : stringText s = [] ↔ s = [] := by
  cases s with
  | nil => exact iff_of_true rfl rfl
  | cons c s => cases c <;> simp [stringText_cons, Character.text]

theorem isPlain_plain (c : UInt8) (valid : 32 ≤ c ∧ c ≠ 34 ∧ c ≠ 92) :
    (Character.plain c valid).isPlain = true := rfl

theorem isPlain_escape (e : Escape) : (Character.escape e).isPlain = false := rfl

theorem isPlain_unicode (a b c d : HexDigit) : (Character.unicode a b c d).isPlain = false := rfl

/-- Escapes are longer than what they stand for. -/
theorem contents_length {s : List Character} {t : List UInt8} (h : contents s = some t) :
    t.length + s.countP (fun c => !c.isPlain) ≤ (stringText s).length := by
  fun_induction contents s generalizing t with
  | case1 => cases h; simp
  | case2 c valid s ih =>
      obtain ⟨t, rest, rfl⟩ := Option.map_eq_some_iff.1 h
      have := ih rest
      simp [stringText_cons, isPlain_plain, Character.text]
      omega
  | case3 e s ih =>
      obtain ⟨t, rest, rfl⟩ := Option.map_eq_some_iff.1 h
      have := ih rest
      simp [stringText_cons, isPlain_escape, Character.text]
      omega
  | case4 a b c d high surrogate a' b' c' d' s low pair =>
      rename_i ih
      obtain ⟨t, rest, rfl⟩ := Option.map_eq_some_iff.1 h
      have := ih rest
      have := utf8_length (0x10000 + (high - 0xD800) * 1024 + (low - 0xDC00))
      simp [stringText_cons, isPlain_unicode, Character.text]
      omega
  | case5 | case6 => cases h
  | case7 a b c d s high single =>
      rename_i ih
      obtain ⟨t, rest, rfl⟩ := Option.map_eq_some_iff.1 h
      have := ih rest
      have := utf8_length high
      simp [stringText_cons, isPlain_unicode, Character.text]
      omega

/-- A string that says what is written has no escapes. -/
theorem contents_text_iff (s : List Character) :
    contents s = some (stringText s) ↔ ∀ c ∈ s, c.isPlain = true := by
  constructor
  · intro same c mem
    have none_ : s.countP (fun c => !c.isPlain) = 0 := by
      have := contents_length same
      omega
    simpa using List.countP_eq_zero.1 none_ c mem
  · exact contents_plain

theorem utf8_ne_nil (n : Nat) : utf8 n ≠ [] := by
  unfold utf8
  split_ifs <;> nofun

/-- Only the empty string says nothing. -/
theorem contents_nil_iff (s : List Character) : contents s = some [] ↔ s = [] := by
  refine ⟨fun h => ?_, fun h => h ▸ rfl⟩
  fun_induction contents s with
  | case1 => rfl
  | case5 | case6 => cases h
  | _ => simp [utf8_ne_nil] at h

/-- A comma before all but the first. -/
def separator (first : Bool) : List UInt8 := if first then [] else [44]

end Spelling

end JsonText

namespace Json

mutual

def text : Json → List UInt8
  | null => [110, 117, 108, 108]
  | boolean true => [116, 114, 117, 101]
  | boolean false => [102, 97, 108, 115, 101]
  | number n => n.text
  | string s => quoted s
  | array es space => 91 :: (textOfElements true es ++ (space.bytes ++ [93]))
  | object ms space => 123 :: (textOfMembers true ms ++ (space.bytes ++ [125]))

def textOfElements (first : Bool) : List (Element Json) → List UInt8
  | [] => []
  | ⟨before, v, after⟩ :: es =>
      separator first ++ (before.bytes ++ (v.text ++ (after.bytes ++ textOfElements false es)))

def textOfMembers (first : Bool) : List (Member Json) → List UInt8
  | [] => []
  | ⟨before, name, colonBefore, colonAfter, v, after⟩ :: ms =>
      separator first ++ (before.bytes ++ (quoted name ++ (colonBefore.bytes ++
        (58 :: (colonAfter.bytes ++ (v.text ++ (after.bytes ++ textOfMembers false ms)))))))

end

mutual

/-- No string has an escape. -/
def Unescaped : Json → Prop
  | string s => ∀ c ∈ s, c.isPlain = true
  | array es _ => UnescapedElements es
  | object ms _ => UnescapedMembers ms
  | _ => True

def UnescapedElements : List (Element Json) → Prop
  | [] => True
  | ⟨_, v, _⟩ :: es => v.Unescaped ∧ UnescapedElements es

def UnescapedMembers : List (Member Json) → Prop
  | [] => True
  | ⟨_, name, _, _, v, _⟩ :: ms =>
      (∀ c ∈ name, c.isPlain = true) ∧ v.Unescaped ∧ UnescapedMembers ms

end

end Json

/-- A document: one value between white space. -/
structure JsonDocument where
  before : Space
  value : Json
  after : Space

def JsonDocument.text (d : JsonDocument) : List UInt8 :=
  d.before.bytes ++ (d.value.text ++ d.after.bytes)

namespace JsonText

section NoNul

/-! No text has a NUL byte. -/

theorem digits_noNul (ds : List (Fin 10)) : 0 ∉ ds.map digit := by
  have one : ∀ d, digit d ≠ 0 := by decide
  simp [one]

theorem space_noNul (space : Space) : 0 ∉ space.bytes := by
  intro nul
  exact absurd (space.isSpace 0 nul) (by decide)

theorem exponent_noNul (e : Exponent) : 0 ∉ e.text := by
  have marker : (0 : UInt8) ≠ if e.capital then 69 else 101 := by cases e.capital <;> decide
  have sign : 0 ∉ e.signText := by
    unfold Exponent.signText
    split <;> decide
  simp only [Exponent.text, List.mem_cons, List.mem_append, not_or]
  exact ⟨marker, sign, digits_noNul _⟩

theorem number_noNul (n : Number) : 0 ∉ n.text := by
  obtain ⟨minus, integral, fraction, exponent⟩ := n
  have noMinus : (0 : UInt8) ∉ if minus then [45] else [] := by cases minus <;> decide
  have noFraction : 0 ∉ fraction.elim [] Fraction.text := by
    cases fraction with
    | none => exact List.not_mem_nil
    | some f =>
        rw [Option.elim_some, Fraction.text, List.mem_cons, not_or]
        exact ⟨by decide, digits_noNul _⟩
  have noExponent : 0 ∉ exponent.elim [] Exponent.text := by
    cases exponent with
    | none => exact List.not_mem_nil
    | some e => exact exponent_noNul e
  simp only [Number.text, List.mem_append, not_or]
  exact ⟨⟨noMinus, digits_noNul _⟩, noFraction, noExponent⟩

theorem character_noNul (c : Character) : 0 ∉ c.text := by
  have hex : ∀ d : HexDigit, 0 ≠ d.text := by
    rintro ⟨value, capital⟩
    revert value capital
    decide
  cases c with
  | plain c valid =>
      rw [Character.text, List.mem_singleton]
      rintro rfl
      exact absurd valid.1 (by decide)
  | escape e => cases e <;> decide
  | unicode a b c d => simp [Character.text, hex]

theorem quoted_noNul (s : List Character) : 0 ∉ quoted s := by
  simp [quoted, stringText, character_noNul]

theorem separator_noNul (first : Bool) : 0 ∉ separator first := by cases first <;> decide

mutual

theorem value_noNul (v : Json) : 0 ∉ v.text := by
  cases v with
  | null => decide
  | boolean b => cases b <;> decide
  | number n => exact number_noNul n
  | string s => exact quoted_noNul s
  | array es space =>
      simp [Json.text, elements_noNul true es, space_noNul]
  | object ms space =>
      simp [Json.text, members_noNul true ms, space_noNul]

theorem elements_noNul (first : Bool) (es : List (Element Json)) :
    0 ∉ Json.textOfElements first es := by
  cases es with
  | nil => exact List.not_mem_nil
  | cons e es =>
      obtain ⟨before, v, after⟩ := e
      simp [Json.textOfElements, separator_noNul, space_noNul, value_noNul v,
        elements_noNul false es]

theorem members_noNul (first : Bool) (ms : List (Member Json)) :
    0 ∉ Json.textOfMembers first ms := by
  cases ms with
  | nil => exact List.not_mem_nil
  | cons m ms =>
      obtain ⟨before, name, colonBefore, colonAfter, v, after⟩ := m
      simp [Json.textOfMembers, separator_noNul, space_noNul, quoted_noNul, value_noNul v,
        members_noNul false ms]

end

end NoNul

end JsonText

theorem JsonDocument.text_noNul (d : JsonDocument) : 0 ∉ d.text := by
  simp [JsonDocument.text, JsonText.space_noNul, JsonText.value_noNul]

end VanillaRtb.Lib
