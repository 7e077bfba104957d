import VanillaRtb.Dsl.Decoding

/-! # The tree a document denotes

Arrays keep their elements and objects their members in order, null is left out, and a
number is its value: exactly as an integer, or as the nearest double. Encoding a document
gives such a tree under conditions on its numbers, its names and its nulls, and under no
others.
-/

namespace VanillaRtb.Dsl

open Lib Lib.JsonText Parsers Parsers.Jsmn Encoders

section Denotes

variable (nearest : ℚ → Float)

def NumberDenotes (n : Number) : JsonValue → Prop
  | .integer k => (k.toInt : ℚ) = n.value
  | .decimal x => x = nearest n.value
  | _ => False

def isNullText : Json → Bool
  | .null => true
  | _ => false

mutual

def Denotes : Json → JsonValue → Prop
  | .null, x => x = .null
  | .boolean b, x => x = .boolean b
  | .number n, x => NumberDenotes nearest n x
  | .string s, x => ∃ bytes, contents s = some bytes ∧ x = .string bytes
  | .array es _, x => ∃ xs, x = .array xs ∧ DenotesElements es xs
  | .object ms _, x => ∃ xs, x = .object xs ∧ DenotesMembers ms xs

def DenotesElements : List (Element Json) → List JsonValue → Prop
  | [], xs => xs = []
  | ⟨_, v, _⟩ :: es, xs =>
      if isNullText v then DenotesElements es xs
      else ∃ x xs', xs = x :: xs' ∧ Denotes v x ∧ DenotesElements es xs'

def DenotesMembers : List (Member Json) → List (StdString × JsonValue) → Prop
  | [], xs => xs = []
  | ⟨_, name, _, _, v, _⟩ :: ms, xs =>
      if isNullText v then DenotesMembers ms xs
      else ∃ key x xs', contents name = some key ∧ xs = (key, x) :: xs' ∧ Denotes v x ∧
        DenotesMembers ms xs'

end

end Denotes

section Readable

variable (lexicalDouble : StdString → Option Float) (nearest : ℚ → Float)

/-- Written with a decimal point and cast to the nearest double, or written without a point or
an exponent and a signed integer of 64 bits. -/
def NumberReadable (n : Number) : Prop :=
  match n.fraction with
  | some _ => lexicalDouble n.text = some (nearest n.value)
  | none => n.exponent = none ∧ -2 ^ 63 ≤ n.value ∧ n.value < 2 ^ 63

def nameOf (m : Member Json) : StdString := stringText m.name

mutual

def Readable : Json → Prop
  | .null => False
  | .number n => NumberReadable lexicalDouble nearest n
  | .array es _ => ReadableElements es
  | .object ms _ => (ms.map nameOf).Nodup ∧ ReadableMembers ms
  | _ => True

def ReadableElements : List (Element Json) → Prop
  | [] => True
  | ⟨_, v, _⟩ :: es => Readable v ∧ ReadableElements es

def ReadableMembers : List (Member Json) → Prop
  | [] => True
  | ⟨_, _, _, _, v, _⟩ :: ms => Readable v ∧ ReadableMembers ms

end

end Readable

section Numbers

variable {lexicalDouble : StdString → Option Float} {nearest : ℚ → Float}

theorem value_integral {n : Number} (fraction : n.fraction = none) (exponent : n.exponent = none) :
    n.value = (if n.minus then -1 else 1) * (magnitude n.integral.digits : ℚ) := by
  simp [Number.value, fraction, exponent]

variable (nearest) in
theorem positive_denotes (m : Nat) (n : Number) (value : n.value = (m : ℤ)) :
    NumberDenotes nearest n (.integer (UInt64.ofNat m).toInt64) ↔ m < 2 ^ 63 := by
  have ofNat : (UInt64.ofNat m).toInt64 = Int64.ofNat m := rfl
  rw [NumberDenotes, ofNat, value, Int.cast_inj]
  constructor
  · intro same
    have bound := Int64.toInt_lt (Int64.ofNat m)
    omega
  · exact fun fits => Int64.toInt_ofNat_of_lt fits

theorem negative_denotes {m : Nat} (fits : m ≤ 2 ^ 63) (n : Number) (value : n.value = (-m : ℤ)) :
    NumberDenotes nearest n (.integer (Int64.ofInt (-m))) := by
  rw [NumberDenotes, value, Int.cast_inj]
  exact Int64.toInt_ofInt_of_le (by omega) (by omega)

theorem number_iff (n : Number) :
    (∃ x, encodedNumber lexicalDouble n = .ok x ∧ NumberDenotes nearest n x) ↔
      NumberReadable lexicalDouble nearest n := by
  rw [NumberReadable, encodedNumber]
  cases fraction : n.fraction with
  | some f =>
      simp only [Option.isSome_some, if_true]
      cases lexicalDouble n.text with
      | none => simp [Encoders.cast, Except.map]
      | some x => simp [Encoders.cast, Except.map, NumberDenotes]
  | none =>
      rw [if_neg (by simp)]
      cases exponent : n.exponent with
      | some e => simp
      | none =>
          have value := value_integral fraction exponent
          generalize magnitude n.integral.digits = m at value ⊢
          rw [if_neg (by simp)]
          dsimp only
          cases minus : n.minus with
          | true =>
              have whole : n.value = (-m : ℤ) := by simp [value, minus]
              rw [if_pos rfl]
              by_cases fits : m ≤ 2 ^ 63
              · rw [if_pos fits]
                refine iff_of_true ⟨_, rfl, negative_denotes fits n whole⟩ ⟨rfl, ?_⟩
                rw [whole]
                constructor <;> norm_cast <;> omega
              · rw [if_neg fits]
                refine iff_of_false (by rintro ⟨x, ⟨⟩, -⟩) ?_
                rintro ⟨-, low, -⟩
                rw [whole] at low
                norm_cast at low
                omega
          | false =>
              have whole : n.value = (m : ℤ) := by simp [value, minus]
              rw [if_neg (by simp)]
              by_cases fits : m < 2 ^ 64
              · rw [if_pos fits]
                have denotes := positive_denotes nearest m n whole
                simp only [Except.ok.injEq, exists_eq_left', denotes, true_and, whole]
                norm_cast
                omega
              · rw [if_neg fits]
                refine iff_of_false (by rintro ⟨x, ⟨⟩, -⟩) ?_
                rintro ⟨-, -, high⟩
                rw [whole] at high
                norm_cast at high
                omega

end Numbers

section Members

theorem lookup_isSome (name : StdString) (ms : List (StdString × JsonValue)) :
    (JsonValue.lookup name ms).isSome = true ↔ name ∈ ms.map Prod.fst := by
  rw [JsonValue.lookup, Option.isSome_map, List.find?_isSome, List.mem_map]
  simp only [beq_iff_eq]

theorem insertAll_nodup (ps : List (StdString × JsonValue)) {ms : List (StdString × JsonValue)}
    (h : (ms.map Prod.fst).Nodup) : ((insertAll ps ms).map Prod.fst).Nodup := by
  induction ps generalizing ms with
  | nil => exact h
  | cons p ps ih =>
      refine ih ?_
      dsimp only
      rw [Encoders.insert]
      split
      · exact h
      · next new =>
          rw [lookup_isSome] at new
          rw [List.map_append, List.map_singleton, List.nodup_append]
          exact ⟨h, List.nodup_singleton _, fun a here b there => by
            rw [List.mem_singleton] at there
            rintro rfl
            exact new (there ▸ here)⟩

theorem insertAll_eq {ps ms : List (StdString × JsonValue)}
    (h : ((ms ++ ps).map Prod.fst).Nodup) : insertAll ps ms = ms ++ ps := by
  induction ps generalizing ms with
  | nil => exact (List.append_nil ms).symm
  | cons p ps ih =>
      have new : p.1 ∉ ms.map Prod.fst := by
        rw [List.map_append, List.map_cons, List.nodup_append] at h
        exact fun here => h.2.2 _ here _ List.mem_cons_self rfl
      have one : Encoders.insert ms p.1 p.2 = ms ++ [p] := by
        rw [Encoders.insert, if_neg (by rwa [lookup_isSome])]
      rw [insertAll, List.foldl_cons, one, ← insertAll, ih (by simpa using h), List.append_assoc,
        List.singleton_append]

/-- Names that are distinct are all kept. -/
theorem insertAll_distinct {ps : List (StdString × JsonValue)} (h : (ps.map Prod.fst).Nodup) :
    insertAll ps [] = ps :=
  insertAll_eq (by rwa [List.nil_append])

end Members

section Documents

variable {lexicalDouble : StdString → Option Float} {nearest : ℚ → Float}

theorem contents_name {name : List Character} (plain : ∀ c ∈ name, c.isPlain = true)
    {key : StdString} (h : contents name = some key) : key = stringText name :=
  Option.some.inj (h.symm.trans (contents_plain plain))

theorem encodedMembers_names (ms : List (Member Json)) {ps : List (StdString × JsonValue)}
    (h : encodedMembers lexicalDouble ms = .ok ps) : ps.map Prod.fst = ms.map nameOf := by
  induction ms generalizing ps with
  | nil => cases h; rfl
  | cons m ms ih =>
      obtain ⟨x, ps', -, more, rfl⟩ := encodedMembers_cons h
      rw [List.map_cons, List.map_cons, ih more]
      rfl

theorem encoded_notNull {v : Json} {x : JsonValue} (h : encoded lexicalDouble v = .ok x) :
    isNullText v = false := by
  cases v with
  | null => cases h
  | _ => rfl

theorem denotesMembers_names (ms : List (Member Json)) (plain : Json.UnescapedMembers ms)
    {ps xs : List (StdString × JsonValue)} (h : encodedMembers lexicalDouble ms = .ok ps)
    (denotes : DenotesMembers nearest ms xs) : xs.map Prod.fst = ms.map nameOf := by
  induction ms generalizing ps xs with
  | nil => cases denotes; rfl
  | cons m ms ih =>
      obtain ⟨x, ps', value, more, rfl⟩ := encodedMembers_cons h
      obtain ⟨before, name, colonBefore, colonAfter, v, after⟩ := m
      rw [DenotesMembers, if_neg (by simp [encoded_notNull value])] at denotes
      obtain ⟨key, y, xs', named, rfl, -, denotes⟩ := denotes
      rw [List.map_cons, List.map_cons, ih plain.2.2 more denotes, contents_name plain.1 named]
      rfl

mutual

theorem denotes_iff (v : Json) (plain : v.Unescaped) :
    (∃ x, encoded lexicalDouble v = .ok x ∧ Denotes nearest v x) ↔
      Readable lexicalDouble nearest v := by
  cases v with
  | null => exact iff_of_false nofun id
  | boolean b => exact iff_of_true ⟨_, rfl, rfl⟩ trivial
  | number n => exact number_iff n
  | string s => exact iff_of_true ⟨_, rfl, _, contents_plain plain, rfl⟩ trivial
  | array es space =>
      have all := denotesElements_iff es plain
      rw [Readable, ← all, encoded]
      cases encodedElements lexicalDouble es with
      | error f => simp [Except.map]
      | ok xs => simp [Except.map, Denotes]
  | object ms space =>
      have all := denotesMembers_iff ms plain
      rw [Readable, ← all, encoded]
      cases members : encodedMembers lexicalDouble ms with
      | error f => simp [Except.map]
      | ok ps =>
          simp only [Except.map, Except.ok.injEq, exists_eq_left', Denotes, JsonValue.object.injEq,
            ← encodedMembers_names ms members]
          constructor
          · intro denotes
            have names := denotesMembers_names ms plain members denotes
            have distinct : ((insertAll ps []).map Prod.fst).Nodup :=
              insertAll_nodup ps List.nodup_nil
            rw [names, ← encodedMembers_names ms members] at distinct
            rw [insertAll_distinct distinct] at denotes
            exact ⟨distinct, denotes⟩
          · rintro ⟨distinct, denotes⟩
            rwa [insertAll_distinct distinct]

theorem denotesElements_iff (es : List (Element Json)) (plain : Json.UnescapedElements es) :
    (∃ xs, encodedElements lexicalDouble es = .ok xs ∧ DenotesElements nearest es xs) ↔
      ReadableElements lexicalDouble nearest es := by
  cases es with
  | nil => exact iff_of_true ⟨[], rfl, rfl⟩ trivial
  | cons e es =>
      obtain ⟨before, v, after⟩ := e
      rw [ReadableElements, ← denotes_iff v plain.1, ← denotesElements_iff es plain.2,
        encodedElements]
      cases value : encoded lexicalDouble v with
      | error f => simp [bind, Except.bind]
      | ok x =>
          cases encodedElements lexicalDouble es with
          | error f => simp [bind, Except.bind]
          | ok xs => simp [bind, Except.bind, pure, Except.pure, DenotesElements,
              encoded_notNull value]

theorem denotesMembers_iff (ms : List (Member Json)) (plain : Json.UnescapedMembers ms) :
    (∃ ps, encodedMembers lexicalDouble ms = .ok ps ∧ DenotesMembers nearest ms ps) ↔
      ReadableMembers lexicalDouble nearest ms := by
  cases ms with
  | nil => exact iff_of_true ⟨[], rfl, rfl⟩ trivial
  | cons m ms =>
      obtain ⟨before, name, colonBefore, colonAfter, v, after⟩ := m
      rw [ReadableMembers, ← denotes_iff v plain.2.1, ← denotesMembers_iff ms plain.2.2,
        encodedMembers]
      cases value : encoded lexicalDouble v with
      | error f => simp [bind, Except.bind]
      | ok x =>
          cases encodedMembers lexicalDouble ms with
          | error f => simp [bind, Except.bind]
          | ok ps => simp [bind, Except.bind, pure, Except.pure, DenotesMembers,
              encoded_notNull value, contents_plain plain.1]

end

end Documents

section Decodes

variable (lexicalDouble : StdString → Option Float) (nearest : ℚ → Float) (version : Version)

/-- All tokens of the document are consumed and give the tree it denotes. -/
def Decodes (d : JsonDocument) : Prop :=
  ∃ ts x, jsmnParse 128 d.text = .ok ts ∧
    encode lexicalDouble version d.text ts = .ok (x, ts.length) ∧ Denotes nearest d.value x

theorem encode_document (d : JsonDocument) :
    encode lexicalDouble version d.text (documentTokens d) =
      (encoded lexicalDouble d.value).map (·, (documentTokens d).length) := by
  have here : At d.text d.before.bytes.length d.value.text := by
    refine ⟨d.after.bytes, ?_⟩
    rw [JsonDocument.text, List.drop_left]
  have all : encodeWith lexicalDouble version d.text _ (documentTokens d ++ []) _ = _ :=
    encodeWith_tokens d.value [] here le_rfl le_rfl
  rwa [List.append_nil] at all

variable {lexicalDouble nearest version}

theorem decodes_encoded (d : JsonDocument) (room : (documentTokens d).length ≤ 128) :
    Decodes lexicalDouble nearest version d ↔
      ∃ x, encoded lexicalDouble d.value = .ok x ∧ Denotes nearest d.value x := by
  rw [Decodes, jsmnParse_text d room]
  simp only [Except.ok.injEq, exists_and_left, exists_eq_left', encode_document]
  cases encoded lexicalDouble d.value with
  | error f => simp [Except.map]
  | ok x => simp [Except.map]

theorem decodes_iff (d : JsonDocument) (plain : d.value.Unescaped)
    (room : (documentTokens d).length ≤ 128) :
    Decodes lexicalDouble nearest version d ↔ Readable lexicalDouble nearest d.value := by
  rw [decodes_encoded d room, denotes_iff d.value plain]

end Decodes

def noSpace : Space := ⟨[], nofun⟩

/-- The document `[v]`. -/
def listOf (v : Json) : JsonDocument :=
  { before := noSpace, value := .array [⟨noSpace, v, noSpace⟩] noSpace, after := noSpace }

/-- The document `[-7]`. -/
theorem decodes_minus_seven : Decodes (fun _ => none) (fun _ => 0) .any
    (listOf (.number ⟨true, .positive 6 [], none, none⟩)) := by
  have value : (Number.mk true (.positive 6 []) none none).value = -7 := by
    rw [value_integral rfl rfl]
    norm_num [Integral.digits, magnitude]
  have fits : NumberReadable (fun _ => none) (fun _ => 0) ⟨true, .positive 6 [], none, none⟩ := by
    rw [NumberReadable, value]
    norm_num
  exact (decodes_iff (listOf (.number ⟨true, .positive 6 [], none, none⟩)) ⟨trivial, trivial⟩
    (by decide)).2 ⟨fits, trivial⟩

/-- The document `[null]` is thrown out, whatever the casts do. -/
theorem null_thrown : (listOf .null).value.Unescaped ∧ (documentTokens (listOf .null)).length ≤ 128 ∧
    ∀ lexicalDouble nearest version, ¬ Decodes lexicalDouble nearest version (listOf .null) := by
  refine ⟨⟨trivial, trivial⟩, by decide, fun lexicalDouble nearest version => ?_⟩
  rw [decodes_encoded _ (by decide)]
  rintro ⟨x, thrown, -⟩
  cases thrown

end VanillaRtb.Dsl
