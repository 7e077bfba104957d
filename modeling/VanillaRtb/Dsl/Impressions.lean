import VanillaRtb.Dsl.Spelling

/-! # One impression through two mappers

The extractors of `boost::any` trees cast to exact types and keep what they have when a
cast fails; those of rapidjson convert. They come to one impression where it is spelled for
both, and where the one that stops early stops at what is empty anyway.
-/

namespace VanillaRtb.Dsl

open Lib Lib.JsonText Parsers OpenRtb Encoders

section Members

/-! One object in both trees. -/

variable {lexicalDouble rapidDouble : StdString → Option Float}

/-- An object without a repeated name, and the map that `encode` makes of it. -/
structure InMap (lexicalDouble : StdString → Option Float) (ms : List (Member Json))
    (m : List (StdString × JsonValue)) : Prop where
  distinct : Distinct ms
  taken : ∃ ps, encodedMembers lexicalDouble ms = .ok ps ∧ m = insertAll ps []

/-- And the members that rapidjson makes of it. -/
structure InBoth (lexicalDouble rapidDouble : StdString → Option Float) (ms : List (Member Json))
    (m : List (StdString × JsonValue)) (rms : List (StdString × RapidValue)) : Prop
    extends InMap lexicalDouble ms m where
  parsed : rapidMembers rapidDouble ms = some rms

theorem encoded_member {ms : List (Member Json)} {ps : List (StdString × JsonValue)}
    (taken : encodedMembers lexicalDouble ms = .ok ps) {m : Member Json} (mem : m ∈ ms) :
    ∃ x, encoded lexicalDouble m.value = .ok x := by
  induction ms generalizing ps with
  | nil => cases mem
  | cons m' ms ih =>
      obtain ⟨x, ps', value, more, -⟩ := encodedMembers_cons taken
      obtain rfl | later := List.mem_cons.1 mem
      · exact ⟨x, value⟩
      · exact ih more later

namespace InMap

variable {ms : List (Member Json)} {m : List (StdString × JsonValue)}
  (map : InMap lexicalDouble ms m) {name : StdString}
include map

/-- The map has the member, unless its name is spelled in another way. -/
theorem item_cases (noBackslash : 92 ∉ name) {v : Json} (h : named name ms = some v) :
    (written name ms = none ∧ AnyExtractors.item m name = .null) ∨
    (written name ms = some v ∧ encoded lexicalDouble v = .ok (AnyExtractors.item m name)) := by
  obtain ⟨ps, taken, rfl⟩ := map.taken
  rw [AnyExtractors.item, item_written taken]
  cases here : written name ms with
  | none => exact .inl ⟨rfl, rfl⟩
  | some w =>
      have same := written_named map.distinct noBackslash here
      rw [h] at same
      cases same
      obtain ⟨member, mem, -, rfl⟩ := written_mem here
      obtain ⟨x, value⟩ := encoded_member taken mem
      refine .inr ⟨rfl, ?_⟩
      rw [Option.bind_some, value]
      rfl

theorem string_cases (noBackslash : 92 ∉ name) {s : List Character}
    (h : named name ms = some (.string s)) :
    (written name ms = none ∧ AnyExtractors.asString (AnyExtractors.item m name) = none) ∨
    (written name ms = some (.string s) ∧
      AnyExtractors.asString (AnyExtractors.item m name) = some (stringText s)) := by
  obtain ⟨unwritten, null⟩ | ⟨here, value⟩ := map.item_cases noBackslash h
  · exact .inl ⟨unwritten, by rw [null]; rfl⟩
  · rw [encoded, Except.ok.injEq] at value
    exact .inr ⟨here, by rw [← value]; rfl⟩

/-- The string that both read is one string exactly when it is spelled without escapes. -/
theorem plainString_iff (noBackslash : 92 ∉ name) {s : List Character}
    (h : named name ms = some (.string s)) {t : StdString} (reads : contents s = some t) :
    AnyExtractors.asString (AnyExtractors.item m name) = some t ↔ PlainString name ms := by
  obtain ⟨unwritten, none_⟩ | ⟨here, some_⟩ := map.string_cases noBackslash h
  · rw [none_]
    refine iff_of_false nofun ?_
    rintro ⟨s', here, -⟩
    rw [unwritten] at here
    cases here
  · rw [some_]
    constructor
    · intro same
      exact ⟨s, here, (contents_text_iff s).1 (by rw [reads, same])⟩
    · rintro ⟨s', here', plain⟩
      rw [here] at here'
      cases here'
      rw [← reads, contents_plain plain]

/-- An object in an object has a map of its own. -/
theorem inner (noBackslash : 92 ∉ name) {ms' : List (Member Json)} {space : Space}
    (h : named name ms = some (.object ms' space)) (distinct : Distinct ms') :
    ∃ m', InMap lexicalDouble ms' m' ∧
      ((written name ms = none ∧ AnyExtractors.item m name = .null) ∨
        (written name ms = some (.object ms' space) ∧ AnyExtractors.item m name = .object m')) := by
  obtain ⟨_, taken, -⟩ := map.taken
  obtain ⟨member, mem, -, value⟩ := named_mem h
  obtain ⟨x, one⟩ := encoded_member taken mem
  rw [value, encoded] at one
  obtain ⟨ps, members, -⟩ := map_eq_ok.mp one
  refine ⟨_, ⟨distinct, ps, members, rfl⟩, ?_⟩
  obtain unwritten | ⟨here, object⟩ := map.item_cases noBackslash h
  · exact .inl unwritten
  · rw [encoded, members] at object
    exact .inr ⟨here, (Except.ok.inj object).symm⟩

end InMap

/-- What an accessor of rapidjson reads. -/
theorem InBoth.access_named {ms : List (Member Json)} {m : List (StdString × JsonValue)}
    {rms : List (StdString × RapidValue)} (both : InBoth lexicalDouble rapidDouble ms m rms)
    {name : StdString} {v : Json} (h : named name ms = some v) (get : RapidValue → Option T) :
    RapidValue.access get rms name = (rapidTree rapidDouble v).bind get := by
  rw [RapidValue.access, index_named both.parsed, h, Option.bind_some]

end Members

section Integers

variable {lexicalDouble rapidDouble : StdString → Option Float}

/-- Going through 64 bits or through 32 makes no difference to what is left. -/
theorem toUInt16_ofInt (z : Int) :
    (Int64.ofInt z).toUInt64.toUInt16 = (Int32.ofInt z).toUInt32.toUInt16 := by
  apply UInt16.toNat_inj.1
  have wide : (Int64.ofInt z).toUInt64.toNat = (z % 2 ^ 64).toNat := BitVec.toNat_ofInt z
  have narrow : (Int32.ofInt z).toUInt32.toNat = (z % 2 ^ 32).toNat := BitVec.toNat_ofInt z
  rw [UInt64.toNat_toUInt16, UInt32.toNat_toUInt16, wide, narrow]
  omega

theorem toInt8_ofInt (z : Int) : (Int64.ofInt z).toInt8 = (Int32.ofInt z).toInt8 := by
  rw [Int64.toInt8_ofInt, Int32.toInt8_ofInt]

theorem getInt_iff (n : Number) (i : Int32) :
    (rapidTree rapidDouble (.number n)).bind RapidValue.getInt = some i ↔
      IsInt32 n ∧ i = Int32.ofInt (integralValue n) := by
  rw [rapidTree, rapidNumber]
  by_cases fits : FitsRapid n
  · rw [if_pos fits, Option.map_some, Option.bind_some, RapidValue.getInt]
    split
    · next small =>
        rw [Option.some.injEq, eq_comm]
        exact ⟨fun same => ⟨⟨fits.1, fits.2.1, small.1, small.2⟩, same⟩, And.right⟩
    · next big =>
        refine iff_of_false (Option.some_ne_none i).symm ?_
        rintro ⟨int32, -⟩
        exact big ⟨int32.low, int32.high⟩
  · rw [if_neg fits]
    refine iff_of_false ?_ ?_
    · cases rapidDouble n.text <;> exact (Option.some_ne_none i).symm
    · rintro ⟨int32, -⟩
      refine fits ⟨int32.fraction, int32.exponent, ?_⟩
      have low := int32.low
      have high := int32.high
      rw [integralValue] at low high
      split at low <;> simp_all <;> omega

theorem encoded_int (n : Number) (int32 : IsInt32 n) :
    encoded lexicalDouble (.number n) = .ok (.integer (Int64.ofInt (integralValue n))) := by
  obtain ⟨fraction, exponent, low, high⟩ := int32
  rw [integralValue] at low high ⊢
  rw [encoded, encodedNumber, fraction, exponent]
  cases minus : n.minus with
  | true =>
      rw [minus, if_pos rfl] at low
      have fits : magnitude n.integral.digits ≤ 2 ^ 63 := by omega
      simp only [Option.isSome_none, Bool.false_eq_true, if_false, if_true]
      rw [if_pos fits]
  | false =>
      rw [minus, if_neg Bool.false_ne_true] at high
      have fits : magnitude n.integral.digits < 2 ^ 64 := by omega
      simp only [Option.isSome_none, Bool.false_eq_true, if_false]
      rw [if_pos fits]
      rfl

end Integers

section Banners

variable {lexicalDouble rapidDouble : StdString → Option Float} {ms : List (Member Json)}
  {m : List (StdString × JsonValue)} {rms : List (StdString × RapidValue)}

theorem any_banner {x y z : Int64} (indeterminate : AdPosition)
    (h : AnyExtractors.asInt64 (AnyExtractors.item m (ascii "h")) = some x)
    (w : AnyExtractors.asInt64 (AnyExtractors.item m (ascii "w")) = some y)
    (pos : AnyExtractors.asInt64 (AnyExtractors.item m (ascii "pos")) = some z) :
    AnyExtractors.banner indeterminate (.object m) =
      some (some { h := x.toUInt64.toUInt16, w := y.toUInt64.toUInt16, pos := ⟨z.toInt8⟩ }) := by
  simp [AnyExtractors.banner, AnyExtractors.optional, AnyExtractors.asMap, AnyExtractors.attempt, h,
    w, pos]

/-- Where a cast fails, the position is whatever was there. -/
theorem any_banner_pos (indeterminate : AdPosition)
    (fails : AnyExtractors.asInt64 (AnyExtractors.item m (ascii "h")) = none ∨
      AnyExtractors.asInt64 (AnyExtractors.item m (ascii "w")) = none ∨
      AnyExtractors.asInt64 (AnyExtractors.item m (ascii "pos")) = none) :
    ∃ b, AnyExtractors.banner indeterminate (.object m) = some (some b) ∧ b.pos = indeterminate := by
  simp only [AnyExtractors.banner, AnyExtractors.optional, AnyExtractors.asMap, Option.bind_some,
    Option.map_some, Option.some.injEq, exists_eq_left', AnyExtractors.attempt]
  cases h : AnyExtractors.asInt64 (AnyExtractors.item m (ascii "h")) with
  | none => simp
  | some x =>
      cases w : AnyExtractors.asInt64 (AnyExtractors.item m (ascii "w")) with
      | none => simp
      | some y =>
          have pos := (fails.resolve_left (by simp [h])).resolve_left (by simp [w])
          simp [pos]

theorem rapid_banner_iff (b : Option (Banner StdString)) :
    RapidExtractors.banner (.object rms) = some b ↔
      ∃ x y z, RapidValue.access RapidValue.getInt rms (ascii "h") = some x ∧
        RapidValue.access RapidValue.getInt rms (ascii "w") = some y ∧
        RapidValue.access RapidValue.getInt rms (ascii "pos") = some z ∧
        b = some { h := x.toUInt32.toUInt16, w := y.toUInt32.toUInt16, pos := ⟨z.toInt8⟩ } := by
  rw [RapidExtractors.banner, RapidExtractors.optional, Option.map_eq_some_iff]
  simp only [Option.bind_eq_bind, Option.bind_eq_some_iff, Option.pure_def, Option.some.injEq]
  constructor
  · rintro ⟨_, ⟨x, h, y, w, z, pos, rfl⟩, rfl⟩
    exact ⟨x, y, z, h, w, pos, rfl⟩
  · rintro ⟨x, y, z, h, w, pos, rfl⟩
    exact ⟨_, ⟨x, h, y, w, z, pos, rfl⟩, rfl⟩

/-- What both make of a banner is the same, whatever was there before. -/
def BannersAgree (y : JsonValue) (x : RapidValue) : Prop :=
  ∃ b, RapidExtractors.banner x = some b ∧ ∀ indeterminate,
    ∃ a, AnyExtractors.banner indeterminate y = some a ∧ a.map bannerView = b.map bannerView

variable (both : InBoth lexicalDouble rapidDouble ms m rms)
include both

theorem InBoth.int_cases {name : StdString} (noBackslash : 92 ∉ name) {n : Number}
    (h : named name ms = some (.number n)) (int32 : IsInt32 n) :
    AnyExtractors.asInt64 (AnyExtractors.item m name) = none ∧ written name ms = none ∨
    AnyExtractors.asInt64 (AnyExtractors.item m name) = some (Int64.ofInt (integralValue n)) ∧
      PlainInt32 name ms := by
  obtain ⟨unwritten, null⟩ | ⟨here, value⟩ := both.item_cases noBackslash h
  · exact .inl ⟨by rw [null]; rfl, unwritten⟩
  · rw [encoded_int n int32, Except.ok.injEq] at value
    exact .inr ⟨by rw [← value]; rfl, n, here, int32⟩

/-- An integer that is spelled for both. -/
theorem InBoth.plainInt32 {name : StdString} (noBackslash : 92 ∉ name)
    (plain : PlainInt32 name ms) :
    ∃ z, RapidValue.access RapidValue.getInt rms name = some (Int32.ofInt z) ∧
      AnyExtractors.asInt64 (AnyExtractors.item m name) = some (Int64.ofInt z) := by
  obtain ⟨n, here, int32⟩ := plain
  have h := written_named both.distinct noBackslash here
  refine ⟨integralValue n, ?_, ?_⟩
  · rw [both.access_named h, getInt_iff]
    exact ⟨int32, rfl⟩
  · obtain ⟨-, unwritten⟩ | ⟨taken, -⟩ := both.int_cases noBackslash h int32
    · rw [here] at unwritten
      cases unwritten
    · exact taken

/-- And an integer that rapidjson reads is spelled so, or not seen by the other. -/
theorem InBoth.int32_cases {name : StdString} (noBackslash : 92 ∉ name) (number : HasNumber name ms)
    {i : Int32} (read : RapidValue.access RapidValue.getInt rms name = some i) :
    AnyExtractors.asInt64 (AnyExtractors.item m name) = none ∨ PlainInt32 name ms := by
  obtain ⟨n, h⟩ := number
  rw [both.access_named h, getInt_iff] at read
  obtain ⟨failed, -⟩ | ⟨-, plain⟩ := both.int_cases noBackslash h read.1
  · exact .inl failed
  · exact .inr plain

theorem banner_agree_iff (banner : IsBanner ms) :
    BannersAgree (.object m) (.object rms) ↔ BannerPlain ms := by
  constructor
  · rintro ⟨b, read, agree⟩
    obtain ⟨x, y, z, h, w, pos, rfl⟩ := (rapid_banner_iff b).1 read
    have complete : ¬ (AnyExtractors.asInt64 (AnyExtractors.item m (ascii "h")) = none ∨
        AnyExtractors.asInt64 (AnyExtractors.item m (ascii "w")) = none ∨
        AnyExtractors.asInt64 (AnyExtractors.item m (ascii "pos")) = none) := by
      intro fails
      have kept : ∀ indeterminate : AdPosition, indeterminate = ⟨z.toInt8⟩ := by
        intro indeterminate
        obtain ⟨a, one, position⟩ := any_banner_pos indeterminate fails
        obtain ⟨_, same, view⟩ := agree indeterminate
        rw [one] at same
        cases same
        rw [← position]
        exact congrArg (fun v => v.2.2) (Option.some.inj view)
      exact absurd ((kept ⟨0⟩).trans (kept ⟨1⟩).symm) (by decide)
    rw [not_or, not_or] at complete
    exact ⟨(both.int32_cases (by decide) banner.h h).resolve_left complete.1,
      (both.int32_cases (by decide) banner.w w).resolve_left complete.2.1,
      (both.int32_cases (by decide) banner.pos pos).resolve_left complete.2.2⟩
  · intro plain
    obtain ⟨x, readH, castH⟩ := both.plainInt32 (by decide) plain.h
    obtain ⟨y, readW, castW⟩ := both.plainInt32 (by decide) plain.w
    obtain ⟨z, readPos, castPos⟩ := both.plainInt32 (by decide) plain.pos
    refine ⟨_, (rapid_banner_iff _).2 ⟨_, _, _, readH, readW, readPos, rfl⟩, ?_⟩
    intro indeterminate
    refine ⟨_, any_banner indeterminate castH castW castPos, ?_⟩
    simp only [Option.map_some, bannerView, toUInt16_ofInt, toInt8_ofInt]

end Banners

section Prices

variable {lexicalDouble rapidDouble : StdString → Option Float} {ms : List (Member Json)}
  {m : List (StdString × JsonValue)} {rms : List (StdString × RapidValue)}

theorem double_read {n : Number} (point : n.fraction.isSome = true) :
    (rapidTree rapidDouble (.number n)).bind RapidValue.getDouble = rapidDouble n.text := by
  have unfit : ¬ FitsRapid n := fun fits => by simp [fits.1] at point
  rw [rapidTree, rapidNumber, if_neg unfit]
  cases rapidDouble n.text <;> rfl

theorem encodedNumber_integral {n : Number} (noPoint : n.fraction = none) {x : JsonValue}
    (h : encodedNumber lexicalDouble n = .ok x) : ∃ k, x = .integer k := by
  simp only [encodedNumber, noPoint, Option.isSome_none, Bool.false_eq_true, if_false] at h
  split_ifs at h
  · exact ⟨_, (Except.ok.inj h).symm⟩
  · exact ⟨_, (Except.ok.inj h).symm⟩

variable (both : InBoth lexicalDouble rapidDouble ms m rms)
include both

/-- A string that is missing in one tree is empty there. -/
theorem InBoth.default_iff {name : StdString} (noBackslash : 92 ∉ name) {s : List Character}
    (h : named name ms = some (.string s)) {t : StdString} (reads : contents s = some t) :
    (AnyExtractors.asString (AnyExtractors.item m name)).getD [] = t ↔
      PlainString name ms ∨ named name ms = some (.string []) := by
  rw [← both.plainString_iff noBackslash h reads]
  obtain ⟨-, none_⟩ | ⟨-, some_⟩ := both.string_cases noBackslash h
  · rw [none_, h, Option.getD_none, Option.some.injEq, Json.string.injEq, ← contents_nil_iff, reads,
      Option.some.injEq, eq_comm]
    simp
  · rw [some_, h, Option.getD_some, Option.some.injEq, Option.some.injEq, Json.string.injEq,
      iff_self_or]
    rintro rfl
    cases reads
    rfl

/-- A double has a decimal point. -/
theorem InBoth.double_cases {name : StdString} (noBackslash : 92 ∉ name) {n : Number}
    (h : named name ms = some (.number n)) :
    AnyExtractors.asDouble (AnyExtractors.item m name) = none ∧
      (∀ n, written name ms = some (.number n) → n.fraction = none) ∨
    (∃ x, AnyExtractors.asDouble (AnyExtractors.item m name) = some x ∧
      lexicalDouble n.text = some x) ∧ written name ms = some (.number n) ∧
        n.fraction.isSome = true := by
  obtain ⟨unwritten, null⟩ | ⟨here, value⟩ := both.item_cases noBackslash h
  · exact .inl ⟨by rw [null]; rfl, by simp [unwritten]⟩
  · cases point : n.fraction with
    | none =>
        refine .inl ⟨?_, ?_⟩
        · obtain ⟨k, integral⟩ := encodedNumber_integral point value
          rw [integral]
          rfl
        · rw [here]
          rintro _ ⟨⟩
          exact point
    | some f =>
        rw [encoded, encodedNumber, point, if_pos (by rfl)] at value
        cases cast : lexicalDouble n.text with
        | none => rw [cast] at value; cases value
        | some x =>
            rw [cast] at value
            refine .inr ⟨⟨x, ?_, rfl⟩, here, rfl⟩
            rw [← Except.ok.inj value]
            rfl

/-- What both make of the price and its currency. -/
theorem price_agree_iff {n : Number} (bidfloor : named (ascii "bidfloor") ms = some (.number n))
    {s : List Character} (bidfloorcur : named (ascii "bidfloorcur") ms = some (.string s))
    {x : Float} (price : (rapidTree rapidDouble (.number n)).bind RapidValue.getDouble = some x)
    {t : StdString} (reads : contents s = some t) :
    ((AnyExtractors.asDouble (AnyExtractors.item m (ascii "bidfloor"))).getD 0 = x ∧
      ((AnyExtractors.asDouble (AnyExtractors.item m (ascii "bidfloor"))).bind fun _ =>
        AnyExtractors.asString (AnyExtractors.item m (ascii "bidfloorcur"))).getD [] = t) ↔
      (Priced lexicalDouble rapidDouble ms ∧ (PlainString (ascii "bidfloorcur") ms ∨
        named (ascii "bidfloorcur") ms = some (.string []))) ∨ Free rapidDouble ms := by
  obtain ⟨none_, noPoint⟩ | ⟨⟨y, some_, cast⟩, here, point⟩ :=
    both.double_cases (by decide) bidfloor
  · have unpriced : ¬ Priced lexicalDouble rapidDouble ms := by
      rintro ⟨n, here, point, -⟩
      rw [noPoint n here] at point
      cases point
    rw [none_, Option.getD_none, Option.bind_none, Option.getD_none, or_iff_right (unpriced ·.1)]
    constructor
    · rintro ⟨rfl, rfl⟩
      rw [contents_nil_iff] at reads
      exact ⟨noPoint, by rw [bidfloorcur, reads], n, bidfloor, price⟩
    · rintro ⟨-, empty, n', bidfloor', zero⟩
      rw [bidfloor] at bidfloor'
      cases bidfloor'
      rw [bidfloorcur] at empty
      cases empty
      exact ⟨Option.some.inj (zero.symm.trans price), Option.some.inj reads⟩
  · have notFree : ¬ Free rapidDouble ms := by
      rintro ⟨noPoint, -⟩
      rw [noPoint n here] at point
      cases point
    rw [double_read point] at price
    have priced : Priced lexicalDouble rapidDouble ms ↔ y = x := by
      constructor
      · rintro ⟨n', here', -, same⟩
        rw [here] at here'
        cases here'
        exact Option.some.inj (cast.symm.trans (same.trans price))
      · rintro rfl
        exact ⟨n, here, point, cast.trans price.symm⟩
    rw [some_, Option.getD_some, Option.bind_some, both.default_iff (by decide) bidfloorcur reads,
      or_iff_left notFree, priced]

end Prices

section Impressions

variable {lexicalDouble rapidDouble : StdString → Option Float} {ms : List (Member Json)}
  {m : List (StdString × JsonValue)} {rms : List (StdString × RapidValue)}

theorem any_impression_unnamed (indeterminate : AdPosition)
    (unnamed : AnyExtractors.asString (AnyExtractors.item m (ascii "id")) = none) :
    AnyExtractors.impression indeterminate (.object m) = {} := by
  simp [AnyExtractors.impression, AnyExtractors.asMap, AnyExtractors.attempt, unnamed]

/-- A currency is read after a price only. -/
theorem any_impression {id : StdString} {b : Option (Banner StdString)} (indeterminate : AdPosition)
    (hasId : AnyExtractors.asString (AnyExtractors.item m (ascii "id")) = some id)
    (banner : AnyExtractors.banner indeterminate (AnyExtractors.item m (ascii "banner")) = some b) :
    AnyExtractors.impression indeterminate (.object m) =
      { id
        banner := b
        bidfloor := (AnyExtractors.asDouble (AnyExtractors.item m (ascii "bidfloor"))).getD 0
        bidfloorcur := ((AnyExtractors.asDouble (AnyExtractors.item m (ascii "bidfloor"))).bind
          fun _ => AnyExtractors.asString (AnyExtractors.item m (ascii "bidfloorcur"))).getD [] } := by
  simp only [AnyExtractors.impression, AnyExtractors.asMap, AnyExtractors.attempt, hasId, banner,
    Option.map_some]
  cases AnyExtractors.asDouble (AnyExtractors.item m (ascii "bidfloor")) with
  | none => rfl
  | some x => cases AnyExtractors.asString (AnyExtractors.item m (ascii "bidfloorcur")) <;> rfl

theorem any_impression_iff {id : StdString} {b : Option (Banner StdString)}
    (indeterminate : AdPosition)
    (hasId : AnyExtractors.asString (AnyExtractors.item m (ascii "id")) = some id)
    (banner : AnyExtractors.banner indeterminate (AnyExtractors.item m (ascii "banner")) = some b)
    (imp : Impression StdString) :
    impressionView (AnyExtractors.impression indeterminate (.object m)) = impressionView imp ↔
      id = imp.id ∧ b.map bannerView = imp.banner.map bannerView ∧
        (AnyExtractors.asDouble (AnyExtractors.item m (ascii "bidfloor"))).getD 0 = imp.bidfloor ∧
        ((AnyExtractors.asDouble (AnyExtractors.item m (ascii "bidfloor"))).bind fun _ =>
          AnyExtractors.asString (AnyExtractors.item m (ascii "bidfloorcur"))).getD [] =
            imp.bidfloorcur := by
  rw [any_impression indeterminate hasId banner, impressionView, impressionView,
    ImpressionView.mk.injEq]

/-- An impression without a banner is another one. -/
theorem banner_unseen {a imp : Impression StdString} {b : Banner StdString} (none_ : a.banner = none)
    (some_ : imp.banner = some b) : impressionView a ≠ impressionView imp := by
  intro same
  have banners := congrArg ImpressionView.banner same
  rw [impressionView, impressionView, none_, some_] at banners
  cases banners

variable (rapidDouble) in
theorem getString_tree (s : List Character) :
    (rapidTree rapidDouble (.string s)).bind RapidValue.getString = contents s := by
  rw [rapidTree]
  cases contents s <;> rfl

theorem isString_tree {s : List Character} {x : RapidValue}
    (tree : rapidTree rapidDouble (.string s) = some x) : IsString x := by
  rw [rapidTree, Option.map_eq_some_iff] at tree
  obtain ⟨t, -, rfl⟩ := tree
  exact ⟨t, rfl⟩

theorem isNumber_tree {n : Number} {x : RapidValue}
    (tree : rapidTree rapidDouble (.number n) = some x) : IsNumber x := by
  rw [rapidTree, Option.map_eq_some_iff] at tree
  obtain ⟨r, -, rfl⟩ := tree
  exact ⟨r, rfl⟩

theorem plainObject_iff {name : StdString} {P : List (Member Json) → Prop} {ms' : List (Member Json)}
    {space : Space} (here : written name ms = some (.object ms' space)) :
    PlainObject name P ms ↔ P ms' := by
  constructor
  · rintro ⟨_, here', _, _, rfl, plain⟩
    rw [here] at here'
    cases here'
    exact plain
  · exact fun plain => ⟨_, here, ms', space, rfl, plain⟩

theorem plainObject_unwritten {name : StdString} {P : List (Member Json) → Prop}
    (unwritten : written name ms = none) : ¬ PlainObject name P ms := by
  rintro ⟨v, here, -⟩
  rw [unwritten] at here
  cases here

/-- What both make of an impression is the same, whatever was there before. -/
def ImpressionsAgree (y : JsonValue) (x : RapidValue) : Prop :=
  ∃ imp, RapidExtractors.impression x = some imp ∧ ∀ indeterminate,
    impressionView (AnyExtractors.impression indeterminate y) = impressionView imp

section

variable (both : InBoth lexicalDouble rapidDouble ms m rms)
include both

/-- An object in an object that both trees have is one that both have. -/
theorem InBoth.inner {name : StdString} (noBackslash : 92 ∉ name) {ms' : List (Member Json)}
    {space : Space} (h : named name ms = some (.object ms' space)) (distinct : Distinct ms') :
    ∃ m' rms', InBoth lexicalDouble rapidDouble ms' m' rms' ∧
      rapidTree rapidDouble (.object ms' space) = some (.object rms') ∧
      ((written name ms = none ∧ AnyExtractors.item m name = .null) ∨
        (written name ms = some (.object ms' space) ∧
          AnyExtractors.item m name = .object m')) := by
  obtain ⟨x, tree, -⟩ := named_parsed both.parsed h
  have members := tree
  rw [rapidTree, Option.map_eq_some_iff] at members
  obtain ⟨rms', parsed, rfl⟩ := members
  obtain ⟨m', map, item⟩ := both.toInMap.inner noBackslash h distinct
  exact ⟨m', rms', ⟨map, parsed⟩, tree, item⟩

/-- What rapidjson reads of an impression. -/
theorem InBoth.rapid_impression {s cur : List Character} {v : Json} {n : Number}
    (hasId : named (ascii "id") ms = some (.string s))
    (hasBanner : named (ascii "banner") ms = some v)
    (hasPrice : named (ascii "bidfloor") ms = some (.number n))
    (hasCurrency : named (ascii "bidfloorcur") ms = some (.string cur))
    {imp : Impression StdString} (read : RapidExtractors.impression (.object rms) = some imp) :
    contents s = some imp.id ∧
      (rapidTree rapidDouble v).bind RapidExtractors.banner = some imp.banner ∧
      (rapidTree rapidDouble (.number n)).bind RapidValue.getDouble = some imp.bidfloor ∧
      contents cur = some imp.bidfloorcur := by
  refine ⟨?_, ?_, ?_, ?_⟩
  · rw [← getString_tree rapidDouble s]
    exact member_field (fun _ _ _ h => (impressionMember_fields h).1) both.parsed both.distinct
      (by decide) hasId read
  · exact member_field (fun _ _ _ h => (impressionMember_fields h).2.1) both.parsed both.distinct
      (by decide) hasBanner read
  · exact member_field (fun _ _ _ h => (impressionMember_fields h).2.2.1) both.parsed both.distinct
      (by decide) hasPrice read
  · rw [← getString_tree rapidDouble cur]
    exact member_field (fun _ _ _ h => (impressionMember_fields h).2.2.2) both.parsed both.distinct
      (by decide) hasCurrency read

/-- It reads an impression of which it can read the banner. -/
theorem InBoth.rapid_impression_isSome (imp : IsImpression ms) {v : Json}
    (hasBanner : named (ascii "banner") ms = some v) {b : Option (Banner StdString)}
    (read : (rapidTree rapidDouble v).bind RapidExtractors.banner = some b) :
    (RapidExtractors.impression (.object rms)).isSome = true := by
  rw [impression_isSome]
  intro member mem
  obtain ⟨s, hasId⟩ := imp.id
  obtain ⟨n, hasPrice⟩ := imp.bidfloor
  obtain ⟨cur, hasCurrency⟩ := imp.bidfloorcur
  refine ⟨fun same => ?_, fun same => ?_, fun same => ?_, fun same => ?_⟩
  · obtain ⟨-, tree⟩ := strcmp_named both.parsed both.distinct (by decide) hasId mem same
    exact isString_tree tree
  · obtain ⟨-, tree⟩ := strcmp_named both.parsed both.distinct (by decide) hasBanner mem same
    rw [tree, Option.bind_some] at read
    rw [← banner_isSome, read]
    rfl
  · obtain ⟨-, tree⟩ := strcmp_named both.parsed both.distinct (by decide) hasPrice mem same
    exact isNumber_tree tree
  · obtain ⟨-, tree⟩ := strcmp_named both.parsed both.distinct (by decide) hasCurrency mem same
    exact isString_tree tree

/-- The other one reads the same impression exactly when it is spelled for both. -/
theorem impression_views_iff (imp : IsImpression ms) {imp' : Impression StdString}
    (read : RapidExtractors.impression (.object rms) = some imp') :
    (∀ indeterminate, impressionView (AnyExtractors.impression indeterminate (.object m)) =
      impressionView imp') ↔ ImpressionPlain lexicalDouble rapidDouble ms := by
  obtain ⟨s, hasId⟩ := imp.id
  obtain ⟨_, hasBanner, ms', space, rfl, isBanner⟩ := imp.banner
  obtain ⟨n, hasPrice⟩ := imp.bidfloor
  obtain ⟨cur, hasCurrency⟩ := imp.bidfloorcur
  obtain ⟨m', rms', both', tree, inner⟩ := both.inner (by decide) hasBanner isBanner.distinct
  obtain ⟨id, banner, price, currency⟩ :=
    both.rapid_impression hasId hasBanner hasPrice hasCurrency read
  rw [tree, Option.bind_some] at banner
  have plainId := both.plainString_iff (by decide) hasId id
  have plainPrice := price_agree_iff both hasPrice hasCurrency price currency
  constructor
  · intro agree
    obtain ⟨_, _, _, -, -, -, some_⟩ := (rapid_banner_iff imp'.banner).1 banner
    cases named' : AnyExtractors.asString (AnyExtractors.item m (ascii "id")) with
    | none =>
        have same := agree {}
        rw [any_impression_unnamed {} named'] at same
        exact absurd same (banner_unseen rfl some_)
    | some i =>
        obtain ⟨-, null⟩ | ⟨here, object⟩ := inner
        · have none_ : AnyExtractors.banner {} (AnyExtractors.item m (ascii "banner")) = some none := by
            rw [null]
            rfl
          have same := agree {}
          rw [any_impression {} named' none_] at same
          exact absurd same (banner_unseen rfl some_)
        · have views (indeterminate : AdPosition) {b : Option (Banner StdString)}
              (one : AnyExtractors.banner indeterminate (.object m') = some b) :=
            (any_impression_iff indeterminate named' (by rwa [object]) imp').1 (agree indeterminate)
          obtain ⟨sameId, -, samePrice⟩ := views {} rfl
          refine ⟨plainId.1 (by rw [named', sameId]), (plainObject_iff here).2 ?_,
            plainPrice.1 samePrice⟩
          rw [← banner_agree_iff both' isBanner]
          refine ⟨imp'.banner, banner, fun indeterminate => ?_⟩
          exact ⟨_, rfl, (views indeterminate rfl).2.1⟩
  · intro plain indeterminate
    obtain ⟨unwritten, -⟩ | ⟨here, object⟩ := inner
    · exact absurd plain.banner (plainObject_unwritten unwritten)
    · have plainBanner := (plainObject_iff here).1 plain.banner
      obtain ⟨b, banner', agree⟩ := (banner_agree_iff both' isBanner).2 plainBanner
      rw [banner, Option.some.injEq] at banner'
      obtain ⟨a, one, view⟩ := agree indeterminate
      rw [any_impression_iff indeterminate (plainId.2 plain.id) (by rwa [object])]
      exact ⟨rfl, by rw [view, banner'], plainPrice.2 plain.price⟩

theorem impression_agree_iff (imp : IsImpression ms) :
    ImpressionsAgree (.object m) (.object rms) ↔
      ImpressionPlain lexicalDouble rapidDouble ms := by
  constructor
  · rintro ⟨imp', read, agree⟩
    exact (impression_views_iff both imp read).1 agree
  · intro plain
    obtain ⟨_, hasBanner, ms', space, rfl, isBanner⟩ := imp.banner
    obtain ⟨m', rms', both', tree, inner⟩ := both.inner (by decide) hasBanner isBanner.distinct
    obtain ⟨unwritten, -⟩ | ⟨here, -⟩ := inner
    · exact absurd plain.banner (plainObject_unwritten unwritten)
    · have plainBanner := (plainObject_iff here).1 plain.banner
      obtain ⟨b, banner, -⟩ := (banner_agree_iff both' isBanner).2 plainBanner
      have read : (rapidTree rapidDouble (.object ms' space)).bind RapidExtractors.banner = some b :=
        by rwa [tree, Option.bind_some]
      obtain ⟨imp', read⟩ :=
        Option.isSome_iff_exists.1 (both.rapid_impression_isSome imp hasBanner read)
      exact ⟨imp', read, (impression_views_iff both imp read).2 plain⟩

end

end Impressions

end VanillaRtb.Dsl
