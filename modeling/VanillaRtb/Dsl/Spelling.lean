import VanillaRtb.Dsl.Mappers
import VanillaRtb.Dsl.RapidDocument

/-! # Bid requests and their spelling

What two requests are compared by, what a bid request has that is compared, and how it is
spelled that extractors which cast to exact types read what extractors which convert do:
names and strings without escapes, sizes and positions as integers of 32 bits, prices with
a decimal point, and nothing that the lexical casts refuse.
-/

namespace VanillaRtb.Dsl

open Lib Lib.JsonText Parsers OpenRtb Encoders

section Views

/-! What two requests are compared by. -/

def bannerView (b : Banner StdString) : UInt16 × UInt16 × AdPosition := (b.h, b.w, b.pos)

structure ImpressionView where
  id : StdString
  banner : Option (UInt16 × UInt16 × AdPosition)
  bidfloor : Float
  bidfloorcur : StdString

def impressionView (imp : Impression StdString) : ImpressionView :=
  { id := imp.id, banner := imp.banner.map bannerView, bidfloor := imp.bidfloor,
    bidfloorcur := imp.bidfloorcur }

def place (geo : Geo StdString) : StdString × StdString := (geo.city, geo.country)

def locationView (user : User StdString) : Option (StdString × StdString) := user.geo.map place

structure RequestView where
  id : StdString
  imp : List ImpressionView
  user : Option (Option (StdString × StdString))
  site : Option StdString

def requestView (r : BidRequest StdString) : RequestView :=
  { id := r.id, imp := r.imp.map impressionView, user := r.user.map locationView,
    site := r.site.map Site.id }

end Views

section Requests

/-! A bid request with all that is compared, and with no name twice in what is read. -/

def OfObject (P : List (Member Json) → Prop) (v : Json) : Prop :=
  ∃ ms space, v = .object ms space ∧ P ms

def HasString (name : StdString) (ms : List (Member Json)) : Prop :=
  ∃ s, named name ms = some (.string s)

def HasNumber (name : StdString) (ms : List (Member Json)) : Prop :=
  ∃ n, named name ms = some (.number n)

def HasObject (name : StdString) (P : List (Member Json) → Prop) (ms : List (Member Json)) : Prop :=
  ∃ v, named name ms = some v ∧ OfObject P v

def HasArray (name : StdString) (P : Json → Prop) (ms : List (Member Json)) : Prop :=
  ∃ es space, named name ms = some (.array es space) ∧ ∀ e ∈ es, P e.value

structure IsBanner (ms : List (Member Json)) : Prop where
  distinct : Distinct ms
  h : HasNumber (ascii "h") ms
  w : HasNumber (ascii "w") ms
  pos : HasNumber (ascii "pos") ms

structure IsImpression (ms : List (Member Json)) : Prop where
  distinct : Distinct ms
  id : HasString (ascii "id") ms
  banner : HasObject (ascii "banner") IsBanner ms
  bidfloor : HasNumber (ascii "bidfloor") ms
  bidfloorcur : HasString (ascii "bidfloorcur") ms

structure IsGeo (ms : List (Member Json)) : Prop where
  distinct : Distinct ms
  city : HasString (ascii "city") ms
  country : HasString (ascii "country") ms

structure IsUser (ms : List (Member Json)) : Prop where
  distinct : Distinct ms
  geo : HasObject (ascii "geo") IsGeo ms

structure IsSite (ms : List (Member Json)) : Prop where
  distinct : Distinct ms
  id : HasString (ascii "id") ms
  ref : HasString (ascii "ref") ms

structure IsRequest (ms : List (Member Json)) : Prop where
  distinct : Distinct ms
  id : HasString (ascii "id") ms
  imp : HasArray (ascii "imp") (OfObject IsImpression) ms
  user : HasObject (ascii "user") IsUser ms
  site : HasObject (ascii "site") IsSite ms

def IsBidRequest : Json → Prop := OfObject IsRequest

end Requests

section Condition

/-! How a bid request is spelled that both read alike. -/

/-- The name is spelled without an escape, and so is the string. -/
def PlainString (name : StdString) (ms : List (Member Json)) : Prop :=
  ∃ s, written name ms = some (.string s) ∧ ∀ c ∈ s, c.isPlain = true

/-- Without a fraction and an exponent. -/
structure IsInt32 (n : Number) : Prop where
  fraction : n.fraction = none
  exponent : n.exponent = none
  low : -2 ^ 31 ≤ integralValue n
  high : integralValue n < 2 ^ 31

def PlainInt32 (name : StdString) (ms : List (Member Json)) : Prop :=
  ∃ n, written name ms = some (.number n) ∧ IsInt32 n

def PlainObject (name : StdString) (P : List (Member Json) → Prop) (ms : List (Member Json)) :
    Prop :=
  ∃ v, written name ms = some v ∧ OfObject P v

variable (lexicalDouble rapidDouble : StdString → Option Float)

structure BannerPlain (ms : List (Member Json)) : Prop where
  h : PlainInt32 (ascii "h") ms
  w : PlainInt32 (ascii "w") ms
  pos : PlainInt32 (ascii "pos") ms

/-- A price with a decimal point, which both conversions take for the same double. -/
def Priced (ms : List (Member Json)) : Prop :=
  ∃ n, written (ascii "bidfloor") ms = some (.number n) ∧ n.fraction.isSome ∧
    lexicalDouble n.text = rapidDouble n.text

/-- No price that is a double to both, but one that is the default: zero in no currency. -/
def Free (ms : List (Member Json)) : Prop :=
  (∀ n, written (ascii "bidfloor") ms = some (.number n) → n.fraction = none) ∧
    named (ascii "bidfloorcur") ms = some (.string []) ∧
    ∃ n, named (ascii "bidfloor") ms = some (.number n) ∧
      (rapidTree rapidDouble (.number n)).bind RapidValue.getDouble = some 0

structure ImpressionPlain (ms : List (Member Json)) : Prop where
  id : PlainString (ascii "id") ms
  banner : PlainObject (ascii "banner") BannerPlain ms
  price : (Priced lexicalDouble rapidDouble ms ∧ (PlainString (ascii "bidfloorcur") ms ∨
    named (ascii "bidfloorcur") ms = some (.string []))) ∨ Free rapidDouble ms

structure GeoPlain (ms : List (Member Json)) : Prop where
  city : PlainString (ascii "city") ms
  country : PlainString (ascii "country") ms

structure RequestPlain (ms : List (Member Json)) : Prop where
  id : PlainString (ascii "id") ms
  imp : (∃ es space, written (ascii "imp") ms = some (.array es space) ∧
      ∀ e ∈ es, OfObject (ImpressionPlain lexicalDouble rapidDouble) e.value) ∨
    ∃ space, named (ascii "imp") ms = some (.array [] space)
  user : PlainObject (ascii "user") (PlainObject (ascii "geo") GeoPlain) ms
  site : PlainObject (ascii "site") (PlainString (ascii "id")) ms

/-- Nothing of the request is found under its name, or it is empty. -/
def RequestUnread (ms : List (Member Json)) : Prop :=
  written (ascii "id") ms = none ∨
    (written (ascii "id") ms = some (.string []) ∧
      (written (ascii "imp") ms = none ∨ ∃ space, written (ascii "imp") ms = some (.array [] space)) ∧
      (PlainObject (ascii "user") (PlainObject (ascii "geo") fun geo =>
          written (ascii "city") geo = none ∨ written (ascii "country") geo = none) ms ∨
        written (ascii "user") ms = none ∧ (written (ascii "site") ms = none ∨
          PlainObject (ascii "site") (fun site => written (ascii "id") site = none) ms)))

def NumberCastable (n : Number) : Prop :=
  match n.fraction with
  | some _ => (lexicalDouble n.text).isSome
  | none => n.exponent = none ∧
      magnitude n.integral.digits < if n.minus then 2 ^ 63 + 1 else 2 ^ 64

mutual

/-- No null anywhere, and no number that the lexical casts refuse. -/
def Castable : Json → Prop
  | .null => False
  | .number n => NumberCastable lexicalDouble n
  | .array es _ => CastableElements es
  | .object ms _ => CastableMembers ms
  | _ => True

def CastableElements : List (Element Json) → Prop
  | [] => True
  | ⟨_, v, _⟩ :: es => Castable v ∧ CastableElements es

def CastableMembers : List (Member Json) → Prop
  | [] => True
  | ⟨_, _, _, _, v, _⟩ :: ms => Castable v ∧ CastableMembers ms

end

/-- Spelled so that both mappers read the same, in a body that both of them accept, or that one
takes for empty and the other finds nothing in. -/
structure SpelledAlike (d : JsonDocument) : Prop where
  room : (documentTokens d).length ≤ 128
  castable : Castable lexicalDouble d.value
  plain : rapidTree rapidDouble d.value ≠ none →
    OfObject (RequestPlain lexicalDouble rapidDouble) d.value
  unread : rapidTree rapidDouble d.value = none → OfObject RequestUnread d.value

end Condition

section Castable

variable {lexicalDouble : StdString → Option Float}

theorem encodedNumber_iff (n : Number) :
    (∃ x, encodedNumber lexicalDouble n = .ok x) ↔ NumberCastable lexicalDouble n := by
  rw [NumberCastable, encodedNumber]
  cases n.fraction with
  | some f => cases lexicalDouble n.text <;> simp [Encoders.cast, Except.map]
  | none =>
      cases n.exponent with
      | some e => simp
      | none =>
          cases n.minus with
          | true =>
              simp only [Option.isSome_none, Bool.false_eq_true, if_false, if_true, true_and]
              split <;> simp_all [Nat.lt_succ_iff]
          | false =>
              simp only [Option.isSome_none, Bool.false_eq_true, if_false, true_and]
              split <;> simp_all

mutual

theorem encoded_iff (v : Json) : (∃ x, encoded lexicalDouble v = .ok x) ↔ Castable lexicalDouble v := by
  cases v with
  | null => exact iff_of_false nofun id
  | boolean b => exact iff_of_true ⟨_, rfl⟩ trivial
  | number n => exact encodedNumber_iff n
  | string s => exact iff_of_true ⟨_, rfl⟩ trivial
  | array es space =>
      rw [Castable, ← encodedElements_iff es, encoded]
      cases encodedElements lexicalDouble es <;> simp [Except.map]
  | object ms space =>
      rw [Castable, ← encodedMembers_iff ms, encoded]
      cases encodedMembers lexicalDouble ms <;> simp [Except.map]

theorem encodedElements_iff (es : List (Element Json)) :
    (∃ xs, encodedElements lexicalDouble es = .ok xs) ↔ CastableElements lexicalDouble es := by
  cases es with
  | nil => exact iff_of_true ⟨[], rfl⟩ trivial
  | cons e es =>
      obtain ⟨before, v, after⟩ := e
      rw [CastableElements, ← encoded_iff v, ← encodedElements_iff es, encodedElements]
      cases encoded lexicalDouble v <;> cases encodedElements lexicalDouble es <;>
        simp [bind, Except.bind, pure, Except.pure]

theorem encodedMembers_iff (ms : List (Member Json)) :
    (∃ ps, encodedMembers lexicalDouble ms = .ok ps) ↔ CastableMembers lexicalDouble ms := by
  cases ms with
  | nil => exact iff_of_true ⟨[], rfl⟩ trivial
  | cons m ms =>
      obtain ⟨before, name, colonBefore, colonAfter, v, after⟩ := m
      rw [CastableMembers, ← encoded_iff v, ← encodedMembers_iff ms, encodedMembers]
      cases encoded lexicalDouble v <;> cases encodedMembers lexicalDouble ms <;>
        simp [bind, Except.bind, pure, Except.pure]

end

end Castable

end VanillaRtb.Dsl
