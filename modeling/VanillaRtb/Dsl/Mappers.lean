import VanillaRtb.Dsl.Overrun
import VanillaRtb.Dsl.RapidExtractors

/-! # Requests out of a body

Three mappers read a body into a request. Two take the tokens of jsmn into a tree, one of
them of `boost::any` with extractors that log what is thrown and return what they have so
far, the other of `jsonv::value` with formats that let everything through; the third parses
with rapidjson and looks at no error. The position of a banner that nothing sets is whatever
was there, a parameter here.
-/

namespace VanillaRtb.Dsl

open Lib Parsers OpenRtb Encoders

namespace AnyExtractors

/-- `boost::any_cast` to the type of a string. -/
def asString : JsonValue → Option StdString
  | .string s => some s
  | _ => none

def asInt64 : JsonValue → Option Int64
  | .integer n => some n
  | _ => none

def asDouble : JsonValue → Option Float
  | .decimal x => some x
  | _ => none

def asMap : JsonValue → Option (List (StdString × JsonValue))
  | .object ms => some ms
  | _ => none

def asVector : JsonValue → Option (List JsonValue)
  | .array vs => some vs
  | _ => none

/-- `operator[]` of a map, which makes an empty value of a name that is not there. -/
def item (m : List (StdString × JsonValue)) (name : StdString) : JsonValue :=
  (JsonValue.lookup name m).getD .null

/-- The statements of a `try`, up to the first that throws. -/
def attempt : List (S → Option S) → S → S
  | [], s => s
  | f :: fs, s =>
      match f s with
      | some s => attempt fs s
      | none => s

/-- Nothing of an empty value. -/
def optional (extract : List (StdString × JsonValue) → Option T) : JsonValue → Option (Option T)
  | .null => some none
  | v => (asMap v).bind fun m => (extract m).map some

def vector (extract : JsonValue → T) : JsonValue → Option (List T)
  | .null => some []
  | v => (asVector v).map (List.map extract)

variable (indeterminate : AdPosition)

def banner : JsonValue → Option (Option (Banner StdString)) :=
  optional fun m => some (attempt
    [fun b => (asInt64 (item m (ascii "h"))).map fun h => { b with h := h.toUInt64.toUInt16 },
      fun b => (asInt64 (item m (ascii "w"))).map fun w => { b with w := w.toUInt64.toUInt16 },
      fun b => (asInt64 (item m (ascii "pos"))).map fun pos => { b with pos := ⟨pos.toInt8⟩ }]
    { pos := indeterminate })

def geo : JsonValue → Option (Option (Geo StdString)) :=
  optional fun m => do
    let city ← asString (item m (ascii "city"))
    let country ← asString (item m (ascii "country"))
    pure { city, country }

def user : JsonValue → Option (Option (User StdString)) :=
  optional fun m => (geo (item m (ascii "geo"))).map fun geo => { geo }

def site : JsonValue → Option (Option (Site StdString)) :=
  optional fun m => (asString (item m (ascii "id"))).map fun id => { id }

def impression (v : JsonValue) : Impression StdString :=
  match asMap v with
  | none => {}
  | some m => attempt
      [fun imp => (asString (item m (ascii "id"))).map fun id => { imp with id },
        fun imp => (banner indeterminate (item m (ascii "banner"))).map fun banner =>
          { imp with banner },
        fun imp => (asDouble (item m (ascii "bidfloor"))).map fun bidfloor =>
          { imp with bidfloor },
        fun imp => (asString (item m (ascii "bidfloorcur"))).map fun bidfloorcur =>
          { imp with bidfloorcur }]
      {}

/-- `extractors<BidRequest>::extract` of a tree of `boost::any`. -/
def bidRequest (v : JsonValue) : BidRequest StdString :=
  match asMap v with
  | none => {}
  | some m => attempt
      [fun request => (asString (item m (ascii "id"))).map fun id => { request with id },
        fun request => (vector (impression indeterminate) (item m (ascii "imp"))).map fun imp =>
          { request with imp },
        fun request => (user (item m (ascii "user"))).map fun user => { request with user },
        fun request => (site (item m (ascii "site"))).map fun site => { request with site }]
      {}

end AnyExtractors

namespace JsonvExtractors

/-- `as_string`, and likewise for the other kinds. -/
def asString : JsonValue → Option StdString
  | .string s => some s
  | _ => none

/-- An integer is taken for a decimal number. -/
def asDecimal : JsonValue → Option Float
  | .integer n => some (Float.ofInt n.toInt)
  | .decimal x => some x
  | _ => none

/-- `T(from.as_integer())` with 16 bits. -/
def asUint16 : JsonValue → Option UInt16
  | .integer n => some n.toUInt64.toUInt16
  | _ => none

/-- `compare` of a decimal number with a small integer, and of an integer with one. -/
def decimalBelow (x y : Float) : Bool := ¬ (x - y).abs < 5e-324 * 10 ∧ x < y

/-- `enum_adapter::create` over the values from 0 to 7: a map is searched with `compare`, in
which decimal numbers are next to integers. -/
def adPosition : JsonValue → Option AdPosition
  | .integer n => if 0 ≤ n ∧ n ≤ 7 then some ⟨n.toInt8⟩ else none
  | .decimal x =>
      match (List.range 8).find? fun k => ¬ decimalBelow (Float.ofNat k) x with
      | some k => if decimalBelow x (Float.ofNat k) then none else some ⟨Int8.ofNat k⟩
      | none => none
  | _ => none

/-- A member of an object, left as it is when it is not there. -/
def member (v : JsonValue) (name : StdString) (get : JsonValue → Option T) (unset : T) : Option T :=
  match v with
  | .object m =>
      match JsonValue.lookup name m with
      | some v => get v
      | none => some unset
  | _ => none

def optional (extract : JsonValue → Option T) : JsonValue → Option (Option T)
  | .null => some none
  | v => (extract v).map some

def container (extract : JsonValue → Option T) : JsonValue → Option (List T)
  | .array vs => vs.mapM extract
  | _ => none

variable (indeterminate : AdPosition)

def banner (v : JsonValue) : Option (Banner StdString) := do
  let h ← member v (ascii "h") asUint16 0
  let w ← member v (ascii "w") asUint16 0
  let pos ← member v (ascii "pos") adPosition indeterminate
  pure { h, w, pos }

def impression (v : JsonValue) : Option (Impression StdString) := do
  let id ← member v (ascii "id") asString []
  let banner ← member v (ascii "banner") (optional (banner indeterminate)) none
  let bidfloor ← member v (ascii "bidfloor") asDecimal 0
  let bidfloorcur ← member v (ascii "bidfloorcur") asString []
  pure { id, banner, bidfloor, bidfloorcur }

def geo (v : JsonValue) : Option (Geo StdString) := do
  let city ← member v (ascii "city") asString []
  let country ← member v (ascii "country") asString []
  pure { city, country }

def user (v : JsonValue) : Option (User StdString) := do
  let id ← member v (ascii "id") asString []
  let buyeruid ← member v (ascii "buyeruid") asString []
  let geo ← member v (ascii "geo") (optional geo) none
  pure { id, buyeruid, geo }

def site (v : JsonValue) : Option (Site StdString) := do
  let id ← member v (ascii "id") asString []
  pure { id }

/-- `jsonv::extract<BidRequest>` with the formats of requests, nothing where it throws. -/
def bidRequest (v : JsonValue) : Option (BidRequest StdString) := do
  let id ← member v (ascii "id") asString []
  let imp ← member v (ascii "imp") (container (impression indeterminate)) []
  let user ← member v (ascii "user") (optional user) none
  let site ← member v (ascii "site") (optional site) none
  pure { id, imp, user, site }

end JsonvExtractors

/-- What comes of a body: a request, an exception, or nothing that is defined. -/
inductive Extracted (T : Type) where
  | request (r : T)
  | thrown
  | undefined

namespace Extracted

def ofFault : Fault → Extracted T
  | .thrown => thrown
  | _ => undefined

/-- Nothing is an exception. -/
def orThrown : Option T → Extracted T
  | some r => request r
  | none => thrown

end Extracted

/-- The mappers that `GenericDSL` is used with. -/
inductive Mapper where
  | dsl
  | any
  | rapid

section Mappers

variable (lexicalDouble : StdString → Option Float) (rapidParse : StdString → Option RapidValue)
  (indeterminate : AdPosition)

/-- The tree that jsmn and `encode` make of a body. -/
def decodeBody (version : Version) (body : StdString) (extract : JsonValue → Extracted T) :
    Extracted T :=
  match jsmnParse 128 body with
  | .error _ => .thrown
  | .ok ts =>
      match encode lexicalDouble version body ts with
      | .error f => .ofFault f
      | .ok (v, _) => extract v

/-- `any_mapper::extract`. -/
def anyMapper (body : StdString) : Extracted (BidRequest StdString) :=
  decodeBody lexicalDouble .any body fun v => .request (AnyExtractors.bidRequest indeterminate v)

/-- `dsl_mapper::extract`. -/
def dslMapper (body : StdString) : Extracted (BidRequest StdString) :=
  decodeBody lexicalDouble .jsonv body fun v =>
    .orThrown (JsonvExtractors.bidRequest indeterminate v)

/-- `rapid_mapper::extract`: the body is read up to its first NUL, and a document that does not
parse stays null. -/
def rapidMapper (body : StdString) : Extracted (BidRequest StdString) :=
  match RapidExtractors.bidRequest ((rapidParse (body.takeWhile (· ≠ 0))).getD .null) with
  | some r => .request r
  | none => .undefined

/-- `GenericDSL::extract_request`. -/
def extractRequest (mapper : Mapper) (body : StdString) : Extracted (BidRequest StdString) :=
  match mapper with
  | .dsl => dslMapper lexicalDouble indeterminate body
  | .any => anyMapper lexicalDouble indeterminate body
  | .rapid => rapidMapper rapidParse body

end Mappers

section Typed

/-! What the formats of requests ask of a tree. -/

/-- Asked of an object, which it has to be. -/
def HasMembers (P : List (StdString × JsonValue) → Prop) : JsonValue → Prop
  | .object m => P m
  | _ => False

def IfThere (P : JsonValue → Prop) (name : StdString) (m : List (StdString × JsonValue)) : Prop :=
  ∀ v, JsonValue.lookup name m = some v → P v

def Nullable (P : JsonValue → Prop) : JsonValue → Prop
  | .null => True
  | v => P v

def EachElement (P : JsonValue → Prop) : JsonValue → Prop
  | .array vs => ∀ v ∈ vs, P v
  | _ => False

def IsText (v : JsonValue) : Prop := ∃ s, v = .string s

def IsWhole (v : JsonValue) : Prop := ∃ n, v = .integer n

def IsNumeric (v : JsonValue) : Prop := IsWhole v ∨ ∃ x, v = .decimal x

/-- One of the numbers from 0 to 7. -/
def IsPosition (v : JsonValue) : Prop := ∃ pos, JsonvExtractors.adPosition v = some pos

def BannerTyped : JsonValue → Prop :=
  HasMembers fun m => IfThere IsWhole (ascii "h") m ∧ IfThere IsWhole (ascii "w") m ∧
    IfThere IsPosition (ascii "pos") m

def ImpressionTyped : JsonValue → Prop :=
  HasMembers fun m => IfThere IsText (ascii "id") m ∧
    IfThere (Nullable BannerTyped) (ascii "banner") m ∧ IfThere IsNumeric (ascii "bidfloor") m ∧
    IfThere IsText (ascii "bidfloorcur") m

def GeoTyped : JsonValue → Prop :=
  HasMembers fun m => IfThere IsText (ascii "city") m ∧ IfThere IsText (ascii "country") m

def UserTyped : JsonValue → Prop :=
  HasMembers fun m => IfThere IsText (ascii "id") m ∧ IfThere IsText (ascii "buyeruid") m ∧
    IfThere (Nullable GeoTyped) (ascii "geo") m

def SiteTyped : JsonValue → Prop := HasMembers (IfThere IsText (ascii "id"))

def RequestTyped : JsonValue → Prop :=
  HasMembers fun m => IfThere IsText (ascii "id") m ∧
    IfThere (EachElement ImpressionTyped) (ascii "imp") m ∧
    IfThere (Nullable UserTyped) (ascii "user") m ∧ IfThere (Nullable SiteTyped) (ascii "site") m

end Typed

section Formats

open JsonvExtractors

theorem bind_isSome {x : Option A} {f : A → Option B} {Q : Prop}
    (rest : ∀ a, (f a).isSome = true ↔ Q) : (x >>= f).isSome = true ↔ x.isSome = true ∧ Q := by
  cases x with
  | none => simp
  | some a => simpa using rest a

theorem member_isSome {get : JsonValue → Option T} {P : JsonValue → Prop}
    (one : ∀ v, (get v).isSome = true ↔ P v) (m : List (StdString × JsonValue)) (name : StdString)
    (unset : T) : (member (.object m) name get unset).isSome = true ↔ IfThere P name m := by
  unfold member IfThere
  dsimp only
  cases JsonValue.lookup name m with
  | none => simp
  | some v => simp [one v]

theorem nullable_isSome {extract : JsonValue → Option T} {P : JsonValue → Prop}
    (one : ∀ v, (extract v).isSome = true ↔ P v) (v : JsonValue) :
    (JsonvExtractors.optional extract v).isSome = true ↔ Nullable P v := by
  cases v with
  | null => exact iff_of_true rfl trivial
  | _ => simpa [JsonvExtractors.optional, Nullable] using one _

theorem container_isSome {extract : JsonValue → Option T} {P : JsonValue → Prop}
    (one : ∀ v, (extract v).isSome = true ↔ P v) (v : JsonValue) :
    (container extract v).isSome = true ↔ EachElement P v := by
  cases v with
  | array vs => simp [container, EachElement, mapM_isSome_iff, one]
  | _ => exact iff_of_false nofun id

theorem asString_isSome (v : JsonValue) : (asString v).isSome = true ↔ IsText v := by
  cases v <;> simp [asString, IsText]

theorem asUint16_isSome (v : JsonValue) : (asUint16 v).isSome = true ↔ IsWhole v := by
  cases v <;> simp [asUint16, IsWhole]

theorem asDecimal_isSome (v : JsonValue) : (asDecimal v).isSome = true ↔ IsNumeric v := by
  cases v <;> simp [asDecimal, IsNumeric, IsWhole]

theorem adPosition_isSome (v : JsonValue) : (adPosition v).isSome = true ↔ IsPosition v :=
  Option.isSome_iff_exists

variable (indeterminate : AdPosition)

theorem banner_typed (v : JsonValue) :
    (JsonvExtractors.banner indeterminate v).isSome = true ↔ BannerTyped v := by
  cases v with
  | object m =>
      rw [JsonvExtractors.banner, BannerTyped, HasMembers, ← member_isSome asUint16_isSome m _ 0,
        ← member_isSome asUint16_isSome m (ascii "w") 0,
        ← member_isSome adPosition_isSome m _ indeterminate]
      refine bind_isSome fun h => bind_isSome fun w => ?_
      cases member (.object m) (ascii "pos") adPosition indeterminate <;> simp
  | _ => exact iff_of_false nofun id

theorem impression_typed (v : JsonValue) :
    (JsonvExtractors.impression indeterminate v).isSome = true ↔ ImpressionTyped v := by
  cases v with
  | object m =>
      rw [JsonvExtractors.impression, ImpressionTyped, HasMembers,
        ← member_isSome asString_isSome m (ascii "id") [],
        ← member_isSome (nullable_isSome (banner_typed indeterminate)) m (ascii "banner") none,
        ← member_isSome asDecimal_isSome m (ascii "bidfloor") 0,
        ← member_isSome asString_isSome m (ascii "bidfloorcur") []]
      refine bind_isSome fun id => bind_isSome fun banner => bind_isSome fun bidfloor => ?_
      cases member (.object m) (ascii "bidfloorcur") asString [] <;> simp
  | _ => exact iff_of_false nofun id

theorem geo_typed (v : JsonValue) : (JsonvExtractors.geo v).isSome = true ↔ GeoTyped v := by
  cases v with
  | object m =>
      rw [JsonvExtractors.geo, GeoTyped, HasMembers,
        ← member_isSome asString_isSome m (ascii "city") [],
        ← member_isSome asString_isSome m (ascii "country") []]
      refine bind_isSome fun city => ?_
      cases member (.object m) (ascii "country") asString [] <;> simp
  | _ => exact iff_of_false nofun id

theorem user_typed (v : JsonValue) : (JsonvExtractors.user v).isSome = true ↔ UserTyped v := by
  cases v with
  | object m =>
      rw [JsonvExtractors.user, UserTyped, HasMembers,
        ← member_isSome asString_isSome m (ascii "id") [],
        ← member_isSome asString_isSome m (ascii "buyeruid") [],
        ← member_isSome (nullable_isSome geo_typed) m (ascii "geo") none]
      refine bind_isSome fun id => bind_isSome fun buyeruid => ?_
      cases member (.object m) (ascii "geo") (JsonvExtractors.optional JsonvExtractors.geo) none <;>
        simp
  | _ => exact iff_of_false nofun id

theorem site_typed (v : JsonValue) : (JsonvExtractors.site v).isSome = true ↔ SiteTyped v := by
  cases v with
  | object m =>
      rw [JsonvExtractors.site, SiteTyped, HasMembers,
        ← member_isSome asString_isSome m (ascii "id") []]
      cases member (.object m) (ascii "id") asString [] <;> simp
  | _ => exact iff_of_false nofun id

/-- The formats take exactly the objects whose named members are of their types. -/
theorem request_typed (v : JsonValue) :
    (JsonvExtractors.bidRequest indeterminate v).isSome = true ↔ RequestTyped v := by
  cases v with
  | object m =>
      rw [JsonvExtractors.bidRequest, RequestTyped, HasMembers,
        ← member_isSome asString_isSome m (ascii "id") [],
        ← member_isSome (container_isSome (impression_typed indeterminate)) m (ascii "imp") [],
        ← member_isSome (nullable_isSome user_typed) m (ascii "user") none,
        ← member_isSome (nullable_isSome site_typed) m (ascii "site") none]
      refine bind_isSome fun id => bind_isSome fun imp => bind_isSome fun user => ?_
      cases member (.object m) (ascii "site") (JsonvExtractors.optional JsonvExtractors.site) none <;>
        simp
  | _ => exact iff_of_false nofun id

end Formats

end VanillaRtb.Dsl
