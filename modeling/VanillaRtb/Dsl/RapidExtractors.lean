import VanillaRtb.OpenRtb

/-! # Requests out of a rapidjson document

The extractors walk the members of an object, or ask an object for a member by name. The
accessors of a value have preconditions, its type among them, and asking for a member that
is not there has none that holds: what violates one is undefined here.
-/

namespace VanillaRtb.Dsl

open OpenRtb

/-- A number is kept as an integer where it is written as one that fits 64 bits. -/
inductive RapidNumber where
  | integer (n : Int)
  | double (x : Float)

inductive RapidValue where
  | null
  | boolean (b : Bool)
  | number (n : RapidNumber)
  | string (s : StdString)
  | array (elements : List RapidValue)
  | object (members : List (StdString × RapidValue))

/-- `std::strcmp` with a literal, which ends a name at its first NUL. -/
def strcmp (name literal : StdString) : Bool := name.takeWhile (· ≠ 0) == literal

namespace RapidValue

def getString : RapidValue → Option StdString
  | string s => some s
  | _ => none

def getDouble : RapidValue → Option Float
  | number (.integer n) => some (Float.ofInt n)
  | number (.double x) => some x
  | _ => none

def getInt : RapidValue → Option Int32
  | number (.integer n) => if -2 ^ 31 ≤ n ∧ n < 2 ^ 31 then some (Int32.ofInt n) else none
  | _ => none

/-- `operator[]`: the first member under the name. -/
def index (members : List (StdString × RapidValue)) (name : StdString) : Option RapidValue :=
  (members.find? fun m => m.1 == name).map Prod.snd

/-- An accessor of a member. -/
def access (get : RapidValue → Option T) (members : List (StdString × RapidValue))
    (name : StdString) : Option T :=
  (index members name).bind get

end RapidValue

namespace RapidExtractors

open RapidValue

/-- Anything but an object is an empty optional. -/
def optional (extract : List (StdString × RapidValue) → Option T) : RapidValue → Option (Option T)
  | .object members => (extract members).map some
  | _ => some none

def vector (extract : RapidValue → Option T) : RapidValue → Option (List T)
  | .array elements => elements.mapM extract
  | _ => some []

def banner : RapidValue → Option (Option (Banner StdString)) :=
  optional fun m => do
    let h ← access getInt m (ascii "h")
    let w ← access getInt m (ascii "w")
    let pos ← access getInt m (ascii "pos")
    pure { h := h.toUInt32.toUInt16, w := w.toUInt32.toUInt16, pos := ⟨pos.toInt8⟩ }

def site : RapidValue → Option (Option (Site StdString)) :=
  optional fun m => do
    let id ← access getString m (ascii "id")
    let ref ← access getString m (ascii "ref")
    pure { id, ref }

def geo : RapidValue → Option (Option (Geo StdString)) :=
  optional fun m => do
    let city ← access getString m (ascii "city")
    let country ← access getString m (ascii "country")
    pure { city, country }

def user : RapidValue → Option (Option (User StdString)) :=
  optional fun m => (access geo m (ascii "geo")).map fun geo => { geo }

/-- One member of an impression. -/
def impressionMember (imp : Impression StdString) (m : StdString × RapidValue) :
    Option (Impression StdString) :=
  if strcmp m.1 (ascii "id") then m.2.getString.map fun id => { imp with id }
  else if strcmp m.1 (ascii "banner") then (banner m.2).map fun banner => { imp with banner }
  else if strcmp m.1 (ascii "bidfloor") then m.2.getDouble.map fun bidfloor => { imp with bidfloor }
  else if strcmp m.1 (ascii "bidfloorcur") then
    m.2.getString.map fun bidfloorcur => { imp with bidfloorcur }
  else some imp

def impression : RapidValue → Option (Impression StdString)
  | .object members => members.foldlM impressionMember {}
  | _ => some {}

/-- One member of a request. -/
def requestMember (request : BidRequest StdString) (m : StdString × RapidValue) :
    Option (BidRequest StdString) :=
  if m.1.length = 2 ∧ strcmp m.1 (ascii "id") then m.2.getString.map fun id => { request with id }
  else if strcmp m.1 (ascii "imp") then
    (vector impression m.2).map fun imp => { request with imp }
  else if strcmp m.1 (ascii "user") then (user m.2).map fun user => { request with user }
  else if strcmp m.1 (ascii "site") then (site m.2).map fun site => { request with site }
  else some request

/-- `extractors<BidRequest>::extract` of a document, nothing where a precondition is violated. -/
def bidRequest : RapidValue → Option (BidRequest StdString)
  | .object members => members.foldlM requestMember {}
  | _ => some {}

end RapidExtractors

section Preconditions

/-! What the accessors ask of a document. -/

open RapidValue

/-- The first member under the name is there and is as asked. -/
def HasMember (P : RapidValue → Prop) (name : StdString) (m : List (StdString × RapidValue)) :
    Prop :=
  ∃ v, index m name = some v ∧ P v

def IsString (v : RapidValue) : Prop := ∃ s, v = .string s

def IsNumber (v : RapidValue) : Prop := ∃ n, v = .number n

/-- An integer of 32 bits, written as one. -/
def IsInt (v : RapidValue) : Prop := ∃ n, v = .number (.integer n) ∧ -2 ^ 31 ≤ n ∧ n < 2 ^ 31

/-- Asked of objects only. -/
def IfObject (P : List (StdString × RapidValue) → Prop) : RapidValue → Prop
  | .object members => P members
  | _ => True

def IfArray (P : RapidValue → Prop) : RapidValue → Prop
  | .array elements => ∀ v ∈ elements, P v
  | _ => True

def BannerReadable : RapidValue → Prop :=
  IfObject fun m => HasMember IsInt (ascii "h") m ∧ HasMember IsInt (ascii "w") m ∧
    HasMember IsInt (ascii "pos") m

def SiteReadable : RapidValue → Prop :=
  IfObject fun m => HasMember IsString (ascii "id") m ∧ HasMember IsString (ascii "ref") m

def GeoReadable : RapidValue → Prop :=
  IfObject fun m => HasMember IsString (ascii "city") m ∧ HasMember IsString (ascii "country") m

def UserReadable : RapidValue → Prop := IfObject (HasMember GeoReadable (ascii "geo"))

structure ImpressionMemberReadable (m : StdString × RapidValue) : Prop where
  id : strcmp m.1 (ascii "id") = true → IsString m.2
  banner : strcmp m.1 (ascii "banner") = true → BannerReadable m.2
  bidfloor : strcmp m.1 (ascii "bidfloor") = true → IsNumber m.2
  bidfloorcur : strcmp m.1 (ascii "bidfloorcur") = true → IsString m.2

def ImpressionReadable : RapidValue → Prop :=
  IfObject fun members => ∀ m ∈ members, ImpressionMemberReadable m

structure RequestMemberReadable (m : StdString × RapidValue) : Prop where
  id : m.1 = ascii "id" → IsString m.2
  imp : strcmp m.1 (ascii "imp") = true → IfArray ImpressionReadable m.2
  user : strcmp m.1 (ascii "user") = true → UserReadable m.2
  site : strcmp m.1 (ascii "site") = true → SiteReadable m.2

def RequestReadable : RapidValue → Prop :=
  IfObject fun members => ∀ m ∈ members, RequestMemberReadable m

end Preconditions

section Readable

open RapidValue

theorem foldlM_isSome_iff {f : S → M → Option S} {P : M → Prop}
    (one : ∀ s m, (f s m).isSome = true ↔ P m) (s : S) (ms : List M) :
    (ms.foldlM f s).isSome = true ↔ ∀ m ∈ ms, P m := by
  induction ms generalizing s with
  | nil => simp
  | cons m ms ih =>
      rw [List.foldlM_cons, List.forall_mem_cons, ← one s m]
      cases f s m with
      | none => simp
      | some next => simpa using ih next

theorem mapM_isSome_iff (f : A → Option T) (vs : List A) :
    (vs.mapM f).isSome = true ↔ ∀ v ∈ vs, (f v).isSome = true := by
  induction vs with
  | nil => simp
  | cons v vs ih =>
      rw [List.mapM_cons, List.forall_mem_cons, ← ih]
      cases f v with
      | none => simp
      | some t => cases vs.mapM f <;> simp

theorem getString_isSome (v : RapidValue) : v.getString.isSome = true ↔ IsString v := by
  cases v <;> simp [getString, IsString]

theorem getDouble_isSome (v : RapidValue) : v.getDouble.isSome = true ↔ IsNumber v := by
  cases v with
  | number n => cases n <;> simp [getDouble, IsNumber]
  | _ => simp [getDouble, IsNumber]

theorem getInt_isSome (v : RapidValue) : v.getInt.isSome = true ↔ IsInt v := by
  cases v with
  | number n =>
      cases n with
      | integer n =>
          rw [getInt]
          split <;> simp_all [IsInt]
      | double x => simp [getInt, IsInt]
  | _ => simp [getInt, IsInt]

theorem access_isSome {get : RapidValue → Option T} {P : RapidValue → Prop}
    (one : ∀ v, (get v).isSome = true ↔ P v) (m : List (StdString × RapidValue))
    (name : StdString) : (access get m name).isSome = true ↔ HasMember P name m := by
  rw [access]
  cases found : index m name with
  | none => simp [HasMember, found]
  | some v => simp [HasMember, found, one]

theorem optional_isSome {extract : List (StdString × RapidValue) → Option T}
    {P : List (StdString × RapidValue) → Prop} (one : ∀ m, (extract m).isSome = true ↔ P m)
    (v : RapidValue) : (RapidExtractors.optional extract v).isSome = true ↔ IfObject P v := by
  cases v <;> simp [RapidExtractors.optional, IfObject, one]

theorem vector_isSome {extract : RapidValue → Option T} {P : RapidValue → Prop}
    (one : ∀ v, (extract v).isSome = true ↔ P v) (v : RapidValue) :
    (RapidExtractors.vector extract v).isSome = true ↔ IfArray P v := by
  cases v with
  | array elements =>
      rw [RapidExtractors.vector, mapM_isSome_iff]
      exact forall₂_congr fun v _ => one v
  | _ => simp [RapidExtractors.vector, IfArray]

theorem banner_isSome (v : RapidValue) :
    (RapidExtractors.banner v).isSome = true ↔ BannerReadable v := by
  apply optional_isSome
  intro m
  rw [← access_isSome getInt_isSome, ← access_isSome getInt_isSome, ← access_isSome getInt_isSome]
  cases access getInt m (ascii "h") <;> cases access getInt m (ascii "w") <;>
    cases access getInt m (ascii "pos") <;> simp

theorem site_isSome (v : RapidValue) :
    (RapidExtractors.site v).isSome = true ↔ SiteReadable v := by
  apply optional_isSome
  intro m
  rw [← access_isSome getString_isSome, ← access_isSome getString_isSome]
  cases access getString m (ascii "id") <;> cases access getString m (ascii "ref") <;> simp

theorem geo_isSome (v : RapidValue) :
    (RapidExtractors.geo v).isSome = true ↔ GeoReadable v := by
  apply optional_isSome
  intro m
  rw [← access_isSome getString_isSome, ← access_isSome getString_isSome]
  cases access getString m (ascii "city") <;> cases access getString m (ascii "country") <;> simp

theorem user_isSome (v : RapidValue) :
    (RapidExtractors.user v).isSome = true ↔ UserReadable v := by
  apply optional_isSome
  intro m
  rw [Option.isSome_map, access_isSome geo_isSome]

theorem strcmp_unique {name literal literal' : StdString} (here : strcmp name literal = true)
    (there : strcmp name literal' = true) : literal = literal' :=
  (eq_of_beq here).symm.trans (eq_of_beq there)

theorem impressionMember_isSome (imp : Impression StdString) (m : StdString × RapidValue) :
    (RapidExtractors.impressionMember imp m).isSome = true ↔ ImpressionMemberReadable m := by
  rw [RapidExtractors.impressionMember]
  split
  case isTrue id =>
    rw [Option.isSome_map, getString_isSome]
    constructor
    · intro string
      exact ⟨fun _ => string, fun h => absurd (strcmp_unique id h) (by decide),
        fun h => absurd (strcmp_unique id h) (by decide),
        fun h => absurd (strcmp_unique id h) (by decide)⟩
    · exact fun readable => readable.id id
  case isFalse notId =>
  split
  case isTrue banner =>
    rw [Option.isSome_map, banner_isSome]
    constructor
    · intro object
      exact ⟨fun h => absurd h notId, fun _ => object,
        fun h => absurd (strcmp_unique banner h) (by decide),
        fun h => absurd (strcmp_unique banner h) (by decide)⟩
    · exact fun readable => readable.banner banner
  case isFalse notBanner =>
  split
  case isTrue bidfloor =>
    rw [Option.isSome_map, getDouble_isSome]
    constructor
    · intro number
      exact ⟨fun h => absurd h notId, fun h => absurd h notBanner, fun _ => number,
        fun h => absurd (strcmp_unique bidfloor h) (by decide)⟩
    · exact fun readable => readable.bidfloor bidfloor
  case isFalse notBidfloor =>
  split
  case isTrue bidfloorcur =>
    rw [Option.isSome_map, getString_isSome]
    constructor
    · intro string
      exact ⟨fun h => absurd h notId, fun h => absurd h notBanner, fun h => absurd h notBidfloor,
        fun _ => string⟩
    · exact fun readable => readable.bidfloorcur bidfloorcur
  case isFalse notBidfloorcur =>
    refine iff_of_true rfl ?_
    exact ⟨fun h => absurd h notId, fun h => absurd h notBanner, fun h => absurd h notBidfloor,
      fun h => absurd h notBidfloorcur⟩

theorem impression_isSome (v : RapidValue) :
    (RapidExtractors.impression v).isSome = true ↔ ImpressionReadable v := by
  cases v with
  | object members => exact foldlM_isSome_iff impressionMember_isSome {} members
  | _ => exact iff_of_true rfl trivial

theorem named_id (name : StdString) :
    (name.length = 2 ∧ strcmp name (ascii "id") = true) ↔ name = ascii "id" := by
  constructor
  · rintro ⟨two, same⟩
    have front := eq_of_beq same
    have whole : name.takeWhile (· ≠ 0) = name := by
      apply (List.takeWhile_prefix _).eq_of_length
      rw [front, two]
      rfl
    rw [← whole, front]
  · rintro rfl
    exact ⟨rfl, by decide⟩

theorem requestMember_isSome (request : BidRequest StdString) (m : StdString × RapidValue) :
    (RapidExtractors.requestMember request m).isSome = true ↔ RequestMemberReadable m := by
  rw [RapidExtractors.requestMember]
  split
  case isTrue id =>
    rw [Option.isSome_map, getString_isSome]
    constructor
    · intro string
      exact ⟨fun _ => string, fun h => absurd (strcmp_unique id.2 h) (by decide),
        fun h => absurd (strcmp_unique id.2 h) (by decide),
        fun h => absurd (strcmp_unique id.2 h) (by decide)⟩
    · exact fun readable => readable.id ((named_id m.1).mp id)
  case isFalse notId =>
  have unnamed : m.1 ≠ ascii "id" := mt (named_id m.1).mpr notId
  split
  case isTrue imp =>
    rw [Option.isSome_map, vector_isSome impression_isSome]
    constructor
    · intro array
      exact ⟨fun h => absurd h unnamed, fun _ => array,
        fun h => absurd (strcmp_unique imp h) (by decide),
        fun h => absurd (strcmp_unique imp h) (by decide)⟩
    · exact fun readable => readable.imp imp
  case isFalse notImp =>
  split
  case isTrue user =>
    rw [Option.isSome_map, user_isSome]
    constructor
    · intro object
      exact ⟨fun h => absurd h unnamed, fun h => absurd h notImp, fun _ => object,
        fun h => absurd (strcmp_unique user h) (by decide)⟩
    · exact fun readable => readable.user user
  case isFalse notUser =>
  split
  case isTrue site =>
    rw [Option.isSome_map, site_isSome]
    constructor
    · intro object
      exact ⟨fun h => absurd h unnamed, fun h => absurd h notImp, fun h => absurd h notUser,
        fun _ => object⟩
    · exact fun readable => readable.site site
  case isFalse notSite =>
    refine iff_of_true rfl ?_
    exact ⟨fun h => absurd h unnamed, fun h => absurd h notImp, fun h => absurd h notUser,
      fun h => absurd h notSite⟩

end Readable

/-- No accessor is used on a document that is not made for it exactly when ids, currencies,
    cities, countries and references are strings, bid floors numbers and banner sizes and
    positions integers of 32 bits, and none of those that are asked for by name is missing. -/
theorem extraction_defined_iff (d : RapidValue) :
    (RapidExtractors.bidRequest d).isSome = true ↔ RequestReadable d := by
  cases d with
  | object members => exact foldlM_isSome_iff requestMember_isSome {} members
  | _ => exact iff_of_true rfl trivial

/-- A user without a location. -/
theorem user_without_geo :
    (RapidExtractors.bidRequest (.object [(ascii "user", .object [])])).isSome = false := by
  decide

end VanillaRtb.Dsl
