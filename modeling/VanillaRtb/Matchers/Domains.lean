import VanillaRtb.Common.UriHosts
import VanillaRtb.Matchers.Campaigns
import VanillaRtb.Matchers.Loading

/-! # From a file of domains to the domain of a URL

The names are lower-cased when they are loaded, the host of a URL is looked up as it is. A
line with too few fields stores the record before it once more; the first record is
default-constructed, and its number is whatever the memory held.
-/

namespace VanillaRtb.Matchers

open Lib Common

/-- `boost::split` at tabs with `token_compress_on`: a run of tabs is one delimiter. -/
def splitCompressed : StdString → List StdString
  | [] => [[]]
  | c :: rest =>
      let tokens := splitCompressed rest
      if c = 9 then if rest.head? = some 9 then tokens else [] :: tokens
      else
        match tokens with
        | [] => [[c]]
        | token :: tokens => (c :: token) :: tokens

def isSpace (c : UInt8) : Bool := c = 32 || 9 ≤ c && c ≤ 13

/-- `atol`; a number that no `long` holds is undefined. -/
def atol (s : StdString) : Option Int :=
  let s := s.dropWhile isSpace
  let unsigned := if s.head? = some 43 ∨ s.head? = some 45 then s.tail else s
  let digits := unsigned.takeWhile UriGrammar.isDigit
  let n : Nat := digits.foldl (fun n c => 10 * n + (c.toNat - 48)) 0
  let value : Int := if s.head? = some 45 then -n else n
  if -2 ^ 63 ≤ value ∧ value < 2 ^ 63 then some value else none

/-- The conversion of a `long` to `uint32_t`. -/
def toUint32 (value : Int) : UInt32 := .ofNat (value % 2 ^ 32).toNat

/-- What the loads of domains and of locations differ in. -/
structure TokenLoader (R : Type) {E φ : Type} [LinearOrder φ] (key : E → List φ) where
  checked : Nat
  /-- Nothing where a conversion is undefined. -/
  convert : List StdString → Option R
  store : R → E

variable {R E φ : Type} [LinearOrder φ] {key : E → List φ}

namespace TokenLoader

variable (l : TokenLoader R key)

/-- `operator>>` after its `getline`. -/
def extract (line : StdString) (value : R) : Except LoadFault R :=
  let fields := splitCompressed line
  if fields.length < l.checked then .ok value
  else
    match l.convert fields with
    | some r => .ok r
    | none => .error .undefined

def forEach (full : Nat → Bool) : Nat → List StdString → R → OrderedUnique key →
    OrderedUnique key × Except LoadFault Unit
  | _, [], _, cache => (cache, .ok ())
  | n, line :: lines, value, cache =>
      match l.extract line value with
      | .error e => (cache, .error e)
      | .ok value =>
          if full n then (cache, .error (.thrown .badAlloc))
          else forEach full (n + 1) lines value (cache.insert (l.store value)).1

/-- `load` of a file, if it can be opened; `initial` is the record that is read into. -/
def load (initial : R) (source : StdString) (full : Nat → Bool) (file : Option StdString)
    (cache : OrderedUnique key) : OrderedUnique key × Except LoadFault Unit :=
  match file with
  | none =>
      (cache, .error (.thrown (.runtimeError
        (ascii "could not open file " ++ source ++ ascii " exiting..."))))
  | some text => l.forEach full 0 (getlines text) initial (.empty key)

/-- The records that the lines yield: a short line yields the one before it again. -/
def records : R → List StdString → List R
  | _, [] => []
  | value, line :: lines =>
      let fields := splitCompressed line
      let next := if fields.length < l.checked then value else (l.convert fields).getD value
      next :: records next lines

variable {l} {full : Nat → Bool} {value initial : R} {stored : List E} {text source : StdString}
  {cache : OrderedUnique key}

theorem extract_ok (read : l.extract line value = .ok next) :
    next = if (splitCompressed line).length < l.checked then value
      else (l.convert (splitCompressed line)).getD value := by
  by_cases short : (splitCompressed line).length < l.checked
  · simpa [extract, short] using read.symm
  · cases converted : l.convert (splitCompressed line) with
    | none => simp [extract, short, converted] at read
    | some r => simpa [extract, short, converted] using read.symm

theorem forEach_firsts (firsts : cache.FirstOfEach stored)
    (returned : (l.forEach full n lines value cache).2 = .ok ()) :
    (l.forEach full n lines value cache).1.FirstOfEach
      (stored ++ (l.records value lines).map l.store) := by
  induction lines generalizing n value cache stored with
  | nil => simpa [forEach, records] using firsts
  | cons line lines ih =>
      cases read : l.extract line value with
      | error e => simp [forEach, read] at returned
      | ok next =>
          cases room : full n with
          | true => simp [forEach, read, room] at returned
          | false =>
              have step : l.forEach full n (line :: lines) value cache =
                  l.forEach full (n + 1) lines next (cache.insert (l.store next)).1 := by
                simp [forEach, read, room]
              rw [step] at returned ⊢
              have later := ih (firsts.insert (l.store next)) returned
              simpa [records, ← extract_ok read] using later

theorem load_firsts (returned : (l.load initial source full (some text) cache).2 = .ok ()) :
    (l.load initial source full (some text) cache).1.FirstOfEach
      ((l.records initial (getlines text)).map l.store) :=
  forEach_firsts OrderedUnique.firstOfEach_empty returned

end TokenLoader

def Domain.convert (fields : List StdString) : Option Domain := do
  let name ← fields[0]?
  let domId ← atol (← fields[1]?)
  return { name := name, domId := toUint32 domId }

def DomainEntity.loader : TokenLoader Domain Domain.key where
  checked := 2
  convert := Domain.convert
  store d := { d with name := toLowerCopy d.name }

def Geo.convert (fields : List StdString) : Option Geo := do
  let geoId ← atol (← fields[0]?)
  let city ← fields[1]?
  let country ← fields[2]?
  return { geoId := toUint32 geoId, city := city, country := country }

def GeoDataEntity.loader : TokenLoader Geo CityCountryEntity.cityCountry where
  checked := 3
  convert := Geo.convert
  store g := { city := toLowerCopy g.city, country := toLowerCopy g.country, geoId := g.geoId }

/-- `retrieve` of a URL with what `parse` makes of it; nothing where the fuel does not suffice. -/
def DomainEntity.retrieveUrl (octet : UriGrammar.OctetParser) (fuel : Nat) (cache : DomainEntity)
    (url : StdString) : Option (Option Domain) :=
  (UriGrammar.parse octet fuel url).map fun result =>
    cache.retrieve (fun _ => result.2.hierPart.host.map IteratorRange.string) url

section Looking

variable {octet : UriGrammar.OctetParser} {cache : DomainEntity} {records : List Domain}

theorem map_toNat_inj {s t : StdString} (same : s.map UInt8.toNat = t.map UInt8.toNat) : s = t :=
  List.map_injective_iff.mpr (fun _ _ => UInt8.toNat_inj.mp) same

theorem key_le_iff {d d' : Domain} (same : d.name = d'.name) :
    d.key ≤ d'.key ↔ d.domId.toNat ≤ d'.domId.toNat := by
  rw [← not_lt, ← not_lt, Domain.key, Domain.key, same]
  simp [List.cons_lt_cons_iff]

theorem domain_key_inj {d d' : Domain} (same : d.key = d'.key) : d = d' := by
  cases d
  cases d'
  simp only [Domain.key, List.cons.injEq, and_true] at same
  obtain ⟨names, numbers⟩ := same
  cases map_toNat_inj names
  cases UInt32.toNat_inj.mp numbers
  rfl

theorem mem_of_firsts (firsts : cache.FirstOfEach (records.map DomainEntity.loader.store)) :
    d ∈ cache.entries ↔ ∃ r ∈ records, DomainEntity.loader.store r = d := by
  rw [firsts d, ← List.mem_map]
  constructor
  · intro found
    exact List.mem_of_find?_eq_some found
  · intro member
    cases found : (records.map DomainEntity.loader.store).find? (fun r => r.key = d.key) with
    | none => simpa using List.find?_eq_none.mp found d member
    | some r =>
        have same : r.key = d.key := by simpa using List.find?_some found
        cases domain_key_inj same
        convert found

/-- The first domain of a name is the one with the least number. -/
theorem find_least (firsts : cache.FirstOfEach (records.map DomainEntity.loader.store))
    (host : StdString) (d : Domain) :
    cache.find [host.map UInt8.toNat] = some d ↔ d.name = host ∧
      IsLeast {id | ∃ r ∈ records, toLowerCopy r.name = host ∧ r.domId.toNat = id}
        d.domId.toNat := by
  have named (b : Domain) : b.key.take 1 = [host.map UInt8.toNat] ↔ b.name = host := by
    simp only [Domain.key, List.take_succ_cons, List.take_zero, List.cons.injEq, and_true]
    exact ⟨map_toNat_inj, fun same => congrArg _ same⟩
  rw [OrderedUnique.find_eq_some_iff]
  simp only [List.length_singleton, named]
  constructor
  · intro found
    obtain ⟨⟨member, name⟩, least⟩ := found
    refine ⟨name, ?_, ?_⟩
    · obtain ⟨r, among, rfl⟩ := (mem_of_firsts firsts).mp member
      exact ⟨r, among, name, rfl⟩
    · intro id number
      obtain ⟨r, among, lower, rfl⟩ := number
      have inside := (mem_of_firsts firsts).mpr ⟨r, among, rfl⟩
      have named : d.name = (DomainEntity.loader.store r).name := name.trans lower.symm
      exact (key_le_iff named).mp (least _ inside lower)
  · intro found
    obtain ⟨name, ⟨r, among, lower, number⟩, least⟩ := found
    have same : DomainEntity.loader.store r = d := by
      cases d
      cases name
      exact congrArg₂ Domain.mk lower (UInt32.toNat_inj.mp number)
    refine ⟨⟨(mem_of_firsts firsts).mpr ⟨r, among, same⟩, name⟩, ?_⟩
    intro b inside other
    obtain ⟨r', among', rfl⟩ := (mem_of_firsts firsts).mp inside
    exact (key_le_iff (name.trans other.symm)).mpr (least ⟨r', among', other, rfl⟩)

end Looking

section Urls

open Peg UriGrammar

variable {octet : OctetParser}

theorem retrieveUrl_of_parses {cache : DomainEntity} {p : UriParts}
    (parsed : Parses octet url (b, p)) (host : p.hierPart.host = some (.text h)) :
    (∃ fuel, DomainEntity.retrieveUrl octet fuel cache url = some (some d)) ↔
      cache.find [h.map UInt8.toNat] = some d := by
  obtain ⟨enough, ran⟩ := parsed
  constructor
  · intro retrieved
    obtain ⟨fuel, retrieved⟩ := retrieved
    simp only [DomainEntity.retrieveUrl, Option.map_eq_some_iff] at retrieved
    obtain ⟨r, again, found⟩ := retrieved
    cases parse_unique ran again
    simpa [DomainEntity.retrieve, host, IteratorRange.string] using found
  · intro found
    refine ⟨enough, ?_⟩
    simp [DomainEntity.retrieveUrl, ran, DomainEntity.retrieve, host, IteratorRange.string, found]

theorem exampleName_word : ascii "ex.com" ∈ regName.language :=
  mem_language_of_run 20 (by decide +kernel)

def exampleUri : Uri uint8Parser := nameUri uint8Parser _ exampleName_word

end Urls

end VanillaRtb.Matchers
