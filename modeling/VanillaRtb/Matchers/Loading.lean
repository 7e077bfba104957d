import VanillaRtb.Campaign.Cache
import VanillaRtb.Lib.Records
import VanillaRtb.Matchers.Columns
import VanillaRtb.Matchers.Walking

/-! # Loading caches

A cache is emptied before its source is read, and each record is stored as soon as it is
read. A line with too few fields leaves the record that was read last as it is, and it is
stored once more; where no record was read before, that is a default-constructed one. An
exception leaves what was stored before it.
-/

namespace VanillaRtb.Matchers

open Campaign Lib

/-- `std::getline` from what is left of a stream; at its end it fails. -/
def getline : StdString → Option (StdString × StdString)
  | [] => none
  | c :: rest =>
      some ((c :: rest).takeWhile fun b => b ≠ 10, ((c :: rest).dropWhile fun b => b ≠ 10).tail)

/-- The records that it reads until it fails. -/
def getlines : StdString → List StdString
  | [] => []
  | c :: rest =>
      if c = 10 then [] :: getlines rest
      else
        match getlines rest with
        | [] => [[c]]
        | line :: lines => (c :: line) :: lines

theorem getlines_eq (text : StdString) : getlines text =
    match getline text with
    | none => []
    | some (record, rest) => record :: getlines rest := by
  induction text with
  | nil => rfl
  | cons c rest ih =>
      by_cases newline : c = 10
      · subst newline
        rfl
      · have kept : decide (c ≠ 10) = true := decide_eq_true newline
        rw [getlines, if_neg newline, ih, getline,
          List.takeWhile_cons_of_pos (p := fun b => decide (b ≠ 10)) kept,
          List.dropWhile_cons_of_pos (p := fun b => decide (b ≠ 10)) kept]
        cases rest with
        | nil => rfl
        | cons d rest => rfl

/-- What stops a load: an exception, or a read behind the end of a blank record. -/
inductive LoadFault where
  | thrown (e : Thrown)
  | undefined
  deriving DecidableEq

/-- What the loads differ in: the record that is read into, how many fields `operator>>` asks
    for, what it makes of them, and how a record is stored. -/
structure Loader (R : Type) {E : Type} (key : E → List Nat) where
  initial : R
  checked : Nat
  convert : List StringView → Except Thrown R
  store : R → E

variable {R E : Type} {key : E → List Nat}

namespace Loader

variable (l : Loader R key)

/-- `operator>>` after its `getline`. -/
def extract (line : StdString) (value : R) : Except LoadFault R :=
  match splitString tab line with
  | none => .error .undefined
  | some fields =>
      if fields.length < l.checked then .ok value
      else
        match l.convert fields with
        | .ok r => .ok r
        | .error e => .error (.thrown e)

/-- `std::for_each` from the `n`-th record on; `full n` tells whether storing it runs out of
    memory, also after the segment has grown. -/
def forEach (full : Nat → Bool) : Nat → List StdString → R → OrderedUnique key →
    OrderedUnique key × Except LoadFault Unit
  | _, [], _, cache => (cache, .ok ())
  | n, line :: lines, value, cache =>
      match l.extract line value with
      | .error e => (cache, .error e)
      | .ok value =>
          if full n then (cache, .error (.thrown .badAlloc))
          else forEach full (n + 1) lines value (cache.insert (l.store value)).1

def loadLines (full : Nat → Bool) (lines : List StdString) :
    OrderedUnique key × Except LoadFault Unit :=
  l.forEach full 0 lines l.initial (.empty key)

/-- `load` of a file, if it can be opened. -/
def load (source : StdString) (full : Nat → Bool) (file : Option StdString)
    (cache : OrderedUnique key) : OrderedUnique key × Except LoadFault Unit :=
  match file with
  | none =>
      (cache, .error (.thrown (.runtimeError
        (ascii "could not open file " ++ source ++ ascii " exiting..."))))
  | some text => l.loadLines full (getlines text)

/-- `operator>>` returns. -/
def Reads (line : StdString) : Prop :=
  ∃ fields, splitString tab line = some fields ∧
    (fields.length < l.checked ∨ ∃ r, l.convert fields = .ok r)

/-- The record in a line, if it has as many fields as are asked for. -/
def entry (line : StdString) : Option R := do
  let fields ← splitString tab line
  if fields.length < l.checked then none else (l.convert fields).toOption

/-- The records that are stored: a line without one repeats the one before. -/
def yielded : R → List StdString → List R
  | _, [] => []
  | value, line :: lines =>
      (l.entry line).getD value :: yielded ((l.entry line).getD value) lines

/-- The line is read and its record is stored. -/
def Passes (full : Nat → Bool) (i : Nat) (line : StdString) : Prop :=
  l.Reads line ∧ full i = false

variable {l} {line : StdString} {before after : List StdString} {full : Nat → Bool}
  {value : R} {cache : OrderedUnique key} {n : Nat}

theorem not_reads_nil : ¬ l.Reads [] := by
  rintro ⟨fields, found, -⟩
  cases found

theorem extract_reads (reads : l.Reads line) (value : R) :
    l.extract line value = .ok ((l.entry line).getD value) := by
  obtain ⟨fields, found, short | ⟨r, converted⟩⟩ := reads
  · simp [extract, entry, found, short]
  · by_cases short : fields.length < l.checked
    · simp [extract, entry, found, short]
    · simp [extract, entry, found, short, converted, Except.toOption]

theorem extract_refused (refused : ¬ l.Reads line) (value : R) :
    ∃ e, l.extract line value = .error e ∧ (e = .undefined ↔ line = []) := by
  rw [extract]
  cases line with
  | nil => exact ⟨.undefined, rfl, by simp⟩
  | cons c rest =>
      have found : splitString tab (c :: rest) = some (splitFrom tab (c :: rest) 1 rest) := rfl
      rw [found]
      dsimp only
      have enough : ¬ (splitFrom tab (c :: rest) 1 rest).length < l.checked :=
        fun short => refused ⟨_, found, .inl short⟩
      rw [if_neg enough]
      cases converted : l.convert (splitFrom tab (c :: rest) 1 rest) with
      | ok r => exact absurd ⟨_, found, .inr ⟨r, converted⟩⟩ refused
      | error e => exact ⟨.thrown e, rfl, by simp⟩

/-- Lines that are read and stored are done with one after the other. -/
theorem forEach_append (passes : Each (fun i => l.Passes full (n + i)) before)
    (value : R) (cache : OrderedUnique key) : ∃ value',
    ∀ after, l.forEach full n (before ++ after) value cache =
      l.forEach full (n + before.length) after value'
        (cache.insertAll ((l.yielded value before).map l.store)) := by
  induction before generalizing n value cache with
  | nil => exact ⟨value, fun after => rfl⟩
  | cons line before ih =>
      obtain ⟨reads, stored⟩ := passes 0 line rfl
      have later : Each (fun i => l.Passes full (n + 1 + i)) before := by
        intro i next here
        have passed := passes (i + 1) next here
        rwa [Nat.add_comm i 1, ← Nat.add_assoc] at passed
      obtain ⟨value', rest⟩ := ih later ((l.entry line).getD value)
        (cache.insert (l.store ((l.entry line).getD value))).1
      refine ⟨value', fun after => ?_⟩
      rw [List.cons_append, forEach, extract_reads reads]
      dsimp only
      rw [if_neg (by simpa using stored), rest after, List.length_cons, Nat.add_assoc,
        Nat.add_comm 1]
      rfl

/-- A line that does not pass ends the load. -/
theorem forEach_stopped (fails : ¬ l.Passes full n line) (after : List StdString) (value : R)
    (cache : OrderedUnique key) : ∃ e,
    l.forEach full n (line :: after) value cache = (cache, .error e) ∧
      (e = .undefined ↔ line = []) := by
  rw [forEach]
  by_cases reads : l.Reads line
  · have filled : full n = true := by
      cases memory : full n with
      | true => rfl
      | false => exact absurd ⟨reads, memory⟩ fails
    rw [extract_reads reads]
    dsimp only
    rw [if_pos filled]
    refine ⟨_, rfl, iff_of_false (by simp) ?_⟩
    rintro rfl
    exact not_reads_nil reads
  · obtain ⟨e, failed, which⟩ := extract_refused reads value
    rw [failed]
    exact ⟨e, rfl, which⟩

theorem yielded_stored (l : Loader R key) (lines : List StdString) :
    (OrderedUnique.insertAll (.empty key) ((l.yielded l.initial lines).map l.store)).FirstOfEach
      ((l.yielded l.initial lines).map l.store) :=
  OrderedUnique.firstOfEach_empty.insertAll _

/-- If all lines pass, the load returns. -/
theorem loadLines_passed (passes : Each (l.Passes full) before) :
    (l.loadLines full before).2 = .ok () ∧
      (l.loadLines full before).1.FirstOfEach ((l.yielded l.initial before).map l.store) := by
  have start : Each (fun i => l.Passes full (0 + i)) before := by simpa only [Nat.zero_add]
  obtain ⟨value', run⟩ := forEach_append start l.initial (.empty key)
  have whole := run []
  rw [List.append_nil] at whole
  rw [loadLines, whole]
  exact ⟨rfl, yielded_stored l before⟩

/-- It ends at the first line that does not pass, with what the lines before it gave. -/
theorem loadLines_stopped (passes : Each (l.Passes full) before)
    (fails : ¬ l.Passes full before.length line) (after : List StdString) :
    ∃ e, (l.loadLines full (before ++ line :: after)).2 = .error e ∧
      (e = .undefined ↔ line = []) ∧
      (l.loadLines full (before ++ line :: after)).1.FirstOfEach
        ((l.yielded l.initial before).map l.store) := by
  have start : Each (fun i => l.Passes full (0 + i)) before := by simpa only [Nat.zero_add]
  obtain ⟨value', run⟩ := forEach_append start l.initial (.empty key)
  obtain ⟨e, stopped, which⟩ := forEach_stopped fails after value'
    (OrderedUnique.insertAll (.empty key) ((l.yielded l.initial before).map l.store))
  rw [loadLines, run, Nat.zero_add, stopped]
  exact ⟨e, rfl, which, yielded_stored l before⟩

/-- A load that throws leaves the cache as it was. -/
def Keeps (cache : OrderedUnique key) (outcome : OrderedUnique key × Except LoadFault Unit) :
    Prop :=
  ∀ e, outcome.2 = .error (.thrown e) → outcome.1 = cache

variable (l) in
/-- A load comes to the line behind these and throws there. -/
structure ThrowsAt (full : Nat → Bool) (before : List StdString) (line : StdString) : Prop where
  passed : Each (l.Passes full) before
  notBlank : line ≠ []
  fails : ¬ l.Passes full before.length line

variable (l) in
/-- Where a load throws, the cache had what the lines before give. -/
def AlreadyThere (full : Nat → Bool) (file : Option StdString) (cache : OrderedUnique key) :
    Prop :=
  ∀ text ∈ file, ∀ before line after, getlines text = before ++ line :: after →
    l.ThrowsAt full before line →
      cache.FirstOfEach ((l.yielded l.initial before).map l.store)

theorem keeps_iff (source : StdString) (full : Nat → Bool) (file : Option StdString)
    (cache : OrderedUnique key) :
    Keeps cache (l.load source full file cache) ↔ l.AlreadyThere full file cache := by
  constructor
  · intro keeps text opened before line after lines throws
    subst opened
    obtain ⟨e, failed, which, stored⟩ := loadLines_stopped throws.passed throws.fails after
    have run : l.load source full (some text) cache =
        l.loadLines full (before ++ line :: after) := by rw [load, lines]
    cases e with
    | undefined => exact absurd (which.mp rfl) throws.notBlank
    | thrown e =>
        rw [run] at keeps
        exact keeps e failed ▸ stored
  · intro already e failed
    cases file with
    | none => rfl
    | some text =>
        change (l.loadLines full (getlines text)).2 = _ at failed
        change (l.loadLines full (getlines text)).1 = _
        rcases each_or_first (l.Passes full) (getlines text) with
          passes | ⟨before, line, after, lines, passed, fails⟩
        · rw [(loadLines_passed passes).1] at failed
          cases failed
        · obtain ⟨e', stopped, which, stored⟩ := loadLines_stopped passed fails after
          rw [lines] at failed ⊢
          have same := stopped.symm.trans failed
          cases same
          have notBlank : line ≠ [] := fun blank => by simpa using which.mpr blank
          exact stored.unique (already text rfl before line after lines ⟨passed, notBlank, fails⟩)

end Loader

section Caches

variable (lc : LexicalCast)

/-- The columns of an ad, and all that follows the sixth tab. -/
def Ad.convert (fields : List StringView) : Except Thrown Ad := do
  let adId ← number lc.uint64 fields 0
  let campaignId ← number lc.uint64 fields 1
  let width ← number lc.uint16 fields 2
  let height ← number lc.uint16 fields 3
  let position ← number lc.uint16 fields 4
  let maxBidMicros ← number lc.uint64 fields 5
  let code ← field fields 6
  pure { adId, campaignId := campaignId.toUInt32, width, height, position, maxBidMicros
         code := code.cString }

/-- It asks for six fields. -/
def AdDataEntity.loader : Loader Ad AdEntity.campaignSize where
  initial := {}
  checked := 6
  convert := Ad.convert lc
  store := AdEntity.store

/-- `AdDataEntity::load` of a source. -/
def AdDataEntity.loadFile (source : StdString) (full : Nat → Bool) (file : Option StdString)
    (cache : AdDataEntity) : AdDataEntity × Except LoadFault Unit :=
  (AdDataEntity.loader lc).load source full file cache

def GeoCampaign.convert (fields : List StringView) : Except Thrown GeoCampaign := do
  let geoId ← number lc.uint32 fields 0
  let campaignId ← number lc.uint32 fields 1
  pure { geoId, campaignId }

/-- Elements are stored as they are. -/
def GeoCampaignEntity.loader : Loader GeoCampaign GeoCampaign.key where
  initial := {}
  checked := 2
  convert := GeoCampaign.convert lc
  store := id

/-- `GeoCampaignEntity::load` of a source. -/
def GeoCampaignEntity.loadFile (source : StdString) (full : Nat → Bool) (file : Option StdString)
    (cache : GeoCampaignEntity) : GeoCampaignEntity × Except LoadFault Unit :=
  (GeoCampaignEntity.loader lc).load source full file cache

end Caches

end VanillaRtb.Matchers

namespace VanillaRtb.Campaign

open Lib Matchers

variable (lc : LexicalCast)

/-- `static_cast<MetricType>`, whose values are bytes. -/
def metricType (n : UInt32) : MetricType :=
  match n.toUInt8 with
  | 1 => .cpm
  | 2 => .cpc
  | 3 => .cpa
  | _ => .undefined

def CampaignBudget.convert (fields : List StringView) : Except Thrown CampaignBudget := do
  let campaignId ← number lc.uint32 fields 0
  let dayBudgetLimit ← number lc.uint64 fields 1
  let dayBudgetSpent ← number lc.uint64 fields 2
  let type ← number lc.uint32 fields 3
  let value ← number lc.uint64 fields 4
  pure { campaignId, dayBudgetLimit, dayBudgetSpent, dayBudgetOverdraft := 0
         metric := ⟨metricType type, value⟩ }

def CampaignCache.loader : Loader CampaignBudget CampaignEntity.id where
  initial := {}
  checked := 5
  convert := CampaignBudget.convert lc
  store budget := { campaignId := budget.campaignId, data := budget }

/-- `CampaignCache::load` of a source. -/
def CampaignCache.loadFile (source : StdString) (full : Nat → Bool) (file : Option StdString)
    (cache : CampaignCache) : CampaignCache × Except LoadFault Unit :=
  (CampaignCache.loader lc).load source full file cache

end VanillaRtb.Campaign

namespace VanillaRtb.Matchers

open Campaign Lib

section Caches

variable (lc : LexicalCast)

/-- A load that throws behind the open file leaves what was stored before it threw, which is
    what was in the cache only if it had just that. -/
theorem loads_keep_iff (source : StdString) (full : Nat → Bool) (file : Option StdString)
    (ads : AdDataEntity) (geoCampaigns : GeoCampaignEntity) (campaigns : CampaignCache) :
    (Loader.Keeps ads (AdDataEntity.loadFile lc source full file ads) ↔
      (AdDataEntity.loader lc).AlreadyThere full file ads) ∧
    (Loader.Keeps geoCampaigns (GeoCampaignEntity.loadFile lc source full file geoCampaigns) ↔
      (GeoCampaignEntity.loader lc).AlreadyThere full file geoCampaigns) ∧
    (Loader.Keeps campaigns (CampaignCache.loadFile lc source full file campaigns) ↔
      (CampaignCache.loader lc).AlreadyThere full file campaigns) :=
  ⟨Loader.keeps_iff source full file ads, Loader.keeps_iff source full file geoCampaigns,
    Loader.keeps_iff source full file campaigns⟩

/-- A cache of one campaign for location 1. -/
def oneGeoCampaign : GeoCampaignEntity :=
  ⟨[{ geoId := 1, campaignId := 1 }], List.pairwise_singleton _ _⟩

/-- A field that is not a number, and the cache is empty. -/
theorem malformed_line_empties : ¬ ∀ (file : Option StdString) (geoCampaigns : GeoCampaignEntity),
    Loader.Keeps geoCampaigns
      (GeoCampaignEntity.loadFile .classic [] (fun _ => false) file geoCampaigns) := by
  intro always
  have kept := always (some (ascii "x\t1\n")) oneGeoCampaign .badLexicalCast
    (by decide +kernel)
  have entries := congrArg OrderedUnique.entries kept
  exact absurd entries (by decide +kernel)

end Caches

end VanillaRtb.Matchers
