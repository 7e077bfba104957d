import VanillaRtb.Datacache.Updates
import VanillaRtb.Matchers.Ad

/-! # Retrieving into what the caller has

A lookup of one entry overwrites an object of the caller's, a lookup of a collection appends
a copy of each element in range to a vector of the caller's. Both say whether anything was
found, but the collection says so by looking at the vector, which may have had entries
before. A vector of pointers is written as the list of what they point to: each object is
made for its entry and nothing else points to it.
-/

namespace VanillaRtb.Datacache

open Lib

section Walk

variable {α κ S : Type} [DecidableEq κ] {key : α → κ} {before behind xs : List α}
  {entries : List S}

/-- The elements from an iterator to the end of its index. -/
def startingAt (key : α → κ) (first : Option κ) (view : List α) : List α :=
  view.dropWhile fun a => some (key a) ≠ first

/-- `std::transform` of the elements up to an iterator, into a `std::back_inserter`. -/
def transform (key : α → κ) (copy : α → S) (last : Option κ) : List α → List S → List S
  | [], entries => entries
  | a :: as, entries =>
      if some (key a) = last then entries
      else transform key copy last as (entries ++ [copy a])

theorem startingAt_eq (unique : UniqueBy key (before ++ behind)) :
    startingAt key (MultiIndex.iteratorTo key behind) (before ++ behind) = behind := by
  have passed : ∀ a ∈ before, some (key a) ≠ MultiIndex.iteratorTo key behind := by
    intro a ha same
    cases behind with
    | nil => cases same
    | cons b behind =>
        have apart := unique.append_cons a (List.mem_append_left _ ha)
        exact apart (Option.some.inj same)
  rw [startingAt, List.dropWhile_append_of_pos (by simpa using passed)]
  cases behind with
  | nil => rfl
  | cons b behind => exact List.dropWhile_cons_of_neg (by simp [MultiIndex.iteratorTo])

theorem transform_eq (copy : α → S) (unique : UniqueBy key (xs ++ behind)) :
    transform key copy (MultiIndex.iteratorTo key behind) (xs ++ behind) entries =
      entries ++ xs.map copy := by
  induction xs generalizing entries with
  | nil =>
      rw [List.map_nil, List.append_nil]
      cases behind with
      | nil => rfl
      | cons b behind => exact if_pos rfl
  | cons x xs ih =>
      have more : some (key x) ≠ MultiIndex.iteratorTo key behind := by
        intro same
        cases behind with
        | nil => cases same
        | cons b behind =>
            have apart := (show UniqueBy key ((x :: xs) ++ b :: behind) from unique).append_cons x
              (List.mem_append_left _ List.mem_cons_self)
            exact apart (Option.some.inj same)
      rw [List.cons_append, transform, if_neg more, ih (List.nodup_cons.mp unique).2,
        List.append_assoc, List.map_cons, List.singleton_append]

end Walk

variable {K D φ Tag S : Type} [LinearOrder φ] [DecidableEq K] {part : Tag → K → List φ}

section Retriever

variable (container : MultiIndex (Entity.key : Entity K D → K) part) (tag : Tag)
  (read : Entity K D → S → S) (fields : List φ)

/-- `find` in an ordered index: the lower bound, unless it is beyond the fields. -/
def find : Option (Entity K D) :=
  let rank := fun a : Entity K D => (part tag a.key).take fields.length
  (fromLower rank fields (container.view tag)).head?.filter fun a => rank a ≤ fields

/-- `retriever` of one entry; `read` is what `retrieve` of an element makes of the object it is
    given. -/
def retriever (entry : S) : Bool × S :=
  match find container tag fields with
  | some p => (true, read p entry)
  | none => (false, entry)

variable [Inhabited S]

/-- What is pushed back for an element. -/
def made (data : Entity K D) : S := read data default

/-- `retriever` of a vector. -/
def collectionRetriever (entries : List S) : Bool × List S :=
  let (first, last) := container.equalRange tag fields
  let entries := transform Entity.key (made read) last
    (startingAt Entity.key first (container.view tag)) entries
  (!entries.isEmpty, entries)

/-- `retrieve` of the whole container, by its first index. -/
def wholeRetriever [Inhabited Tag] (entries : List S) : Bool × List S :=
  let first := MultiIndex.iteratorTo Entity.key (container.view default)
  let entries := transform Entity.key (made read) none
    (startingAt Entity.key first (container.view default)) entries
  (!entries.isEmpty, entries)

end Retriever

namespace EntityCache

variable (c : EntityCache D part) (read : Entity K D → S → S) (tag : Tag) (fields : List φ)

/-- `retrieve<Tag>` into an entry. -/
def retrieveEntry (entry : S) : Except Fault (Bool × S) := do
  let _ ← deref c
  pure (retriever c.container tag read fields entry)

variable [Inhabited S]

/-- `retrieve<Tag>` into a vector. -/
def retrieveCollection (entries : List S) : Except Fault (Bool × List S) := do
  let _ ← deref c
  pure (collectionRetriever c.container tag read fields entries)

/-- `retrieve` into a vector, without a key. -/
def retrieveWhole [Inhabited Tag] (entries : List S) : Except Fault (Bool × List S) := do
  let _ ← deref c
  pure (wholeRetriever c.container read entries)

end EntityCache

/-- Whether an element agrees with the fields. -/
def Matched (container : MultiIndex (Entity.key : Entity K D → K) part) (tag : Tag)
    (fields : List φ) : Prop :=
  ∃ a ∈ container.view tag, (part tag a.key).take fields.length = fields

/-- The entries that were there and the new ones behind them, and whether there are new ones. -/
structure Appends (new entries : List S) (answer : Bool × List S) : Prop where
  contents : answer.2 = entries ++ new
  found : answer.1 = true ↔ new ≠ []

section Answers

variable {container : MultiIndex (Entity.key : Entity K D → K) part} {tag : Tag}
  {read : Entity K D → S → S} {fields : List φ} {entries new : List S}

omit [DecidableEq K] in
theorem matching_ne_nil : container.matching tag fields ≠ [] ↔ Matched container tag fields := by
  constructor
  · intro some_
    obtain ⟨a, inside⟩ := List.exists_mem_of_ne_nil _ some_
    rw [MultiIndex.matching, List.mem_filter, decide_eq_true_eq] at inside
    exact ⟨a, inside⟩
  · rintro ⟨a, inside, same⟩ none_
    have here : a ∈ container.matching tag fields :=
      List.mem_filter.mpr ⟨inside, decide_eq_true same⟩
    rw [none_] at here
    cases here

omit [DecidableEq K] in
theorem find_isSome : (find container tag fields).isSome = true ↔ Matched container tag fields := by
  let rank := fun a : Entity K D => (part tag a.key).take fields.length
  have lower : fromLower rank fields (container.view tag) =
      container.matching tag fields ++ fromUpper rank fields (container.view tag) := by
    rw [fromLower_eq, MultiIndex.matching_eq_rangeOf]
  have found : find container tag fields =
      (fromLower rank fields (container.view tag)).head?.filter fun a => rank a ≤ fields := rfl
  rw [← matching_ne_nil, found, lower]
  cases range : container.matching tag fields with
  | nil =>
      -- what is behind the range is beyond the fields
      have beyond : (fromUpper rank fields (container.view tag)).head?.filter
          (fun a => rank a ≤ fields) = none := by
        rw [Option.filter_eq_none_iff]
        intro a first
        have above := List.head?_dropWhile_not (fun a => decide (rank a ≤ fields))
          (container.view tag)
        rw [fromUpper] at first
        rw [first] at above
        simpa using above
      rw [List.nil_append, beyond]
      simp
  | cons a as =>
      have inside : a ∈ container.matching tag fields := range ▸ List.mem_cons_self
      rw [MultiIndex.matching, List.mem_filter, decide_eq_true_eq] at inside
      have here : rank a ≤ fields := le_of_eq inside.2
      rw [List.cons_append, List.head?_cons,
        Option.filter_some_pos (p := fun a => decide (rank a ≤ fields)) (decide_eq_true here)]
      simp

omit [DecidableEq K] in
theorem retriever_found (entry : S) :
    (retriever container tag read fields entry).1 = true ↔ Matched container tag fields := by
  rw [← find_isSome, retriever]
  cases find container tag fields <;> simp

variable [Inhabited S]

theorem collectionRetriever_eq :
    collectionRetriever container tag read fields entries =
      (!(entries ++ (container.matching tag fields).map (made read)).isEmpty,
        entries ++ (container.matching tag fields).map (made read)) := by
  obtain ⟨before, behind, view, range⟩ := container.equalRange_split tag fields
  have unique := container.unique tag
  rw [view] at unique
  have walked : UniqueBy Entity.key (container.matching tag fields ++ behind) :=
    unique.sublist ((List.sublist_append_right _ _).map Entity.key)
  simp only [collectionRetriever, range]
  rw [view, startingAt_eq unique, transform_eq (made read) walked]

theorem wholeRetriever_eq [Inhabited Tag] :
    wholeRetriever container read entries =
      (!(entries ++ container.entries.map (made read)).isEmpty,
        entries ++ container.entries.map (made read)) := by
  have start : startingAt Entity.key (MultiIndex.iteratorTo Entity.key (container.view default))
      ([] ++ container.view default) = container.view default :=
    startingAt_eq (container.unique default)
  have walked : UniqueBy Entity.key (container.view default ++ []) := by
    rw [List.append_nil]
    exact container.unique default
  have copied : transform Entity.key (made read) none (container.view default ++ []) entries =
      entries ++ (container.view default).map (made read) := transform_eq (made read) walked
  rw [List.nil_append] at start
  rw [List.append_nil] at copied
  simp only [wholeRetriever, start, copied, MultiIndex.entries]

omit [Inhabited S] in
/-- Looking at the vector is right if it was empty or is longer now. -/
theorem appends_iff : Appends new entries (!(entries ++ new).isEmpty, entries ++ new) ↔
    entries = [] ∨ new ≠ [] := by
  have flag : (!(entries ++ new).isEmpty) = true ↔ entries ++ new ≠ [] := by simp
  constructor
  · intro appends
    have found := appends.found
    rw [flag] at found
    by_contra neither
    obtain ⟨some_, none_⟩ := not_or.mp neither
    exact none_ (found.mp (List.append_ne_nil_of_left_ne_nil some_ new))
  · rintro (none_ | some_)
    · subst none_
      exact ⟨rfl, flag⟩
    · exact ⟨rfl, flag.trans (iff_of_true (List.append_ne_nil_of_right_ne_nil entries some_) some_)⟩

end Answers

section Calls

variable [Inhabited S] [Inhabited Tag] {c : EntityCache D part} {index : Nat}

/-- The call returns, with an answer to the entries that it appends. -/
def LookupAppends (new entries : List S) (call : Except Fault (Bool × List S)) : Prop :=
  ∃ answer, call = .ok answer ∧ Appends new entries answer

omit [DecidableEq K] [Inhabited S] [Inhabited Tag] [LinearOrder φ] in
theorem lookupAppends_iff {new entries : List S} :
    LookupAppends new entries (.ok (!(entries ++ new).isEmpty, entries ++ new)) ↔
      entries = [] ∨ new ≠ [] := by
  rw [← appends_iff]
  constructor
  · rintro ⟨answer, same, appends⟩
    cases same
    exact appends
  · intro appends
    exact ⟨_, rfl, appends⟩

/-- The ads say what they found in the range, whatever the caller has already. -/
theorem ads_append (cache : Matchers.AdDataEntity) (ads : List Matchers.Ad) (campaignId : UInt32)
    (w h : UInt16) : Appends (cache.matching campaignId w h) ads
      (cache.retrieve ads campaignId w h) :=
  ⟨rfl, by simp [Matchers.AdDataEntity.retrieve]⟩

/-- A collection has the copies of the matching elements appended in the order of the index.
    The answer is that there are some exactly if there are or nothing was there before, while
    the lookup of one entry and that of ads answer by what they found. -/
theorem collections_answer_iff (live : c.segment = some index) (read : Entity K D → S → S)
    (tag : Tag) (fields : List φ) (entry : S) (entries : List S) :
    ((∃ found, c.retrieveCollection read tag fields entries =
          .ok (found, entries ++ (c.container.matching tag fields).map (made read))) ∧
      (∃ found, c.retrieveWhole read entries =
          .ok (found, entries ++ c.container.entries.map (made read)))) ∧
    (LookupAppends ((c.container.matching tag fields).map (made read)) entries
        (c.retrieveCollection read tag fields entries) ↔
      entries = [] ∨ Matched c.container tag fields) ∧
    (LookupAppends (c.container.entries.map (made read)) entries (c.retrieveWhole read entries) ↔
      entries = [] ∨ c.container.entries ≠ []) ∧
    (∃ found entry', c.retrieveEntry read tag fields entry = .ok (found, entry') ∧
      (found = true ↔ Matched c.container tag fields)) ∧
    ∀ (cache : Matchers.AdDataEntity) (ads : List Matchers.Ad) (campaignId : UInt32)
      (w h : UInt16), Appends (cache.matching campaignId w h) ads
        (cache.retrieve ads campaignId w h) := by
  have collection : c.retrieveCollection read tag fields entries =
      .ok (collectionRetriever c.container tag read fields entries) := by
    rw [EntityCache.retrieveCollection, EntityCache.deref_live live]
    rfl
  have whole : c.retrieveWhole read entries = .ok (wholeRetriever c.container read entries) := by
    rw [EntityCache.retrieveWhole, EntityCache.deref_live live]
    rfl
  have single : c.retrieveEntry read tag fields entry =
      .ok (retriever c.container tag read fields entry) := by
    rw [EntityCache.retrieveEntry, EntityCache.deref_live live]
    rfl
  rw [collectionRetriever_eq] at collection
  rw [wholeRetriever_eq] at whole
  refine ⟨⟨⟨_, collection⟩, ⟨_, whole⟩⟩, ?_, ?_, ⟨_, _, single, retriever_found entry⟩, ads_append⟩
  · rw [collection, lookupAppends_iff, Ne, List.map_eq_nil_iff, ← Ne, matching_ne_nil]
  · rw [whole, lookupAppends_iff, Ne, List.map_eq_nil_iff]

end Calls

/-- Campaigns 1 and 2, each copied as its id. -/
def campaignIds (e : Entity UInt32 Unit) (_ : UInt32) : UInt32 := e.key

theorem collections_answer_twoCampaigns :
    LookupAppends [2] [] ((EntityCache.entityCache .shared twoCampaigns).retrieveCollection
      campaignIds () [2] []) :=
  (collections_answer_iff rfl campaignIds () [2] 0 []).2.1.mpr (.inl rfl)

/-- A campaign that is not there is found in a vector that has one already. -/
theorem earlier_entries_found : ¬ ∀ entries : List UInt32,
    LookupAppends ((twoCampaigns.matching () [3]).map (made campaignIds)) entries
      ((EntityCache.entityCache .shared twoCampaigns).retrieveCollection campaignIds () [3]
        entries) := by
  intro always
  obtain ⟨answer, call, appends⟩ := always [1]
  rw [EntityCache.retrieveCollection, EntityCache.deref_live rfl] at call
  change Except.ok (collectionRetriever twoCampaigns () campaignIds [3] [1]) = _ at call
  rw [collectionRetriever_eq] at call
  cases call
  exact appends.found.mp rfl (by decide)

end VanillaRtb.Datacache
