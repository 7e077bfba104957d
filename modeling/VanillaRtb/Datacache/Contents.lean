import VanillaRtb.Datacache.Growth
import VanillaRtb.Lib.Table

/-! # What a cache holds

The calls that only read, erase or empty the container, and the contents of a campaign
cache as a table from campaign ids to records. Each call on the cache is one operation on
the table.
-/

namespace VanillaRtb.Datacache

open Lib

namespace EntityCache

variable {K D φ Tag : Type} [LinearOrder φ] {part : Tag → K → List φ}

/-- `retrieve` into a vector: what is copied while the lock is held. -/
def retrieve (c : EntityCache D part) (tag : Tag) (fields : List φ) : Except Fault (List D) := do
  let _ ← deref c
  pure ((rangeOf (fun a => (part tag (Entity.key a)).take fields.length) fields
    (c.container.view tag)).map Entity.data)

def remove (c : EntityCache D part) (tag : Tag) (fields : List φ) :
    Except Fault (EntityCache D part) := do
  let _ ← deref c
  pure { c with container := c.container.eraseRange tag fields }

def clear (c : EntityCache D part) : Except Fault (EntityCache D part) := do
  let _ ← deref c
  pure { c with container := MultiIndex.empty }

end EntityCache

section Lookup

variable {K D : Type} [DecidableEq K] {xs ys : List (Entity K D)} {k old : K} {d : D}
  {item : Entity K D}

/-- The data under a key. -/
def lookup (xs : List (Entity K D)) : Table K D :=
  fun k => (xs.find? fun e => e.key = k).map Entity.data

theorem lookup_eq_some (unique : UniqueBy Entity.key xs) :
    lookup xs k = some d ↔ ⟨k, d⟩ ∈ xs := by
  induction xs with
  | nil => simp [lookup]
  | cons x xs ih =>
      obtain ⟨fresh, rest⟩ := List.nodup_cons.mp unique
      by_cases here : x.key = k
      · have found : lookup (x :: xs) k = some x.data := by
          rw [lookup, List.find?_cons_of_pos (by simpa using here)]
          rfl
        have later : ⟨k, d⟩ ∉ xs := by
          intro inside
          exact fresh (here ▸ List.mem_map_of_mem (f := Entity.key) inside)
        rw [found, List.mem_cons, or_iff_left later, ← here]
        cases x
        simp [eq_comm]
      · have passed : lookup (x :: xs) k = lookup xs k := by
          rw [lookup, List.find?_cons_of_neg (by simpa using here)]
          rfl
        rw [passed, ih rest, List.mem_cons]
        refine (or_iff_right ?_).symm
        rintro rfl
        exact here rfl

/-- The order of the elements does not matter. -/
theorem lookup_perm (unique : UniqueBy Entity.key xs) (same : xs.Perm ys) :
    lookup xs = lookup ys := by
  funext k
  have unique' : UniqueBy Entity.key ys := (same.map Entity.key).nodup_iff.mp unique
  apply Option.ext
  intro d
  rw [lookup_eq_some unique, lookup_eq_some unique', same.mem_iff]

theorem lookup_isSome : (lookup xs k).isSome ↔ k ∈ xs.map Entity.key := by
  simp only [lookup, Option.isSome_map, List.find?_isSome, decide_eq_true_eq, List.mem_map]

theorem lookup_cons (item : Entity K D) (xs : List (Entity K D)) :
    lookup (item :: xs) = Function.update (lookup xs) item.key (some item.data) := by
  funext k
  by_cases here : k = item.key
  · rw [here, Function.update_self, lookup, List.find?_cons_of_pos (by simp)]
    rfl
  · rw [Function.update_of_ne here, lookup,
      List.find?_cons_of_neg (by simpa using Ne.symm here)]
    rfl

theorem lookup_filter (xs : List (Entity K D)) (old : K) :
    lookup (xs.filter fun e => e.key ≠ old) = (lookup xs).drop old := by
  funext k
  rw [Table.drop]
  by_cases same : k = old
  · rw [same, Function.update_self, lookup, Option.map_eq_none_iff, List.find?_eq_none]
    intro e inside
    simpa using (List.mem_filter.mp inside).2
  · rw [Function.update_of_ne same, lookup, lookup, List.find?_filter]
    congr 2
    funext e
    by_cases here : e.key = k
    · simp [here, same]
    · simp [here]

theorem lookup_add (absent : item.key ∉ xs.map Entity.key) :
    lookup (item :: xs) = (lookup xs).add item.key item.data := by
  rw [lookup_cons, Table.add, if_neg (mt lookup_isSome.mp absent)]

end Lookup

namespace CampaignCache

variable {D : Type} {c : CampaignCache D} {index : Nat} {budget : D} {campaignId old new : UInt32}

/-- The records of the cache by the campaign ids they are stored under. -/
def table (c : CampaignCache D) : Table UInt32 D := lookup c.container.entries

/-- A cache that has the segment mapped, and what it holds. -/
structure Holds (c : CampaignCache D) (t : Table UInt32 D) : Prop where
  mapped : c.segment.isSome = true
  named : c.memory ≠ .heap
  contents : c.table = t

def retrieve (c : CampaignCache D) (campaignId : UInt32) : Except Fault (List D) :=
  EntityCache.retrieve c () [campaignId.toNat]

def insert (c : CampaignCache D) (budget : D) (campaignId : UInt32) (fails : Bool) :
    Except Fault (CampaignCache D × Bool) :=
  EntityCache.insert c { key := campaignId, data := budget } fails

/-- The record has no part that is allocated, so storing it does not run out of memory. -/
def updateSame (c : CampaignCache D) (budget : D) (campaignId : UInt32) :
    Except Fault (CampaignCache D × Bool) :=
  c.update budget campaignId campaignId fun _ => false

def remove (c : CampaignCache D) (campaignId : UInt32) : Except Fault (CampaignCache D) :=
  EntityCache.remove c () [campaignId.toNat]

theorem part_eq_iff : (campaignPart () new).take [old.toNat].length = [old.toNat] ↔ new = old := by
  simp only [campaignPart, List.length_cons, List.length_nil, List.take_succ_cons, List.take_zero,
    List.cons.injEq, and_true, UInt32.toNat_inj]

theorem others_eq (container : MultiIndex (Entity.key : Entity UInt32 D → UInt32) campaignPart)
    (old : UInt32) : container.others () [old.toNat] =
      container.entries.filter fun e => e.key ≠ old := by
  simp only [MultiIndex.others, MultiIndex.entries, ne_eq, part_eq_iff]

theorem matching_eq (container : MultiIndex (Entity.key : Entity UInt32 D → UInt32) campaignPart)
    (old : UInt32) : container.matching () [old.toNat] =
      container.entries.filter fun e => e.key = old := by
  simp only [MultiIndex.matching, MultiIndex.entries, part_eq_iff]

section Calls

variable {t : Table UInt32 D}

/-- A campaign is found under its key or not at all. -/
theorem retrieve_holds (holds : Holds c t) (campaignId : UInt32) :
    c.retrieve campaignId = .ok (t campaignId).toList := by
  obtain ⟨index, live⟩ := Option.isSome_iff_exists.mp holds.mapped
  rw [retrieve, EntityCache.retrieve, EntityCache.deref_live live, ← MultiIndex.matching_eq_rangeOf,
    matching_eq, ← holds.contents, table]
  have unique : UniqueBy Entity.key c.container.entries := c.container.unique ()
  change Except.ok ((c.container.entries.filter fun e => e.key = campaignId).map Entity.data) = _
  congr 1
  cases found : lookup c.container.entries campaignId with
  | none =>
      have absent := mt lookup_isSome.mpr (by rw [found]; exact Bool.false_ne_true)
      have none : c.container.entries.filter (fun e => e.key = campaignId) = [] := by
        apply List.filter_eq_nil_iff.mpr
        intro e inside same
        exact absent (of_decide_eq_true same ▸ List.mem_map_of_mem inside)
      rw [none]
      rfl
  | some d =>
      have inside := (lookup_eq_some unique).mp found
      obtain ⟨before, after, split⟩ := List.append_of_mem inside
      have rest : ∀ e ∈ before ++ after, e.key ≠ campaignId := by
        apply UniqueBy.append_cons (x := (⟨campaignId, d⟩ : Entity UInt32 D))
        rw [← split]
        exact unique
      have one : c.container.entries.filter (fun e => e.key = campaignId) =
          [⟨campaignId, d⟩] := by
        have gone : ∀ xs : List (Entity UInt32 D), (∀ e ∈ xs, e.key ≠ campaignId) →
            xs.filter (fun e => e.key = campaignId) = [] := by
          intro xs others
          exact List.filter_eq_nil_iff.mpr (by simpa using others)
        rw [split, List.filter_append, List.filter_cons_of_pos (by simp),
          gone before fun e he => rest e (List.mem_append_left _ he),
          gone after fun e he => rest e (List.mem_append_right _ he)]
        rfl
      rw [one]
      rfl

theorem update_holds (holds : Holds c t) (budget : D) (old new : UInt32) :
    ∃ d success, c.update budget old new (fun _ => false) = .ok (d, success) ∧
      Holds d (t.rekey old new budget) := by
  obtain ⟨index, live⟩ := Option.isSome_iff_exists.mp holds.mapped
  obtain ⟨container, success, run, replaced⟩ :=
    EntityCache.update_spec live () { key := new, data := budget } [old.toNat]
  refine ⟨{ c with container }, success, run, holds.mapped, holds.named, ?_⟩
  rw [others_eq, matching_eq] at replaced
  have found := lookup_filter c.container.entries old
  change lookup (container.view ()) = _
  have unique := container.unique ()
  rw [← holds.contents, table, Table.rekey]
  cases replaced with
  | untouched none same =>
      -- nothing is stored under the old id
      have absent : ¬ (lookup c.container.entries old).isSome := by
        rw [lookup_isSome, List.mem_map]
        rintro ⟨e, inside, same⟩
        have there : e ∈ c.container.entries.filter fun e => e.key = old :=
          List.mem_filter.mpr ⟨inside, decide_eq_true same⟩
        rw [none] at there
        cases there
      rw [if_neg absent, lookup_perm unique same, found, Table.drop]
      apply Function.update_eq_self_iff.mpr
      rw [Option.not_isSome_iff_eq_none.mp absent]
  | erased taken same =>
      have there := lookup_isSome.mpr taken
      rw [found] at there
      rw [lookup_perm unique same, found]
      split
      · rw [Table.add, if_pos there]
      · rename_i absent
        rw [Table.drop]
        apply Function.update_eq_self_iff.mpr
        rw [Option.not_isSome_iff_eq_none.mp absent]
  | collapsed some free one =>
      obtain ⟨e, inside⟩ := List.exists_mem_of_ne_nil _ some
      obtain ⟨there, same⟩ := List.mem_filter.mp inside
      have present : (lookup c.container.entries old).isSome :=
        lookup_isSome.mpr (of_decide_eq_true same ▸ List.mem_map_of_mem there)
      rw [if_pos present, lookup_perm unique one, lookup_add free, found]

theorem updateSame_holds (holds : Holds c t) (budget : D) (campaignId : UInt32) :
    ∃ d success, c.updateSame budget campaignId = .ok (d, success) ∧
      Holds d (t.replace campaignId budget) := by
  rw [Table.replace_eq_rekey]
  exact update_holds holds budget campaignId campaignId

theorem insert_holds (holds : Holds c t) (budget : D) (campaignId : UInt32) (fails : Bool) :
    ∃ d success, c.insert budget campaignId fails = .ok (d, success) ∧
      Holds d (t.add campaignId budget) := by
  rcases insert_eq holds.mapped { key := campaignId, data := budget } fails with
    ⟨-, heap, -⟩ | ⟨-, d, memory, mapped, outcome⟩
  · exact absurd heap holds.named
  · let e : Entity UInt32 D := { key := campaignId, data := budget }
    refine ⟨_, _, outcome, mapped, fun heap => holds.named (memory.symm.trans heap), ?_⟩
    change lookup (c.container.insert e).1.entries = _
    rw [← holds.contents, table]
    by_cases taken : c.container.hasKey e.key
    · rw [MultiIndex.insert_taken taken, Table.add, if_pos (lookup_isSome.mpr taken)]
    · have unique : UniqueBy Entity.key (c.container.insert e).1.entries := MultiIndex.unique _ ()
      rw [lookup_perm unique (MultiIndex.insert_entries taken), lookup_add taken]

theorem remove_holds (holds : Holds c t) (campaignId : UInt32) :
    ∃ d, c.remove campaignId = .ok d ∧ Holds d (t.drop campaignId) := by
  obtain ⟨index, live⟩ := Option.isSome_iff_exists.mp holds.mapped
  refine ⟨{ c with container := c.container.eraseRange () [campaignId.toNat] }, ?_, holds.mapped,
    holds.named, ?_⟩
  · rw [remove, EntityCache.remove, EntityCache.deref_live live]
    rfl
  · have kept := lookup_filter c.container.entries campaignId
    rw [← others_eq] at kept
    rw [← holds.contents]
    exact kept

theorem clear_holds (holds : Holds c t) :
    ∃ d, EntityCache.clear c = .ok d ∧ Holds d Table.empty := by
  obtain ⟨index, live⟩ := Option.isSome_iff_exists.mp holds.mapped
  refine ⟨{ c with container := MultiIndex.empty }, ?_, holds.mapped, holds.named, rfl⟩
  rw [EntityCache.clear, EntityCache.deref_live live]
  rfl

end Calls

end CampaignCache

end VanillaRtb.Datacache
