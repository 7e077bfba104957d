import VanillaRtb.Datacache.EntityCache

/-! # What an update keeps

An update writes one key into every element of its range. The unique index lets one of
them have it, or none when an element out of range has it already; the others are erased.
-/

namespace VanillaRtb.Datacache

open Lib

section Containers

/-! The containers with a unique key, and what their tags read off it. -/

structure AdKey where
  campaignId : UInt32
  width : UInt16
  height : UInt16
  adId : UInt64
  deriving DecidableEq

/-- `campaign_size_tag`, the only index of `ad_container`. -/
def AdKey.part (_ : Unit) (k : AdKey) : List Nat :=
  [k.campaignId.toNat, k.width.toNat, k.height.toNat, k.adId.toNat]

structure AccountKey where
  parentAccount : StdString
  childAccount : StdString
  deriving DecidableEq

/-- The indices of `account_container`. -/
inductive AccountTag where
  | parentAccount
  | childAccount
  | uniqueAccount
  deriving DecidableEq, Inhabited

/-- Strings compare byte by byte. -/
def AccountKey.part : AccountTag → AccountKey → List (List Nat)
  | .parentAccount, k => [k.parentAccount.map UInt8.toNat]
  | .childAccount, k => [k.childAccount.map UInt8.toNat]
  | .uniqueAccount, k => [k.parentAccount.map UInt8.toNat, k.childAccount.map UInt8.toNat]

/-- `campaign_id_tag`, the only index of `campaign_container`. -/
def campaignPart (_ : Unit) (campaignId : UInt32) : List Nat := [campaignId.toNat]

abbrev AdCache (D : Type) := EntityCache D AdKey.part

abbrev AccountCache (D : Type) := EntityCache D AccountKey.part

abbrev CampaignCache (D : Type) := EntityCache D campaignPart

/-- `CampaignCache::update(budget, old_campaign_id, new_campaign_id)`. -/
def CampaignCache.update (c : CampaignCache D) (budget : D) (oldCampaignId newCampaignId : UInt32)
    (fails : Nat → Bool) : Except Fault (CampaignCache D × Bool) :=
  EntityCache.update c () { key := newCampaignId, data := budget } [oldCampaignId.toNat] fails

/-- Campaigns 1 and 2. -/
def twoCampaigns : MultiIndex (Entity.key : Entity UInt32 Unit → UInt32) campaignPart :=
  ((MultiIndex.empty.insert { key := 1, data := () }).1.insert { key := 2, data := () }).1

end Containers

section Kept

variable {K D φ Tag : Type} [LinearOrder φ] [DecidableEq K] [Inhabited Tag]
  {part : Tag → K → List φ} {container : MultiIndex (Entity.key : Entity K D → K) part}
  {tag : Tag} {item : Entity K D} {fields : List φ}

/-- As many elements as before, those out of range among them, and all of them if the call
    says that nothing was modified. -/
structure Keeps (container after : MultiIndex (Entity.key : Entity K D → K) part) (tag : Tag)
    (fields : List φ) (result : Bool) : Prop where
  count : after.entries.length = container.entries.length
  outside : ∀ a ∈ container.entries, a ∉ container.matching tag fields → a ∈ after.entries
  unmodified : result = false → ∀ a, a ∈ after.entries ↔ a ∈ container.entries

def CallKeeps (container : MultiIndex (Entity.key : Entity K D → K) part) (tag : Tag)
    (fields : List φ) (call : Except Fault (EntityCache D part × Bool)) : Prop :=
  ∃ after result, call = .ok (after, result) ∧ Keeps container after.container tag fields result

/-- An update of a cache over the container that does not run out of memory. -/
def UpdateKeeps (memory : Memory) (container : MultiIndex (Entity.key : Entity K D → K) part)
    (tag : Tag) (item : Entity K D) (fields : List φ) : Prop :=
  CallKeeps container tag fields
    ((EntityCache.entityCache memory container).update tag item fields fun _ => false)

omit [DecidableEq K] in
theorem entries_perm (container : MultiIndex (Entity.key : Entity K D → K) part) (tag : Tag)
    (fields : List φ) : (container.matching tag fields ++ container.others tag fields).Perm
      container.entries := by
  have parted := List.filter_append_perm
    (fun a => decide ((part tag (Entity.key a)).take fields.length = fields)) (container.view tag)
  refine .trans ?_ (container.view_perm tag)
  simpa only [MultiIndex.matching, MultiIndex.others, decide_not] using parted

omit [DecidableEq K] in
theorem keeps_of_replaced {after : MultiIndex (Entity.key : Entity K D → K) part} {result : Bool}
    (replaced : EntityCache.Replaced item (container.others tag fields)
      (container.matching tag fields) (after.view tag) false result) :
    Keeps container after tag fields result ↔
      container.matching tag fields = [] ∨ (container.matching tag fields).length = 1 ∧
        item.key ∉ (container.others tag fields).map Entity.key := by
  have parts := entries_perm container tag fields
  have total : container.entries.length = (container.matching tag fields).length +
      (container.others tag fields).length := by
    rw [← parts.length_eq, List.length_append]
  have outside : ∀ a ∈ container.entries, a ∉ container.matching tag fields →
      a ∈ container.others tag fields := by
    intro a inside unmatched
    rcases List.mem_append.mp (parts.mem_iff.mpr inside) with matched | other
    · exact absurd matched unmatched
    · exact other
  have view := after.view_perm tag
  cases replaced with
  | untouched none same =>
      refine iff_of_true ?_ (.inl none)
      have unchanged : after.entries.Perm container.entries := by
        rw [none, List.nil_append] at parts
        exact view.symm.trans (same.trans parts)
      exact ⟨unchanged.length_eq, fun a inside _ => unchanged.mem_iff.mpr inside,
        fun _ a => unchanged.mem_iff⟩
  | erased taken same =>
      have fewer : after.entries.length = (container.others tag fields).length :=
        view.symm.length_eq.trans same.length_eq
      constructor
      · intro kept
        have none : (container.matching tag fields).length = 0 := by
          have count := kept.count
          omega
        exact .inl (List.eq_nil_of_length_eq_zero none)
      · rintro (none | ⟨-, free⟩)
        · rw [none, List.nil_append] at parts
          have unchanged := view.symm.trans (same.trans parts)
          exact ⟨unchanged.length_eq, fun a inside _ => unchanged.mem_iff.mpr inside,
            fun _ a => unchanged.mem_iff⟩
        · exact absurd taken free
  | collapsed some free one =>
      have left : after.entries.length = (container.others tag fields).length + 1 :=
        view.symm.length_eq.trans one.length_eq
      constructor
      · intro kept
        have count := kept.count
        exact .inr ⟨by omega, free⟩
      · rintro (none | ⟨single, -⟩)
        · exact absurd none some
        · refine ⟨by omega, ?_, nofun⟩
          intro a inside unmatched
          exact (view.symm.trans one).mem_iff.mpr
            (List.mem_cons_of_mem _ (outside a inside unmatched))

theorem updateKeeps_replaced (memory : Memory)
    (container : MultiIndex (Entity.key : Entity K D → K) part) (tag : Tag) (item : Entity K D)
    (fields : List φ) : ∃ after : MultiIndex (Entity.key : Entity K D → K) part, ∃ result,
      EntityCache.Replaced item (container.others tag fields) (container.matching tag fields)
        (after.view tag) false result ∧
      (UpdateKeeps memory container tag item fields ↔ Keeps container after tag fields result) := by
  obtain ⟨after, result, run, replaced⟩ := EntityCache.update_spec
    (c := EntityCache.entityCache memory container) rfl tag item fields
  refine ⟨after, result, replaced, ?_⟩
  constructor
  · rintro ⟨after', result', run', kept⟩
    rw [run] at run'
    cases run'
    exact kept
  · intro kept
    exact ⟨_, result, run, kept⟩

/-- An update keeps what it should exactly when its range is empty, or one element whose new
    key no element out of range has. -/
theorem update_keeps_iff (memory : Memory)
    (container : MultiIndex (Entity.key : Entity K D → K) part) (tag : Tag) (item : Entity K D)
    (fields : List φ) :
    UpdateKeeps memory container tag item fields ↔
      container.matching tag fields = [] ∨ (container.matching tag fields).length = 1 ∧
        item.key ∉ (container.others tag fields).map Entity.key := by
  obtain ⟨after, result, replaced, kept⟩ := updateKeeps_replaced memory container tag item fields
  rw [kept, keeps_of_replaced replaced]

/-- A campaign that is given the id of another one is gone. -/
theorem renamed_campaign_erased : ¬ CallKeeps twoCampaigns () [1]
    (CampaignCache.update (EntityCache.entityCache .shared twoCampaigns) () 1 2 fun _ => false) := by
  obtain ⟨after, result, replaced, kept⟩ :=
    updateKeeps_replaced .shared twoCampaigns () { key := 2, data := () } [1]
  rw [UpdateKeeps, keeps_of_replaced replaced] at kept
  exact mt kept.mp (by decide)

end Kept

end VanillaRtb.Datacache
