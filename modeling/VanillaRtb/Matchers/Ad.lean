import VanillaRtb.Lib.OrderedIndex
import VanillaRtb.StdString

/-! # Ads and their cache

The cache keeps ads apart by campaign, size and identity. A lookup by campaign and
size appends copies of the ads in that range to a collection of the caller's, none of
them authorized yet.
-/

namespace VanillaRtb.Matchers

open Lib

structure Ad where
  adId : UInt64 := 0
  campaignId : UInt32 := 0
  width : UInt16 := 0
  height : UInt16 := 0
  position : UInt16 := 0
  maxBidMicros : UInt64 := 0
  authBidMicros : Option UInt64 := none
  code : StdString := []
  deriving DecidableEq

/-- An ad as the cache stores it. -/
structure AdEntity where
  adId : UInt64 := 0
  campaignId : UInt32 := 0
  width : UInt16 := 0
  height : UInt16 := 0
  position : UInt64 := 0
  maxBidMicros : UInt64 := 0
  code : StdString := []
  deriving DecidableEq

namespace AdEntity

/-- The fields of `campaign_size_tag`. -/
def campaignSize (a : AdEntity) : List Nat :=
  [a.campaignId.toNat, a.width.toNat, a.height.toNat, a.adId.toNat]

/-- What `retrieve` makes of a default-constructed ad. -/
def retrieve (a : AdEntity) : Ad :=
  { adId := a.adId
    campaignId := a.campaignId
    width := a.width
    height := a.height
    position := a.position.toUInt16
    maxBidMicros := a.maxBidMicros
    code := a.code }

end AdEntity

abbrev AdDataEntity := OrderedUnique AdEntity.campaignSize

namespace AdDataEntity

/-- The ads of a campaign that fit a banner, in index order. -/
def matching (cache : AdDataEntity) (campaignId : UInt32) (w h : UInt16) : List Ad :=
  (cache.equalRange [campaignId.toNat, w.toNat, h.toNat]).map AdEntity.retrieve

/-- Whether anything matches, and the collection with the matches appended. -/
def retrieve (cache : AdDataEntity) (ads : List Ad) (campaignId : UInt32) (w h : UInt16) :
    Bool × List Ad :=
  let found := cache.matching campaignId w h
  (!found.isEmpty, ads ++ found)

theorem of_matching {cache : AdDataEntity} (found : ad ∈ cache.matching campaignId w h) :
    ad.campaignId = campaignId ∧ ad.authBidMicros = none := by
  obtain ⟨a, inRange, rfl⟩ := List.mem_map.mp found
  have fields := (OrderedUnique.mem_equalRange.mp inRange).2
  simp only [AdEntity.campaignSize, List.length_cons, List.length_nil, List.take_succ_cons,
    List.take_zero, List.cons.injEq] at fields
  exact ⟨UInt32.toNat_inj.mp fields.1, rfl⟩

end AdDataEntity

end VanillaRtb.Matchers
