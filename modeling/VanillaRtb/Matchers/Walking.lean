import VanillaRtb.Lib.NodeIndex
import VanillaRtb.Matchers.Ad
import VanillaRtb.Matchers.Campaigns

/-! # Lookups that walk a cache without its lock

`retrieve_raw` hands out the iterators of a range and lets the lock go, and the lookups of
ads and of geo campaigns walk them afterwards. Loading empties the cache first, with every
iterator into it.
-/

namespace VanillaRtb.Matchers

open Lib

/-- What `store` makes of an ad. -/
def AdEntity.store (ad : Ad) : AdEntity where
  adId := ad.adId
  campaignId := ad.campaignId
  width := ad.width
  height := ad.height
  position := ad.position.toUInt64
  maxBidMicros := ad.maxBidMicros
  code := ad.code

/-- The tags are each of all the fields of the key. -/
def wholeKey (_ : Unit) (fields : List Nat) : List Nat := fields

namespace AdDataEntity

/-- `retrieve` of the ads of a campaign that fit a banner. -/
def call (ads : List Ad) (campaignId : UInt32) (w h : UInt16) :
    RangeCall AdEntity Nat Unit Ad where
  tag := ()
  fields := [campaignId.toNat, w.toNat, h.toNat]
  retrieve := AdEntity.retrieve
  given := ads

/-- `load`, one call on the cache after the other. -/
def load (ads : List Ad) : List (IndexWrite AdEntity Nat Unit) :=
  .clear :: ads.map fun ad => .insert (AdEntity.store ad)

end AdDataEntity

namespace GeoCampaignEntity

/-- `retrieve` of the campaigns of a location. -/
def call (geoCampaigns : List GeoCampaign) (geoId : UInt32) :
    RangeCall GeoCampaign Nat Unit GeoCampaign where
  tag := ()
  fields := [geoId.toNat]
  retrieve := id
  given := geoCampaigns

def load (geoCampaigns : List GeoCampaign) : List (IndexWrite GeoCampaign Nat Unit) :=
  .clear :: geoCampaigns.map .insert

end GeoCampaignEntity

/-- Runs of a lookup are consistent if their writers keep what is ahead of it. -/
def LookupConsistent {α R : Type} {key : α → List Nat} (index : NodeIndex key wholeKey)
    (call : RangeCall α Nat Unit R) : Prop :=
  ∀ actions u,
    Transition.Along (SharedIndex.step call) (SharedIndex.Spares call) { index } actions →
    Transition.exec (SharedIndex.step call) { index } actions = some u →
      SharedIndex.Consistent call { index } actions u

section Reloading

def someAd : Ad := { adId := 7, campaignId := 1, width := 300, height := 250 }

def someAds : NodeIndex AdEntity.campaignSize wholeKey :=
  NodeIndex.empty.insert (AdEntity.store someAd)

end Reloading

end VanillaRtb.Matchers
