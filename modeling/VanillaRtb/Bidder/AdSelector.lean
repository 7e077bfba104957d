import VanillaRtb.Campaign.Cache
import VanillaRtb.Core.AdSelector
import VanillaRtb.Matchers.Campaigns
import VanillaRtb.OpenRtb

/-! # Selecting an ad from the caches

The location of a request leads to campaigns, the campaigns to ads of the banner's size,
and each ad is authorized by the budget of its own campaign before the best one is
taken. Ads are capped at what is authorized, so an ad of an exhausted campaign remains
a candidate with an authorized bid of zero.
-/

namespace VanillaRtb.Bidder

open Lib OpenRtb Matchers Campaign

structure BidderCaches where
  adDataEntity : AdDataEntity
  geoDataEntity : GeoDataEntity
  geoCampaignEntity : GeoCampaignEntity
  budgetCache : CampaignCache

/-- `AdSelector::authorize`. -/
def BidderCaches.authorize (caches : BidderCaches) (campaignId : UInt32) : UInt64 :=
  Banker.authorize caches.budgetCache campaignId

/-- An ad with its bid capped at what its campaign is authorized. -/
def cap (budgetBid : UInt64) (ad : Ad) : Ad :=
  { ad with authBidMicros := some (min budgetBid ad.maxBidMicros) }

@[simp] theorem cap_campaignId (budgetBid : UInt64) (ad : Ad) :
    (cap budgetBid ad).campaignId = ad.campaignId := rfl

@[simp] theorem cap_authBidMicros (budgetBid : UInt64) (ad : Ad) :
    (cap budgetBid ad).authBidMicros = some (min budgetBid ad.maxBidMicros) := rfl

@[simp] theorem cap_cap (first second : UInt64) (ad : Ad) :
    cap second (cap first ad) = cap second ad := rfl

/-- The selector with its reused collections. -/
structure AdSelector where
  geoCampaigns : List GeoCampaign := []
  retrievedCachedAds : List Ad := []
  selectionAlg : Option (List Ad → Option Ad) := none

namespace AdSelector

/-- `getGeo`: nothing where it returns false. A request without a user or without the
    user's location keeps the default location. -/
def getGeo (caches : BidderCaches) (req : BidRequest StdString) : Option Matchers.Geo :=
  match req.user with
  | none => some {}
  | some user =>
      match user.geo with
      | none => some {}
      | some geo =>
          caches.geoDataEntity.retrieve (toLowerCopy geo.city) (toLowerCopy geo.country)

def getGeoCampaigns (caches : BidderCaches) (s : AdSelector) (geoId : UInt32) :
    Bool × AdSelector :=
  let (found, geoCampaigns) := caches.geoCampaignEntity.retrieve [] geoId
  (found, { s with geoCampaigns })

/-- One turn of `getCampaignAds`, which rewrites only the ads of this turn. Reading the
    banner of an impression without one has no defined result. -/
def campaignTurn (caches : BidderCaches) (imp : Impression StdString) (ads : List Ad)
    (campaign : GeoCampaign) : Option (List Ad) :=
  imp.banner.map fun banner =>
    let offset := ads.length
    let (found, ads) := caches.adDataEntity.retrieve ads campaign.campaignId banner.w banner.h
    if found then
      ads.take offset ++ (ads.drop offset).map (cap (caches.authorize campaign.campaignId))
    else ads

def getCampaignAds (caches : BidderCaches) (s : AdSelector) (campaigns : List GeoCampaign)
    (imp : Impression StdString) : Option (Bool × AdSelector) :=
  (campaigns.foldlM (campaignTurn caches imp) []).map fun retrievedCachedAds =>
    (retrievedCachedAds.length > 0, { s with retrievedCachedAds })

/-- `max_bid`: no ad out of none. -/
def maxBid (ads : List Ad) : Option Ad :=
  if ads.length = 0 then none else maxElement Core.bidsLess ads

/-- `select`, with the collections it leaves behind. -/
def select (caches : BidderCaches) (s : AdSelector) (req : BidRequest StdString)
    (imp : Impression StdString) : Option (Option Ad × AdSelector) :=
  match getGeo caches req with
  | none => some (none, s)
  | some geo =>
      let (someCampaigns, s) := s.getGeoCampaigns caches geo.geoId
      if !someCampaigns then some (none, s)
      else
        (s.getCampaignAds caches s.geoCampaigns imp).map fun (someAds, s) =>
          if !someAds then (none, s)
          else
            match s.selectionAlg with
            | some alg => (alg s.retrievedCachedAds, s)
            | none => (maxBid s.retrievedCachedAds, s)

/-- The campaigns that a request's location leads to. -/
def campaigns (caches : BidderCaches) (req : BidRequest StdString) : List GeoCampaign :=
  match getGeo caches req with
  | none => []
  | some geo => caches.geoCampaignEntity.equalRange [geo.geoId.toNat]

/-- The cached ads of these campaigns that fit a banner, before any is authorized. -/
def cachedAds (caches : BidderCaches) (campaignIds : List UInt32) (banner : Banner StdString) :
    List Ad :=
  campaignIds.flatMap fun campaignId =>
    caches.adDataEntity.matching campaignId banner.w banner.h

/-- The ads that compete for an impression. -/
def candidates (caches : BidderCaches) (req : BidRequest StdString)
    (imp : Impression StdString) : List Ad :=
  match imp.banner with
  | none => []
  | some banner =>
      cachedAds caches ((campaigns caches req).map GeoCampaign.campaignId) banner

/-- An ad capped at what its own campaign is authorized. -/
def authorized (caches : BidderCaches) (ad : Ad) : Ad := cap (caches.authorize ad.campaignId) ad

@[simp] theorem maxBid_eq (ads : List Ad) : maxBid ads = maxElement Core.bidsLess ads := by
  cases ads <;> rfl

/-- A turn appends the campaign's ads, each authorized by that campaign. -/
theorem campaignTurn_appends (caches : BidderCaches) {imp : Impression StdString}
    (hasBanner : imp.banner = some banner) (ads : List Ad) (campaign : GeoCampaign) :
    campaignTurn caches imp ads campaign =
      some (ads ++ (caches.adDataEntity.matching campaign.campaignId banner.w banner.h).map
        (authorized caches)) := by
  have own : ∀ ad ∈ caches.adDataEntity.matching campaign.campaignId banner.w banner.h,
      cap (caches.authorize campaign.campaignId) ad = authorized caches ad := by
    intro ad found
    rw [authorized, (AdDataEntity.of_matching found).1]
  rw [campaignTurn, hasBanner, ← List.map_congr_left own]
  dsimp only [Option.map_some, AdDataEntity.retrieve]
  cases caches.adDataEntity.matching campaign.campaignId banner.w banner.h with
  | nil => simp
  | cons ad found =>
      simp only [List.isEmpty_cons, Bool.not_false, if_true, List.take_left, List.drop_left]

theorem campaignTurns (caches : BidderCaches) {imp : Impression StdString}
    (hasBanner : imp.banner = some banner) (geoCampaigns : List GeoCampaign) (ads : List Ad) :
    geoCampaigns.foldlM (campaignTurn caches imp) ads =
      some (ads ++ (cachedAds caches (geoCampaigns.map GeoCampaign.campaignId) banner).map
        (authorized caches)) := by
  induction geoCampaigns generalizing ads with
  | nil => simp [cachedAds]
  | cons campaign rest ih =>
      rw [List.foldlM_cons, campaignTurn_appends caches hasBanner]
      simp only [Option.bind_eq_bind, Option.bind_some, ih, cachedAds, List.map_cons,
        List.flatMap_cons, List.map_append, List.append_assoc]

/-- The default selection is the best of the candidates, each authorized by its own
    campaign. -/
theorem select_default (caches : BidderCaches) {s : AdSelector} (req : BidRequest StdString)
    {imp : Impression StdString} (default : s.selectionAlg = none)
    (hasBanner : imp.banner = some banner) :
    ∃ s', s.select caches req imp =
        some (maxElement Core.bidsLess ((candidates caches req imp).map (authorized caches)), s') ∧
      s'.selectionAlg = none := by
  unfold select candidates campaigns
  cases getGeo caches req with
  | none => exact ⟨s, by simp [hasBanner, cachedAds, maxElement], default⟩
  | some geo =>
      rw [hasBanner]
      dsimp only [getGeoCampaigns, GeoCampaignEntity.retrieve, List.nil_append]
      cases hc : caches.geoCampaignEntity.equalRange [geo.geoId.toNat] with
      | nil => exact ⟨{ s with geoCampaigns := [] }, rfl, default⟩
      | cons campaign rest =>
          simp only [getCampaignAds, campaignTurns caches hasBanner, List.nil_append,
            Option.map_some, List.isEmpty_cons, Bool.not_false, Bool.not_true,
            Bool.false_eq_true, if_false, default, maxBid_eq]
          cases (cachedAds caches ((campaign :: rest).map GeoCampaign.campaignId) banner).map
              (authorized caches) with
          | nil => exact ⟨_, rfl, rfl⟩
          | cons ad ads => exact ⟨_, rfl, rfl⟩

end AdSelector

end VanillaRtb.Bidder
