import VanillaRtb.Bidder.AdSelector

/-! # The terminal matcher over the same caches

The last matcher of the experimental bidder collects the ads of many campaigns as
`getCampaignAds` does, but each turn authorizes everything collected so far. Every ad
thus ends up with the budget of the last campaign that had ads.
-/

namespace VanillaRtb.Bidder

open Lib OpenRtb Matchers Campaign

/-- One turn of `retrieve_campaign_ads_f`, which rewrites all the ads there are. -/
def retrieveTurn (caches : BidderCaches) (imp : Impression StdString) (ads : List Ad)
    (campaign : ICOCampaign) : Option (List Ad) :=
  imp.banner.map fun banner =>
    let (found, ads) := caches.adDataEntity.retrieve ads campaign.campaignId banner.w banner.h
    if !found then ads
    else ads.map (cap (caches.authorize campaign.campaignId))

def retrieveCampaignAdsF (caches : BidderCaches) (campaigns : List ICOCampaign)
    (imp : Impression StdString) : Option (List Ad) :=
  campaigns.foldlM (retrieveTurn caches imp) []

/-- The last of the campaigns that has ads of the banner's size. -/
def lastMatched (caches : BidderCaches) (banner : Banner StdString) :
    List ICOCampaign → Option UInt32
  | [] => none
  | campaign :: rest =>
      match lastMatched caches banner rest with
      | some last => some last
      | none =>
          if (caches.adDataEntity.matching campaign.campaignId banner.w banner.h).isEmpty then none
          else some campaign.campaignId

theorem lastMatched_none {caches : BidderCaches} {campaigns : List ICOCampaign}
    (none_matched : lastMatched caches banner campaigns = none) :
    AdSelector.cachedAds caches (campaigns.map ICOCampaign.campaignId) banner = [] := by
  induction campaigns with
  | nil => rfl
  | cons campaign rest ih =>
      unfold lastMatched at none_matched
      cases later : lastMatched caches banner rest with
      | some last => simp [later] at none_matched
      | none =>
          simp only [later] at none_matched
          have later := ih later
          simp only [AdSelector.cachedAds] at later ⊢
          rw [List.map_cons, List.flatMap_cons, later, List.append_nil]
          by_contra some_ads
          rw [if_neg (by simpa using some_ads)] at none_matched
          cases none_matched

/-- Every ad collected is capped by the last campaign that had any. -/
theorem retrieveTurns (caches : BidderCaches) {imp : Impression StdString}
    (hasBanner : imp.banner = some banner) (campaigns : List ICOCampaign) (ads : List Ad) :
    campaigns.foldlM (retrieveTurn caches imp) ads =
      some (match lastMatched caches banner campaigns with
        | none => ads
        | some last =>
            (ads ++ AdSelector.cachedAds caches (campaigns.map ICOCampaign.campaignId) banner).map
              (cap (caches.authorize last))) := by
  induction campaigns generalizing ads with
  | nil => rfl
  | cons campaign rest ih =>
      rw [List.foldlM_cons, retrieveTurn, hasBanner]
      dsimp only [Option.map_some, AdDataEntity.retrieve, Option.bind_eq_bind, Option.bind_some]
      rw [ih, lastMatched]
      have all : AdSelector.cachedAds caches
          ((campaign :: rest).map ICOCampaign.campaignId) banner =
            caches.adDataEntity.matching campaign.campaignId banner.w banner.h ++
              AdSelector.cachedAds caches (rest.map ICOCampaign.campaignId) banner := rfl
      rw [all]
      cases caches.adDataEntity.matching campaign.campaignId banner.w banner.h with
      | nil => cases lastMatched caches banner rest <;> simp
      | cons ad found =>
          cases later : lastMatched caches banner rest with
          | none => simp [lastMatched_none later]
          | some last =>
              -- what this turn wrote is written over by the later one
              simp [Function.comp_def]

theorem retrieveCampaignAdsF_eq (caches : BidderCaches) {imp : Impression StdString}
    (hasBanner : imp.banner = some banner) (campaigns : List ICOCampaign) :
    retrieveCampaignAdsF caches campaigns imp =
      some (match lastMatched caches banner campaigns with
        | none => []
        | some last =>
            (AdSelector.cachedAds caches (campaigns.map ICOCampaign.campaignId) banner).map
              (cap (caches.authorize last))) := by
  exact retrieveTurns caches hasBanner campaigns []

/-- The same campaigns as `getCampaignAds` is given them. -/
def asGeoCampaigns (campaigns : List ICOCampaign) : List GeoCampaign :=
  campaigns.map fun campaign => { campaignId := campaign.campaignId }

/-- The matcher returns what `getCampaignAds` leaves for the same campaigns, each ad
    capped at what its own campaign is authorized. -/
def PricedByOwnBudget (caches : BidderCaches) (campaigns : List ICOCampaign)
    (imp : Impression StdString) : Prop :=
  ∃ ads, retrieveCampaignAdsF caches campaigns imp = some ads ∧
    (∀ s : AdSelector, (s.getCampaignAds caches (asGeoCampaigns campaigns) imp).map
      (fun left => left.2.retrievedCachedAds) = some ads) ∧
    ∀ ad ∈ ads, ad.authBidMicros = some (min (caches.authorize ad.campaignId) ad.maxBidMicros)

theorem getCampaignAds_eq (caches : BidderCaches) (s : AdSelector) {imp : Impression StdString}
    (hasBanner : imp.banner = some banner) (campaigns : List ICOCampaign) :
    (s.getCampaignAds caches (asGeoCampaigns campaigns) imp).map
        (fun left => left.2.retrievedCachedAds) =
      some ((AdSelector.cachedAds caches (campaigns.map ICOCampaign.campaignId) banner).map
        (AdSelector.authorized caches)) := by
  have ids : (asGeoCampaigns campaigns).map GeoCampaign.campaignId =
      campaigns.map ICOCampaign.campaignId := by
    rw [asGeoCampaigns, List.map_map]
    rfl
  simp only [AdSelector.getCampaignAds, AdSelector.campaignTurns caches hasBanner, ids,
    List.nil_append, Option.map_some]

theorem cap_eq_authorized (caches : BidderCaches) (campaignId : UInt32) (ad : Ad) :
    cap (caches.authorize campaignId) ad = AdSelector.authorized caches ad ↔
      min (caches.authorize campaignId) ad.maxBidMicros =
        min (caches.authorize ad.campaignId) ad.maxBidMicros := by
  constructor
  · intro same
    exact Option.some.inj (congrArg Ad.authBidMicros same)
  · intro same
    rw [AdSelector.authorized, cap, cap, same]

/-- The two agree exactly when the last campaign with ads caps every ad as the ad's
    own campaign does. -/
theorem pricedByOwnBudget_iff (caches : BidderCaches) (campaigns : List ICOCampaign)
    (imp : Impression StdString) (hasBanner : imp.banner = some banner) :
    PricedByOwnBudget caches campaigns imp ↔
      ∀ last, lastMatched caches banner campaigns = some last →
        ∀ ad ∈ AdSelector.cachedAds caches (campaigns.map ICOCampaign.campaignId) banner,
          min (caches.authorize last) ad.maxBidMicros =
            min (caches.authorize ad.campaignId) ad.maxBidMicros := by
  unfold PricedByOwnBudget
  simp only [retrieveCampaignAdsF_eq caches hasBanner, getCampaignAds_eq caches _ hasBanner,
    Option.some.injEq, exists_eq_left']
  constructor
  · rintro ⟨same, -⟩ last found
    have same := (same {}).symm
    rw [found] at same
    have pointwise := List.map_inj_left.mp same
    intro ad inside
    exact (cap_eq_authorized caches last ad).mp (pointwise ad inside)
  · intro agree
    have same : (AdSelector.cachedAds caches (campaigns.map ICOCampaign.campaignId) banner).map
        (AdSelector.authorized caches) = match lastMatched caches banner campaigns with
          | none => []
          | some last =>
              (AdSelector.cachedAds caches (campaigns.map ICOCampaign.campaignId) banner).map
                (cap (caches.authorize last)) := by
      cases found : lastMatched caches banner campaigns with
      | none => rw [lastMatched_none found, List.map_nil]
      | some last =>
          apply List.map_inj_left.mpr
          intro ad inside
          exact ((cap_eq_authorized caches last ad).mpr (agree last found ad inside)).symm
    refine ⟨fun _ => same, ?_⟩
    rw [← same]
    intro ad inside
    obtain ⟨cached, -, rfl⟩ := List.mem_map.mp inside
    rfl

section TwoCampaigns

/-- Two campaigns with an ad each, of which the second alone has a budget. -/
def twoCampaigns : BidderCaches where
  adDataEntity :=
    ⟨[{ adId := 1, campaignId := 1, width := 300, height := 250, maxBidMicros := 1500000 },
      { adId := 2, campaignId := 2, width := 300, height := 250, maxBidMicros := 1500000 }],
      by decide⟩
  geoDataEntity := .empty _
  geoCampaignEntity := .empty _
  budgetCache :=
    ⟨[{ campaignId := 2, data := { dayBudgetLimit := 2000000, metric := ⟨.cpc, 1000000⟩ } }],
      by decide⟩

def bannerImpression : Impression StdString := { banner := some { w := 300, h := 250 } }

theorem one_campaign_priced_by_own :
    PricedByOwnBudget twoCampaigns [{ campaignId := 2 }] bannerImpression := by
  apply (pricedByOwnBudget_iff twoCampaigns [{ campaignId := 2 }] bannerImpression rfl).mpr
  intro last found
  have second : lastMatched twoCampaigns { w := 300, h := 250 } [{ campaignId := 2 }] = some 2 := by
    decide +kernel
  obtain rfl := Option.some.inj (found.symm.trans second)
  decide +kernel

/-- The ad of the first campaign is authorized by the budget of the second. -/
theorem priced_by_other_budget :
    ¬ PricedByOwnBudget twoCampaigns [{ campaignId := 1 }, { campaignId := 2 }]
      bannerImpression := by
  rintro ⟨ads, returned, -, own⟩
  have first : (retrieveCampaignAdsF twoCampaigns [{ campaignId := 1 }, { campaignId := 2 }]
      bannerImpression).map List.head? = some (some (cap 1000000
        { adId := 1, campaignId := 1, width := 300, height := 250, maxBidMicros := 1500000 })) := by
    decide +kernel
  rw [returned, Option.map_some, Option.some.injEq] at first
  have mispriced := own _ (List.mem_of_mem_head? (Option.mem_def.mpr first))
  revert mispriced
  decide +kernel

end TwoCampaigns

end VanillaRtb.Bidder
