import VanillaRtb.Bidder.AdSelector
import VanillaRtb.Core.Bidder

/-! # The bidder over the caches

Every impression whose location leads to a fitting ad is bid on, at what the best ad is
authorized, be it zero. Exhausted campaigns therefore stay out of the response exactly
when each impression with candidates has one that is funded.
-/

namespace VanillaRtb

open Lib OpenRtb Matchers Campaign

structure Bidder where
  selector : Bidder.AdSelector := {}
  response : BidResponse StdString := {}
  drawn : Nat := 0

namespace Bidder

/-- `buildImpResponse`; `addCurrency` and `addBid` are those of the core bidder. -/
def buildImpResponse (caches : BidderCaches) (uuids : Nat → StdString) (b : Bidder)
    (request : BidRequest StdString) (imp : Impression StdString) : Option Bidder :=
  (b.selector.select caches request imp).map fun (selected, selector) =>
    match selected with
    | some ad =>
        { selector
          response := Core.Bidder.answer uuids b.drawn b.response request imp ad
          drawn := b.drawn + 2 }
    | none => { b with selector }

def bidEach (caches : BidderCaches) (uuids : Nat → StdString) (request : BidRequest StdString) :
    Bidder → List (Impression StdString) → Option Bidder
  | b, [] => some b
  | b, imp :: rest =>
      (b.buildImpResponse caches uuids request imp).bind fun b =>
        bidEach caches uuids request b rest

/-- `bid`, undefined where an impression without a banner is looked at. -/
def bid (caches : BidderCaches) (uuids : Nat → StdString) (b : Bidder)
    (request : BidRequest StdString) : Option Bidder :=
  bidEach caches uuids request { b with response := b.response.clear } request.imp

/-- A bid without its random identifier. -/
def eraseId (bid : Bid StdString) : Bid StdString := { bid with id := [] }

/-- The best candidate for an impression, together with the impression. -/
def offered (caches : BidderCaches) (request : BidRequest StdString)
    (imp : Impression StdString) : Option (Impression StdString × Ad) :=
  (maxElement Core.bidsLess ((AdSelector.candidates caches request imp).map
    (AdSelector.authorized caches))).map fun ad => (imp, ad)

theorem bidEach_offers (caches : BidderCaches) (uuids : Nat → StdString)
    (request : BidRequest StdString) {b : Bidder} {imps : List (Impression StdString)}
    (default : b.selector.selectionAlg = none) (banners : ∀ imp ∈ imps, imp.banner.isSome = true) :
    ∃ answered, bidEach caches uuids request b imps = some answered ∧
      answered.response.bids.map eraseId = b.response.bids.map eraseId ++
        (imps.filterMap (offered caches request)).map fun o => Core.Bidder.offer o.1 o.2 [] := by
  induction imps generalizing b with
  | nil => exact ⟨b, rfl, (List.append_nil _).symm⟩
  | cons imp rest ih =>
      obtain ⟨banner, hasBanner⟩ := Option.isSome_iff_exists.mp (banners imp List.mem_cons_self)
      have later := fun imp' inside => banners imp' (List.mem_cons_of_mem _ inside)
      obtain ⟨selector, selects, default'⟩ :=
        AdSelector.select_default caches request default hasBanner
      rw [bidEach, buildImpResponse, selects, List.filterMap_cons, offered]
      cases maxElement Core.bidsLess ((AdSelector.candidates caches request imp).map
          (AdSelector.authorized caches)) with
      | none => exact ih default' later
      | some ad =>
          obtain ⟨answered, returned, bids⟩ := ih
            (b := ⟨selector, Core.Bidder.answer uuids b.drawn b.response request imp ad,
              b.drawn + 2⟩) default' later
          refine ⟨answered, returned, ?_⟩
          simp only [bids, Core.Bidder.bids_answer, List.map_append, List.map_cons, List.map_nil,
            Option.map_some, List.append_assoc, List.cons_append, List.nil_append]
          rfl

/-- Every bid has a positive price, and the bids are offers of authorized candidates, at
    most one for an impression and in the order of the request. -/
def BidsOnlyAuthorized (caches : BidderCaches) (uuids : Nat → StdString) (b : Bidder)
    (request : BidRequest StdString) : Prop :=
  ∃ answered, b.bid caches uuids request = some answered ∧
    (∀ bid ∈ answered.response.bids, 0 < bid.price) ∧
    ∃ offers : List (Impression StdString × Ad), (offers.map Prod.fst).Sublist request.imp ∧
      (∀ o ∈ offers, o.2 ∈ (AdSelector.candidates caches request o.1).map
          (AdSelector.authorized caches) ∧ caches.authorize o.2.campaignId ≠ 0) ∧
      answered.response.bids.map eraseId =
        offers.map fun o => Core.Bidder.offer o.1 o.2 []

/-- Some candidate for the impression is authorized and bids something, unless it has
    no candidates at all. -/
def Funded (caches : BidderCaches) (request : BidRequest StdString)
    (imp : Impression StdString) : Prop :=
  AdSelector.candidates caches request imp = [] ∨
    ∃ ad ∈ AdSelector.candidates caches request imp,
      caches.authorize ad.campaignId ≠ 0 ∧ ad.maxBidMicros ≠ 0

theorem authorizedBid_ne_zero (caches : BidderCaches) (ad : Ad) :
    (AdSelector.authorized caches ad).authBidMicros ≠ some 0 ↔
      caches.authorize ad.campaignId ≠ 0 ∧ ad.maxBidMicros ≠ 0 := by
  simp only [AdSelector.authorized, cap_authBidMicros, ne_eq, Option.some.injEq]
  change ¬ (if caches.authorize ad.campaignId ≤ ad.maxBidMicros then _ else _) = (0 : UInt64) ↔ _
  simp only [UInt64.le_iff_toNat_le, ← UInt64.toNat_inj, UInt64.toNat_zero]
  split <;> omega

theorem offer_price_pos (caches : BidderCaches) (imp : Impression StdString) (ad : Ad)
    (id : StdString) :
    0 < (Core.Bidder.offer imp (AdSelector.authorized caches ad) id).price ↔
      caches.authorize ad.campaignId ≠ 0 ∧ ad.maxBidMicros ≠ 0 := by
  rw [← authorizedBid_ne_zero]
  change 0 < Core.price _ ↔ _
  rw [Core.price_pos_iff, AdSelector.authorized, cap_authBidMicros]
  exact not_congr (Option.some_inj).symm

/-- Authorized ads are compared by their authorized bids. -/
theorem authorized_strictWeak (caches : BidderCaches) (ads : List Ad) :
    StrictWeakOn Core.bidsLess (ads.map (AdSelector.authorized caches)) := by
  apply StrictWeakOn.of_key fun ad => (ad.authBidMicros.getD 0).toNat
  intro first hfirst second hsecond
  obtain ⟨a, -, rfl⟩ := List.mem_map.mp hfirst
  obtain ⟨b, -, rfl⟩ := List.mem_map.mp hsecond
  simp only [Core.bidsLess, AdSelector.authorized, cap_authBidMicros, decide_eq_true_eq,
    UInt64.lt_iff_toNat_lt, Option.getD_some]

theorem offered_mem {caches : BidderCaches} (o : offered caches request imp = some offer) :
    offer.1 = imp ∧ ∃ ad ∈ AdSelector.candidates caches request imp,
      AdSelector.authorized caches ad = offer.2 := by
  obtain ⟨ad, best, rfl⟩ := Option.map_eq_some_iff.mp o
  exact ⟨rfl, List.mem_map.mp (maxElement_mem best)⟩

theorem offered_sublist (caches : BidderCaches) (request : BidRequest StdString)
    (imps : List (Impression StdString)) :
    ((imps.filterMap (offered caches request)).map Prod.fst).Sublist imps := by
  induction imps with
  | nil => exact .slnil
  | cons imp rest ih =>
      rw [List.filterMap_cons]
      cases ho : offered caches request imp with
      | none => exact ih.cons imp
      | some o =>
          rw [List.map_cons, (offered_mem ho).1]
          exact ih.cons_cons imp

/-- The best of funded candidates is funded. -/
theorem offered_funded {caches : BidderCaches} (funded : Funded caches request imp)
    (o : offered caches request imp = some offer) :
    ∃ ad ∈ AdSelector.candidates caches request imp,
      AdSelector.authorized caches ad = offer.2 ∧
        caches.authorize ad.campaignId ≠ 0 ∧ ad.maxBidMicros ≠ 0 := by
  obtain ⟨-, ad, inside, same⟩ := offered_mem o
  refine ⟨ad, inside, same, ?_⟩
  obtain ⟨best, hbest, rfl⟩ := Option.map_eq_some_iff.mp o
  dsimp only at same
  rcases funded with empty | ⟨rich, hrich, positive⟩
  · rw [empty] at inside
    cases inside
  · have notAbove := maxElement_max (authorized_strictWeak caches _) hbest
      (AdSelector.authorized caches rich) (List.mem_map.mpr ⟨rich, hrich, rfl⟩)
    rw [← authorizedBid_ne_zero] at positive ⊢
    rw [← same] at notAbove
    simp only [Core.bidsLess, AdSelector.authorized, cap_authBidMicros, decide_eq_false_iff_not,
      UInt64.lt_iff_toNat_lt, ne_eq, Option.some.injEq, ← UInt64.toNat_inj,
      UInt64.toNat_zero] at notAbove positive ⊢
    omega

/-- Where every bid has a price, the impressions with candidates are funded. -/
theorem funded_of_prices (caches : BidderCaches) (uuids : Nat → StdString) {b answered : Bidder}
    (request : BidRequest StdString) (default : b.selector.selectionAlg = none)
    (banners : ∀ imp ∈ request.imp, imp.banner.isSome = true)
    (returned : b.bid caches uuids request = some answered)
    (prices : ∀ bid ∈ answered.response.bids, 0 < bid.price) :
    ∀ imp ∈ request.imp, Funded caches request imp := by
  obtain ⟨answered', again, bids⟩ := bidEach_offers caches uuids request
    (b := { b with response := b.response.clear }) default banners
  obtain rfl := Option.some.inj (again.symm.trans returned)
  intro imp inside
  cases ho : offered caches request imp with
  | none =>
      left
      simpa only [offered, Option.map_eq_none_iff, maxElement_eq_none, List.map_eq_nil_iff] using ho
  | some o =>
      right
      obtain ⟨_, ad, candidate, same⟩ := offered_mem ho
      refine ⟨ad, candidate, ?_⟩
      have offerIn : Core.Bidder.offer o.1 o.2 [] ∈ answered'.response.bids.map eraseId := by
        rw [bids]
        apply List.mem_append_right
        exact List.mem_map.mpr ⟨o, List.mem_filterMap.mpr ⟨imp, inside, ho⟩, rfl⟩
      obtain ⟨bid, hbid, erased⟩ := List.mem_map.mp offerIn
      have price : (eraseId bid).price = (Core.Bidder.offer o.1 o.2 []).price :=
        congrArg Bid.price erased
      rw [← offer_price_pos caches o.1 ad [], same, ← price]
      exact prices bid hbid

/-- Only authorized campaigns bid exactly when every impression with candidates has
    one of an authorized campaign that bids something. -/
theorem bidsOnlyAuthorized_iff (caches : BidderCaches) (uuids : Nat → StdString) (b : Bidder)
    (request : BidRequest StdString) (default : b.selector.selectionAlg = none)
    (banners : ∀ imp ∈ request.imp, imp.banner.isSome = true) :
    BidsOnlyAuthorized caches uuids b request ↔
      ∀ imp ∈ request.imp, Funded caches request imp := by
  constructor
  · rintro ⟨answered, returned, prices, -⟩
    exact funded_of_prices caches uuids request default banners returned prices
  · intro funded
    obtain ⟨answered, returned, bids⟩ := bidEach_offers caches uuids request
      (b := { b with response := b.response.clear }) default banners
    have offers : ∀ o ∈ request.imp.filterMap (offered caches request),
        ∃ ad ∈ AdSelector.candidates caches request o.1,
          AdSelector.authorized caches ad = o.2 ∧
            caches.authorize ad.campaignId ≠ 0 ∧ ad.maxBidMicros ≠ 0 := by
      intro o ho
      obtain ⟨imp, inside, made⟩ := List.mem_filterMap.mp ho
      rw [(offered_mem made).1]
      exact offered_funded (funded imp inside) made
    refine ⟨answered, returned, ?_, request.imp.filterMap (offered caches request), ?_, ?_, ?_⟩
    · intro bid hbid
      have erased : eraseId bid ∈ answered.response.bids.map eraseId := List.mem_map_of_mem hbid
      rw [bids] at erased
      obtain ⟨o, ho, same⟩ := List.mem_map.mp erased
      obtain ⟨ad, -, capped, positive⟩ := offers o ho
      have price : bid.price = (Core.Bidder.offer o.1 o.2 []).price :=
        (congrArg Bid.price same).symm
      rw [price, ← capped]
      exact (offer_price_pos caches o.1 ad []).mpr positive
    · exact offered_sublist caches request request.imp
    · intro o ho
      obtain ⟨ad, candidate, capped, positive⟩ := offers o ho
      rw [← capped]
      exact ⟨List.mem_map_of_mem candidate, positive.1⟩
    · exact bids

section Funds

def oneAd : AdDataEntity where
  entries := [{ campaignId := 1, width := 300, height := 250, maxBidMicros := 1500000 }]
  sorted := by decide

/-- One location with one campaign that has one ad, and what is known of its budget. -/
def oneCampaign (budgets : CampaignCache) : BidderCaches where
  adDataEntity := oneAd
  geoDataEntity := .empty _
  geoCampaignEntity := ⟨[{ geoId := 0, campaignId := 1 }], by decide⟩
  budgetCache := budgets

def oneImpression : BidRequest StdString :=
  { imp := [{ id := ascii "1", banner := some { w := 300, h := 250 } }] }

def twoPerDay : CampaignBudget :=
  { campaignId := 1, dayBudgetLimit := 2000000, metric := ⟨.cpc, 1000000⟩ }

def budgetOfTwo : CampaignCache := ⟨[{ campaignId := 1, data := twoPerDay }], by decide⟩

/-- A funded campaign is bid on at a price. -/
theorem funded_campaign_bids :
    BidsOnlyAuthorized (oneCampaign budgetOfTwo) (fun _ => []) {} oneImpression := by
  apply (bidsOnlyAuthorized_iff (oneCampaign budgetOfTwo) (fun _ => []) {} oneImpression rfl
    (by decide)).mpr
  intro imp inside
  obtain rfl := List.mem_singleton.mp inside
  right
  decide +kernel

/-- A campaign without a budget record is bid on at nothing. -/
theorem unknown_campaign_bids :
    ¬ BidsOnlyAuthorized (oneCampaign (.empty _)) (fun _ => []) {} oneImpression := by
  rintro ⟨answered, returned, prices, -⟩
  have funded := funded_of_prices _ _ _ rfl (by decide) returned prices _ List.mem_cons_self
  rcases funded with none | ⟨ad, inside, authorized, -⟩
  · revert none
    decide +kernel
  · exact authorized (Banker.authorize_unknown fun _ inside => nomatch inside)

end Funds

end Bidder

end VanillaRtb
