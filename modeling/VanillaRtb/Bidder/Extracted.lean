import VanillaRtb.Bidder.Bidder
import VanillaRtb.Bidder.ChainedAds
import VanillaRtb.Dsl.RapidExtractors

/-! # Selecting for a request out of JSON

An impression need not have a banner and a request need not have a site, but both bidders
read them once the caches have led them to a campaign, or before they look into any.
-/

namespace VanillaRtb.Bidder

open Lib OpenRtb Matchers Campaign

/-- The caches of the experimental bidder, over those of the other. -/
structure IcoCaches where
  domains : DomainEntity
  icoCampaigns : ICOCampaignEntity
  caches : BidderCaches
  host : StdString → Option StdString

namespace IcoCaches

variable (ico : IcoCaches)

/-- `retrieve_domain_f`. -/
def retrieveDomainF (dom : StdString) : Option UInt32 :=
  (ico.domains.retrieve ico.host dom).map Domain.domId

/-- `retrieve_ico_campaign_f` of an identifier that is there. -/
def retrieveIcoCampaignF (domId : UInt32) : Option (List ICOCampaign) :=
  let (found, icoCampaigns) := ico.icoCampaigns.retrieve domId
  if found then some icoCampaigns else none

/-- The three matchers in a row. The optional that one of them hands on is tested by the
    chain and read by the next, and a read of an empty one yields nothing. -/
def chain : Core.Chain (BidRequest StdString) (Impression StdString) StdString :=
  .link Option.isSome (fun dom _ _ => some (ico.retrieveDomainF dom)) <|
  .link Option.isSome (fun domId _ _ => domId.map ico.retrieveIcoCampaignF) <|
  .terminal fun campaigns _ imp =>
    campaigns.bind fun campaigns => retrieveCampaignAdsF ico.caches campaigns imp

/-- The auction handler: nothing where it reads through an empty optional. The matchers
    leave their arguments alone. -/
def auction (uuids : Nat → StdString) (b : Core.Bidder) (request : BidRequest StdString) :
    Option Core.Bidder :=
  request.site.bind fun site => b.bid uuids id request (site.ref, ico.chain)

/-- The campaigns that a page leads to. -/
def campaigns (ref : StdString) : List ICOCampaign :=
  match ico.retrieveDomainF ref with
  | none => []
  | some domId => ico.icoCampaigns.equalRange [domId.toNat]

end IcoCaches

section Defined

/-- A turn for an impression without a banner reads the banner. -/
theorem campaignTurn_isSome (caches : BidderCaches) (imp : Impression StdString) (ads : List Ad)
    (campaign : GeoCampaign) :
    (AdSelector.campaignTurn caches imp ads campaign).isSome = imp.banner.isSome := by
  rw [AdSelector.campaignTurn, Option.isSome_map]

theorem retrieveTurn_isSome (caches : BidderCaches) (imp : Impression StdString) (ads : List Ad)
    (campaign : ICOCampaign) :
    (retrieveTurn caches imp ads campaign).isSome = imp.banner.isSome := by
  rw [retrieveTurn, Option.isSome_map]

/-- Turns that all need the same are defined if there are none, or it is there. -/
theorem turns_isSome {turn : S → M → Option S} {needed : Bool}
    (one : ∀ s m, (turn s m).isSome = needed) (s : S) (ms : List M) :
    (ms.foldlM turn s).isSome = true ↔ needed = true ∨ ms = [] := by
  rw [Dsl.foldlM_isSome_iff (P := fun _ => needed = true) fun s m => by rw [one]]
  cases ms with
  | nil => simp
  | cons m ms => simp +contextual

theorem select_isSome (caches : BidderCaches) (s : AdSelector) (req : BidRequest StdString)
    (imp : Impression StdString) : (s.select caches req imp).isSome = true ↔
      imp.banner.isSome = true ∨ AdSelector.campaigns caches req = [] := by
  unfold AdSelector.select AdSelector.campaigns
  cases AdSelector.getGeo caches req with
  | none => simp
  | some geo =>
      dsimp only [AdSelector.getGeoCampaigns, GeoCampaignEntity.retrieve, List.nil_append]
      cases found : caches.geoCampaignEntity.equalRange [geo.geoId.toNat] with
      | nil => simp
      | cons campaign rest =>
          simp only [List.isEmpty_cons, Bool.not_false, Bool.not_true, Bool.false_eq_true, if_false,
            Option.isSome_map, AdSelector.getCampaignAds]
          rw [turns_isSome (campaignTurn_isSome caches imp)]

theorem bid_isSome (caches : BidderCaches) (uuids : Nat → StdString) (b : VanillaRtb.Bidder)
    (request : BidRequest StdString) :
    (b.bid caches uuids request).isSome = true ↔
      ∀ imp ∈ request.imp, imp.banner.isSome = true ∨ AdSelector.campaigns caches request = [] := by
  suffices each : ∀ (imps : List (Impression StdString)) (b : VanillaRtb.Bidder),
      (bidEach caches uuids request b imps).isSome = true ↔
        ∀ imp ∈ imps, imp.banner.isSome = true ∨ AdSelector.campaigns caches request = [] from
    each request.imp _
  intro imps
  induction imps with
  | nil => simp [bidEach]
  | cons imp rest ih =>
      intro b
      rw [bidEach, List.forall_mem_cons, ← select_isSome caches b.selector, buildImpResponse]
      cases b.selector.select caches request imp with
      | none => simp
      | some selected => simpa using ih _

theorem retrieveIcoCampaignF_eq (ico : IcoCaches) (domId : UInt32) :
    ico.retrieveIcoCampaignF domId =
      match ico.icoCampaigns.equalRange [domId.toNat] with
      | [] => none
      | campaign :: rest => some (campaign :: rest) := by
  rw [IcoCaches.retrieveIcoCampaignF, ICOCampaignEntity.retrieve]
  cases ico.icoCampaigns.equalRange [domId.toNat] <;> rfl

theorem chain_isSome (ico : IcoCaches) (ref : StdString) (req : BidRequest StdString)
    (imp : Impression StdString) : (ico.chain.chainFunction req imp ref).isSome = true ↔
      imp.banner.isSome = true ∨ ico.campaigns ref = [] := by
  simp only [IcoCaches.chain, Core.Chain.chainFunction, Option.bind_some]
  unfold IcoCaches.campaigns
  cases ico.retrieveDomainF ref with
  | none => simp
  | some domId =>
      simp only [Option.isSome_some, if_true, Option.map_some, Option.bind_some,
        retrieveIcoCampaignF_eq]
      cases ico.icoCampaigns.equalRange [domId.toNat] with
      | nil => simp
      | cons campaign rest =>
          simp only [Option.isSome_some, if_true, Option.bind_some, retrieveCampaignAdsF]
          rw [turns_isSome (retrieveTurn_isSome ico.caches imp)]

theorem chainedBid_isSome (ico : IcoCaches) (uuids : Nat → StdString) (b : Core.Bidder)
    (request : BidRequest StdString) (ref : StdString) :
    (b.bid uuids id request (ref, ico.chain)).isSome = true ↔
      ∀ imp ∈ request.imp, imp.banner.isSome = true ∨ ico.campaigns ref = [] := by
  suffices each : ∀ (imps : List (Impression StdString)) (b : Core.Bidder),
      (Core.Bidder.bidEach uuids id request b imps (ref, ico.chain)).isSome = true ↔
        ∀ imp ∈ imps, imp.banner.isSome = true ∨ ico.campaigns ref = [] from
    each request.imp _
  intro imps
  induction imps with
  | nil => simp [Core.Bidder.bidEach]
  | cons imp rest ih =>
      intro b
      rw [Core.Bidder.bidEach, List.forall_mem_cons, ← chain_isSome ico ref request,
        Core.Bidder.buildImpResponse, Core.AdSelector.select]
      cases ico.chain.chainFunction request imp ref with
      | none => simp
      | some ads => simpa using ih _

theorem auction_isSome (ico : IcoCaches) (uuids : Nat → StdString) (b : Core.Bidder)
    (request : BidRequest StdString) : (ico.auction uuids b request).isSome = true ↔
      ∃ site, request.site = some site ∧
        ∀ imp ∈ request.imp, imp.banner.isSome = true ∨ ico.campaigns site.ref = [] := by
  rw [IcoCaches.auction]
  cases request.site with
  | none => simp
  | some site => simp [chainedBid_isSome]

end Defined

section Safe

/-- Neither bidder reads through an empty optional on the request out of a document, if there
    is one, whatever it has served before. -/
def SelectionSafe (ico : IcoCaches) (uuids : Nat → StdString) (d : Dsl.RapidValue) : Prop :=
  ∀ request, Dsl.RapidExtractors.bidRequest d = some request →
    (∀ b : VanillaRtb.Bidder, (b.bid ico.caches uuids request).isSome = true) ∧
    ∀ b : Core.Bidder, (ico.auction uuids b request).isSome = true

/-- There is a site, and each impression has a banner unless neither the location nor the
    page of the request leads to a campaign. -/
def Selectable (ico : IcoCaches) (request : BidRequest StdString) : Prop :=
  ∃ site, request.site = some site ∧ ∀ imp ∈ request.imp, imp.banner.isSome = true ∨
    AdSelector.campaigns ico.caches request = [] ∧ ico.campaigns site.ref = []

/-- Selecting is safe exactly for the requests that have what is read. -/
theorem selection_safe_iff (ico : IcoCaches) (uuids : Nat → StdString) (d : Dsl.RapidValue) :
    SelectionSafe ico uuids d ↔
      ∀ request, Dsl.RapidExtractors.bidRequest d = some request → Selectable ico request := by
  apply forall₂_congr
  intro request _
  simp only [bid_isSome, auction_isSome]
  constructor
  · rintro ⟨location, page⟩
    obtain ⟨site, here, page⟩ := page {}
    have location := location {}
    refine ⟨site, here, ?_⟩
    intro imp inside
    rcases location imp inside with banner | noCampaigns
    · exact .inl banner
    · exact (page imp inside).imp_right fun noPage => ⟨noCampaigns, noPage⟩
  · rintro ⟨site, here, each⟩
    refine ⟨fun _ imp inside => (each imp inside).imp_right And.left, fun _ => ⟨site, here, ?_⟩⟩
    exact fun imp inside => (each imp inside).imp_right And.right

/-- Caches of which only one campaign without a budget is known. -/
def icoOfOne : IcoCaches where
  domains := .empty _
  icoCampaigns := .empty _
  caches := oneCampaign (.empty _)
  host := fun _ => none

/-- An impression without a banner, for a location that has a campaign. -/
theorem impression_without_banner : ¬ SelectionSafe icoOfOne (fun _ => [])
    (.object [(ascii "imp", .array [.object []])]) := by
  intro safe
  have extracted : Dsl.RapidExtractors.bidRequest (.object [(ascii "imp", .array [.object []])]) =
      some { imp := [{}] } := rfl
  have read := (bid_isSome icoOfOne.caches (fun _ => []) {} _).mp ((safe _ extracted).1 {})
    {} List.mem_cons_self
  revert read
  decide +kernel

end Safe

end VanillaRtb.Bidder
