import VanillaRtb.Campaign.Budget
import VanillaRtb.Lib.OrderedIndex

/-! # The campaign cache and the banker over it

The banker authorizes by what the cache knows of a campaign. A campaign that the
cache does not know reads as a default budget, which has nothing to authorize.
-/

namespace VanillaRtb.Campaign

open Lib

structure CampaignEntity where
  campaignId : UInt32 := 0
  data : CampaignBudget := {}
  deriving DecidableEq

/-- The field of `campaign_id_tag`. -/
def CampaignEntity.id (e : CampaignEntity) : List Nat := [e.campaignId.toNat]

abbrev CampaignCache := OrderedUnique CampaignEntity.id

/-- `retrieve` as the banker uses it, into a default-constructed budget. -/
def CampaignCache.retrieve (cache : CampaignCache) (campaignId : UInt32) : CampaignBudget :=
  match cache.find [campaignId.toNat] with
  | some e => e.data
  | none => {}

/-- `Banker::authorize`. -/
def Banker.authorize (cache : CampaignCache) (campaignId : UInt32) : UInt64 :=
  BudgetManager.authorize (cache.retrieve campaignId)

/-- A campaign the cache does not know is not authorized. -/
theorem Banker.authorize_unknown {cache : CampaignCache}
    (unknown : ∀ e ∈ cache.entries, e.campaignId ≠ campaignId) :
    Banker.authorize cache campaignId = 0 := by
  have missing : cache.find [campaignId.toNat] = none := by
    cases found : cache.find [campaignId.toNat] with
    | none => rfl
    | some e =>
        obtain ⟨inside, key⟩ := OrderedUnique.find_key found
        simp only [CampaignEntity.id, List.length_cons, List.length_nil, List.take_succ_cons,
          List.take_zero, List.cons.injEq, and_true] at key
        exact absurd (UInt32.toNat_inj.mp key) (unknown e inside)
  rw [Banker.authorize, CampaignCache.retrieve, missing]
  rfl

end VanillaRtb.Campaign
