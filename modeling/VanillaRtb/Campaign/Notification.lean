import VanillaRtb.Campaign.Budget
import VanillaRtb.Datacache.Contents

/-! # Win notices

The notification service looks up the campaign of a win, charges the price to its own copy
of the record, and writes the copy back under the id it was asked for. What it charges is
split between the limit and the overdraft, and none of it is lost while the sums fit.
-/

namespace VanillaRtb.Campaign

open Lib Datacache

/-- `CampaignCache` in the shared memory of its name. -/
abbrev BudgetCache := Datacache.CampaignCache CampaignBudget

/-- A campaign cache over what its segment holds. -/
def budgetCache
    (container : MultiIndex (Entity.key : Entity UInt32 CampaignBudget → UInt32) campaignPart) :
    BudgetCache :=
  EntityCache.entityCache .shared container

theorem budgetCache_holds
    (container : MultiIndex (Entity.key : Entity UInt32 CampaignBudget → UInt32) campaignPart) :
    (budgetCache container).Holds (lookup container.entries) :=
  ⟨rfl, nofun, rfl⟩

structure NotificationServiceStatus where
  winNoticeCount : UInt64 := 0
  dayBudgetLimit : UInt64 := 0
  totalSpentAmout : UInt64 := 0
  deriving DecidableEq

/-- What the URL of a notice matches; an empty match is no number. -/
structure WinNotice where
  price : Option UInt64
  campaignId : Option UInt32
  deriving DecidableEq

structure NotificationService where
  cache : BudgetCache
  status : NotificationServiceStatus := {}

namespace NotificationService

/-- The win notice handler, and the record that it broadcasts. -/
def winNotice (s : NotificationService) (notice : WinNotice) :
    Except Fault (NotificationService × Option CampaignBudget) :=
  match notice.campaignId, notice.price with
  | some campaignId, some price => do
      let budgets ← s.cache.retrieve campaignId
      match budgets with
      | [] => pure (s, none)
      | budget :: _ =>
          let budget := budget.updatePrice price
          let status :=
            { winNoticeCount := s.status.winNoticeCount + 1
              dayBudgetLimit := budget.dayBudgetLimit
              totalSpentAmout := budget.dayBudgetSpent }
          let (cache, _) ← s.cache.updateSame budget campaignId
          pure ({ cache, status }, some budget)
  | _, _ => pure (s, none)

/-- The notices one after the other, and what each of them broadcasts. -/
def winNotices (s : NotificationService) :
    List WinNotice → Except Fault (NotificationService × List (Option CampaignBudget))
  | [] => .ok (s, [])
  | notice :: notices => do
      let (s, first) ← s.winNotice notice
      let (s, sent) ← winNotices s notices
      pure (s, first :: sent)

end NotificationService

/-- A notice of a price for a campaign. -/
def WinNotice.charge (notice : WinNotice) : Option (UInt32 × UInt64) :=
  match notice.campaignId, notice.price with
  | some campaignId, some price => some (campaignId, price)
  | _, _ => none

def WinNotice.priceFor (notice : WinNotice) (campaignId : UInt32) : Option UInt64 :=
  notice.charge.bind fun charge => if charge.1 = campaignId then some charge.2 else none

/-- The prices noticed for a campaign. -/
def pricesOf (campaignId : UInt32) (notices : List WinNotice) : List UInt64 :=
  notices.filterMap fun notice => notice.priceFor campaignId

section Table

variable {t : Table UInt32 CampaignBudget} {campaignId : UInt32} {price : UInt64}
  {notice : WinNotice}

/-- The record with the price charged to it, if the campaign is there. -/
def charged (t : Table UInt32 CampaignBudget) (charge : UInt32 × UInt64) :
    Option CampaignBudget :=
  (t charge.1).map fun budget => budget.updatePrice charge.2

def noticed (t : Table UInt32 CampaignBudget) (notice : WinNotice) : Table UInt32 CampaignBudget :=
  match notice.charge with
  | none => t
  | some charge =>
      match charged t charge with
      | none => t
      | some budget => t.replace charge.1 budget

/-- What is broadcast of a notice. -/
def broadcast (t : Table UInt32 CampaignBudget) (notice : WinNotice) : Option CampaignBudget :=
  notice.charge.bind (charged t)

def broadcasts (t : Table UInt32 CampaignBudget) : List WinNotice → List (Option CampaignBudget)
  | [] => []
  | notice :: notices => broadcast t notice :: broadcasts (noticed t notice) notices

theorem noticed_at (t : Table UInt32 CampaignBudget) (notice : WinNotice) (campaignId : UInt32) :
    noticed t notice campaignId =
      (t campaignId).map fun budget => budget.wins (notice.priceFor campaignId).toList := by
  have others : (t campaignId).map (fun budget => budget.wins []) = t campaignId :=
    Option.map_id_apply
  unfold noticed WinNotice.priceFor
  cases notice.charge with
  | none => exact others.symm
  | some charge =>
      obtain ⟨noticedId, price⟩ := charge
      rw [Option.bind_some]
      by_cases same : noticedId = campaignId
      · subst same
        cases there : t noticedId with
        | none => simp [charged, there]
        | some budget => simp [charged, there, CampaignBudget.wins]
      · rw [if_neg same]
        cases there : t noticedId with
        | none => simpa [charged, there] using others.symm
        | some budget => simpa [charged, there, Table.replace_other (Ne.symm same)] using others.symm

theorem pricesOf_cons (campaignId : UInt32) (notice : WinNotice) (notices : List WinNotice) :
    pricesOf campaignId (notice :: notices) =
      (notice.priceFor campaignId).toList ++ pricesOf campaignId notices := by
  rw [pricesOf, List.filterMap_cons]
  cases notice.priceFor campaignId <;> rfl

theorem wins_append (budget : CampaignBudget) (prices more : List UInt64) :
    budget.wins (prices ++ more) = (budget.wins prices).wins more :=
  List.foldl_append

/-- The record of a campaign takes the prices noticed for it, in their order. -/
theorem noticed_all_at (t : Table UInt32 CampaignBudget) (notices : List WinNotice)
    (campaignId : UInt32) :
    notices.foldl noticed t campaignId =
      (t campaignId).map fun budget => budget.wins (pricesOf campaignId notices) := by
  induction notices generalizing t with
  | nil => exact Option.map_id_apply.symm
  | cons notice notices ih =>
      rw [List.foldl_cons, ih, noticed_at, Option.map_map, pricesOf_cons]
      congr 1
      funext budget
      exact (wins_append budget _ _).symm

end Table

section Service

variable {s : NotificationService} {t : Table UInt32 CampaignBudget}

theorem winNotice_holds (holds : s.cache.Holds t) (notice : WinNotice) :
    ∃ s', s.winNotice notice = .ok (s', broadcast t notice) ∧ s'.cache.Holds (noticed t notice) := by
  obtain ⟨price, campaignId⟩ := notice
  unfold NotificationService.winNotice noticed broadcast
  cases campaignId with
  | none => exact ⟨s, rfl, holds⟩
  | some campaignId =>
      cases price with
      | none => exact ⟨s, rfl, holds⟩
      | some price =>
          simp only [WinNotice.charge, Option.bind_some, charged,
            CampaignCache.retrieve_holds holds, bind, Except.bind]
          cases there : t campaignId with
          | none => exact ⟨s, rfl, holds⟩
          | some budget =>
              obtain ⟨cache, success, run, after⟩ :=
                CampaignCache.updateSame_holds holds (budget.updatePrice price) campaignId
              simp only [Option.toList_some, run]
              exact ⟨_, rfl, after⟩

theorem winNotices_holds (holds : s.cache.Holds t) (notices : List WinNotice) :
    ∃ s', s.winNotices notices = .ok (s', broadcasts t notices) ∧
      s'.cache.Holds (notices.foldl noticed t) := by
  induction notices generalizing s t with
  | nil => exact ⟨s, rfl, holds⟩
  | cons notice notices ih =>
      obtain ⟨next, first, after⟩ := winNotice_holds holds notice
      obtain ⟨last, rest, final⟩ := ih after
      refine ⟨last, ?_, final⟩
      rw [NotificationService.winNotices, first]
      simp only [bind, Except.bind, rest]
      rfl

end Service

section Accounts

/-- What becomes of a record charged with these prices: its sums, as long as they fit, and a
    limit that stops at zero. -/
def Accounted (prices : List UInt64) : Option CampaignBudget → Option CampaignBudget → Prop
  | some b, some b' =>
      (b.dayBudgetLimit.toNat + b.dayBudgetSpent.toNat < 2 ^ 64 →
        b.dayBudgetSpent.toNat + b.dayBudgetOverdraft.toNat + total prices < 2 ^ 64 →
        b'.dayBudgetLimit.toNat + b'.dayBudgetSpent.toNat =
            b.dayBudgetLimit.toNat + b.dayBudgetSpent.toNat ∧
          b'.dayBudgetSpent.toNat + b'.dayBudgetOverdraft.toNat =
            b.dayBudgetSpent.toNat + b.dayBudgetOverdraft.toNat + total prices) ∧
        b'.dayBudgetLimit.toNat = b.dayBudgetLimit.toNat - total prices ∧ (prices = [] → b' = b)
  | none, none => True
  | _, _ => False

theorem wins_accounted (b : CampaignBudget) (prices : List UInt64) :
    Accounted prices (some b) (some (b.wins prices)) := by
  have limit := b.wins_limit prices
  refine ⟨?_, limit, ?_⟩
  · intro fits charges
    have spent := b.wins_spent prices fits
    have overdraft := b.wins_overdraft prices (by omega)
    omega
  · rintro rfl
    rfl

/-- After any notices, every campaign of the cache is there and has taken its charges. -/
theorem notices_accounted
    (container : MultiIndex (Entity.key : Entity UInt32 CampaignBudget → UInt32) campaignPart)
    (status : NotificationServiceStatus) (notices : List WinNotice) :
    ∃ s sent, NotificationService.winNotices { cache := budgetCache container, status } notices =
        .ok (s, sent) ∧
      ∀ campaignId, Accounted (pricesOf campaignId notices)
        ((budgetCache container).table campaignId) (s.cache.table campaignId) := by
  obtain ⟨s, run, after⟩ := winNotices_holds (s := { cache := budgetCache container, status })
    (budgetCache_holds container) notices
  refine ⟨s, _, run, ?_⟩
  intro campaignId
  rw [(budgetCache_holds container).contents, after.contents, noticed_all_at]
  cases lookup container.entries campaignId with
  | none => trivial
  | some b => exact wins_accounted b _

/-- A budget of ten that has paid four and then nine: three of the nine are overdrawn. -/
example : (⟨1, 10, 0, 0, ⟨.cpc, 4⟩⟩ : CampaignBudget).wins [4, 9] = ⟨1, 0, 10, 3, ⟨.cpc, 4⟩⟩ := by
  decide

end Accounts

end VanillaRtb.Campaign
