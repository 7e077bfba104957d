import Mathlib

/-! # Day budgets of campaigns

A win takes its price out of the limit and books it as spent, so the limit is what
is left for the day. Authorization reads the limit as the budget of the whole day
and subtracts what was spent once more. The two readings agree as long as nothing
was spent, and afterwards only where twice the spending leaves room for a full bid.
-/

namespace VanillaRtb.Campaign

/-- Values without a name behave as `undefined` does. -/
inductive MetricType where
  | undefined
  | cpm
  | cpc
  | cpa
  deriving DecidableEq, Repr

namespace CampaignBudget

structure Metric where
  type : MetricType := .undefined
  value : UInt64 := 0
  deriving DecidableEq, Repr

end CampaignBudget

/-- Amounts are micro dollars. -/
structure CampaignBudget where
  campaignId : UInt32 := 0
  dayBudgetLimit : UInt64 := 0
  dayBudgetSpent : UInt64 := 0
  dayBudgetOverdraft : UInt64 := 0
  metric : CampaignBudget.Metric := {}
  deriving DecidableEq, Repr

namespace CampaignBudget

/-- `update(types::budget)`: a new limit. -/
def updateBudget (b : CampaignBudget) (value : UInt64) : CampaignBudget :=
  { b with dayBudgetLimit := value }

/-- `update(types::price)`: a win. -/
def updatePrice (b : CampaignBudget) (value : UInt64) : CampaignBudget :=
  let minValue := min b.dayBudgetLimit value
  { b with
    dayBudgetLimit := b.dayBudgetLimit - minValue
    dayBudgetSpent := b.dayBudgetSpent + minValue
    dayBudgetOverdraft :=
      if minValue < value then b.dayBudgetOverdraft + (value - minValue)
      else b.dayBudgetOverdraft }

/-- The wins of a day, in the order they are notified. -/
def wins (b : CampaignBudget) (prices : List UInt64) : CampaignBudget :=
  prices.foldl updatePrice b

/-- What the metric asks for one impression, where it is supported. -/
def Metric.bid : Metric → Option UInt64
  | ⟨.cpm, value⟩ => some (value / 1000)
  | ⟨.cpc, value⟩ => some value
  | _ => none

end CampaignBudget

namespace BudgetManager

def authorize (budget : CampaignBudget) : UInt64 :=
  if budget.dayBudgetSpent ≥ budget.dayBudgetLimit then
    0 -- no bid HTTP/204 or empty seatbid
  else
    match budget.metric.type with
    | .cpm => min (budget.dayBudgetLimit - budget.dayBudgetSpent) (budget.metric.value / 1000)
    | .cpc => min (budget.dayBudgetLimit - budget.dayBudgetSpent) budget.metric.value
    | _ => 0

end BudgetManager

/-- Micro dollars spent by wins at these prices. -/
def total (prices : List UInt64) : Nat := (prices.map UInt64.toNat).sum

/-- What a day budget allows for one impression once `spent` is gone from it. -/
def allowance (dayBudget spent bid : Nat) : Nat :=
  if spent < dayBudget then min (dayBudget - spent) bid else 0

theorem min_toNat (a b : UInt64) : (min a b).toNat = min a.toNat b.toNat := by
  change (if a ≤ b then a else b).toNat = _
  split
  · rename_i below
    exact (Nat.min_eq_left (UInt64.le_iff_toNat_le.mp below)).symm
  · rename_i above
    rw [UInt64.le_iff_toNat_le] at above
    omega

namespace CampaignBudget

theorem updatePrice_limit (b : CampaignBudget) (value : UInt64) :
    (b.updatePrice value).dayBudgetLimit.toNat = b.dayBudgetLimit.toNat - value.toNat := by
  have inside : min b.dayBudgetLimit value ≤ b.dayBudgetLimit := by
    rw [UInt64.le_iff_toNat_le, min_toNat]
    omega
  simp only [updatePrice, UInt64.toNat_sub_of_le _ _ inside, min_toNat]
  omega

theorem updatePrice_spent (b : CampaignBudget) (value : UInt64)
    (fits : b.dayBudgetLimit.toNat + b.dayBudgetSpent.toNat < 2 ^ 64) :
    (b.updatePrice value).dayBudgetSpent.toNat =
      b.dayBudgetSpent.toNat + min b.dayBudgetLimit.toNat value.toNat := by
  simp only [updatePrice, UInt64.toNat_add, min_toNat]
  omega

/-- What the limit cannot pay is overdrawn. -/
theorem updatePrice_overdraft (b : CampaignBudget) (value : UInt64)
    (fits : b.dayBudgetOverdraft.toNat + (value.toNat - b.dayBudgetLimit.toNat) < 2 ^ 64) :
    (b.updatePrice value).dayBudgetOverdraft.toNat =
      b.dayBudgetOverdraft.toNat + (value.toNat - b.dayBudgetLimit.toNat) := by
  have least := min_toNat b.dayBudgetLimit value
  simp only [updatePrice]
  split
  · rename_i short
    have left := UInt64.toNat_sub_of_le _ _ (UInt64.le_of_lt short)
    rw [UInt64.toNat_add, left]
    omega
  · rename_i enough
    rw [UInt64.lt_iff_toNat_lt] at enough
    omega

@[simp] theorem wins_metric (b : CampaignBudget) (prices : List UInt64) :
    (b.wins prices).metric = b.metric := by
  induction prices generalizing b with
  | nil => rfl
  | cons p rest ih => exact ih (b.updatePrice p)

theorem wins_limit (b : CampaignBudget) (prices : List UInt64) :
    (b.wins prices).dayBudgetLimit.toNat = b.dayBudgetLimit.toNat - total prices := by
  induction prices generalizing b with
  | nil => rfl
  | cons p rest ih =>
      have step := ih (b.updatePrice p)
      rw [updatePrice_limit] at step
      simp only [wins, List.foldl_cons, total, List.map_cons, List.sum_cons] at step ⊢
      omega

theorem wins_spent (b : CampaignBudget) (prices : List UInt64)
    (fits : b.dayBudgetLimit.toNat + b.dayBudgetSpent.toNat < 2 ^ 64) :
    (b.wins prices).dayBudgetSpent.toNat =
      b.dayBudgetSpent.toNat + min b.dayBudgetLimit.toNat (total prices) := by
  induction prices generalizing b with
  | nil => simp [wins, total]
  | cons p rest ih =>
      have limit := updatePrice_limit b p
      have spent := updatePrice_spent b p fits
      -- what leaves the limit is booked as spent, so the sum stays in range
      have step := ih (b.updatePrice p) (by omega)
      rw [limit, spent] at step
      simp only [wins, List.foldl_cons, total, List.map_cons, List.sum_cons] at step ⊢
      omega

/-- What leaves the limit and what is overdrawn make up the prices. -/
theorem wins_overdraft (b : CampaignBudget) (prices : List UInt64)
    (fits : b.dayBudgetOverdraft.toNat + total prices < 2 ^ 64) :
    (b.wins prices).dayBudgetOverdraft.toNat =
      b.dayBudgetOverdraft.toNat + (total prices - b.dayBudgetLimit.toNat) := by
  induction prices generalizing b with
  | nil => simp [wins, total]
  | cons p rest ih =>
      simp only [total, List.map_cons, List.sum_cons] at fits
      have limit := updatePrice_limit b p
      have overdraft := updatePrice_overdraft b p (by omega)
      have step := ih (b.updatePrice p) (by rw [overdraft, total]; omega)
      rw [limit, overdraft] at step
      simp only [wins, List.foldl_cons, total, List.map_cons, List.sum_cons] at step ⊢
      omega

/-- A record that `total` was charged to; nothing but the limit stops. -/
def charge (b : CampaignBudget) (total : Nat) : CampaignBudget :=
  { b with
    dayBudgetLimit := UInt64.ofNat (b.dayBudgetLimit.toNat - total)
    dayBudgetSpent := b.dayBudgetSpent + UInt64.ofNat (min b.dayBudgetLimit.toNat total)
    dayBudgetOverdraft := b.dayBudgetOverdraft + UInt64.ofNat (total - b.dayBudgetLimit.toNat) }

theorem updatePrice_eq_charge (b : CampaignBudget) (value : UInt64) :
    b.updatePrice value = b.charge value.toNat := by
  have least := min_toNat b.dayBudgetLimit value
  have limit : (b.updatePrice value).dayBudgetLimit = (b.charge value.toNat).dayBudgetLimit := by
    rw [← UInt64.toNat_inj, updatePrice_limit, charge, UInt64.toNat_ofNat_of_lt']
    exact lt_of_le_of_lt (Nat.sub_le _ _) b.dayBudgetLimit.toNat_lt
  have spent : (b.updatePrice value).dayBudgetSpent = (b.charge value.toNat).dayBudgetSpent := by
    simp only [updatePrice, charge, ← least, UInt64.ofNat_toNat]
  have overdraft : (b.updatePrice value).dayBudgetOverdraft =
      (b.charge value.toNat).dayBudgetOverdraft := by
    simp only [updatePrice, charge]
    split
    · rename_i short
      have left := UInt64.toNat_sub_of_le _ _ (UInt64.le_of_lt short)
      rw [← UInt64.ofNat_toNat (x := value - min b.dayBudgetLimit value), left, least]
      congr 2
      omega
    · rename_i enough
      rw [UInt64.lt_iff_toNat_lt] at enough
      have none : value.toNat - b.dayBudgetLimit.toNat = 0 := by omega
      rw [none]
      exact (UInt64.add_zero _).symm
  unfold updatePrice charge
  rw [CampaignBudget.mk.injEq]
  exact ⟨rfl, limit, spent, overdraft, rfl⟩

theorem charge_charge (b : CampaignBudget) (m n : Nat) :
    (b.charge m).charge n = b.charge (m + n) := by
  have left : (UInt64.ofNat (b.dayBudgetLimit.toNat - m)).toNat = b.dayBudgetLimit.toNat - m :=
    UInt64.toNat_ofNat_of_lt' (lt_of_le_of_lt (Nat.sub_le _ _) b.dayBudgetLimit.toNat_lt)
  simp only [charge, CampaignBudget.mk.injEq, left, UInt64.add_assoc, ← UInt64.ofNat_add]
  refine ⟨trivial, ?_, ?_, ?_, trivial⟩
  · rw [Nat.sub_sub]
  · congr 2
    omega
  · congr 2
    omega

theorem wins_eq_charge (b : CampaignBudget) (prices : List UInt64) :
    b.wins prices = b.charge (total prices) := by
  induction prices generalizing b with
  | nil => simp [wins, total, charge]
  | cons p rest ih =>
      have step := ih (b.updatePrice p)
      rw [updatePrice_eq_charge, charge_charge] at step
      rw [wins, List.foldl_cons, updatePrice_eq_charge]
      exact step

end CampaignBudget

namespace BudgetManager

/-- Authorization bounds the bid by the limit less the spending. -/
theorem authorize_toNat {budget : CampaignBudget} (supported : budget.metric.bid = some bid) :
    (authorize budget).toNat =
      allowance budget.dayBudgetLimit.toNat budget.dayBudgetSpent.toNat bid.toNat := by
  unfold authorize allowance
  by_cases gone : budget.dayBudgetSpent ≥ budget.dayBudgetLimit
  · have := UInt64.le_iff_toNat_le.mp gone
    rw [if_pos gone, if_neg (by omega)]
    rfl
  · have room : budget.dayBudgetSpent.toNat < budget.dayBudgetLimit.toNat := by
      rw [ge_iff_le, UInt64.le_iff_toNat_le] at gone
      omega
    have left := UInt64.toNat_sub_of_le _ _ (UInt64.le_iff_toNat_le.mpr (Nat.le_of_lt room))
    rw [if_neg gone, if_pos room]
    cases hm : budget.metric with | mk type value =>
    cases type with
    | undefined => simp [hm, CampaignBudget.Metric.bid] at supported
    | cpa => simp [hm, CampaignBudget.Metric.bid] at supported
    | cpm =>
        simp only [hm, CampaignBudget.Metric.bid, Option.some.injEq] at supported
        simp only [min_toNat, left, supported]
    | cpc =>
        simp only [hm, CampaignBudget.Metric.bid, Option.some.injEq] at supported
        simp only [min_toNat, left, supported]

/-- An unsupported metric is never authorized. -/
theorem authorize_unsupported {budget : CampaignBudget} (unsupported : budget.metric.bid = none) :
    authorize budget = 0 := by
  unfold authorize
  split
  · rfl
  · cases hm : budget.metric with | mk type value =>
    cases type with
    | undefined => rfl
    | cpa => rfl
    | cpm => simp [hm, CampaignBudget.Metric.bid] at unsupported
    | cpc => simp [hm, CampaignBudget.Metric.bid] at unsupported

end BudgetManager

/-- A campaign at the start of its day. -/
def dayStart (campaignId : UInt32) (dayBudget : UInt64) (metric : CampaignBudget.Metric) :
    CampaignBudget :=
  { campaignId, dayBudgetLimit := dayBudget, metric }

/-- After the wins, authorization allows what the day budget has left. -/
def Paced (campaignId : UInt32) (dayBudget : UInt64) (metric : CampaignBudget.Metric)
    (bid : UInt64) (prices : List UInt64) : Prop :=
  (BudgetManager.authorize ((dayStart campaignId dayBudget metric).wins prices)).toNat =
    allowance dayBudget.toNat (total prices) bid.toNat

instance : Decidable (Paced campaignId dayBudget metric bid prices) :=
  inferInstanceAs (Decidable (_ = _))

/-- What is authorized after the wins: the spending counts twice. -/
theorem authorize_wins (campaignId : UInt32) (dayBudget : UInt64)
    {metric : CampaignBudget.Metric} (supported : metric.bid = some bid) (prices : List UInt64) :
    (BudgetManager.authorize ((dayStart campaignId dayBudget metric).wins prices)).toNat =
      allowance dayBudget.toNat (2 * total prices) bid.toNat := by
  have start := CampaignBudget.wins_spent (dayStart campaignId dayBudget metric) prices
    (by simpa [dayStart] using dayBudget.toNat_lt)
  rw [BudgetManager.authorize_toNat (by simpa [dayStart] using supported),
    CampaignBudget.wins_limit, start]
  simp only [dayStart, allowance, UInt64.toNat_zero]
  split <;> split <;> omega

/-- Pacing is right exactly while nothing is spent, once the budget is gone, where
    nothing is asked for, and where twice the spending leaves a full bid. -/
theorem paced_iff (campaignId : UInt32) (dayBudget : UInt64) (metric : CampaignBudget.Metric)
    (supported : metric.bid = some bid) (prices : List UInt64) :
    Paced campaignId dayBudget metric bid prices ↔
      total prices = 0 ∨ dayBudget.toNat ≤ total prices ∨ bid = 0 ∨
        2 * total prices + bid.toNat ≤ dayBudget.toNat := by
  have nothing : bid = 0 ↔ bid.toNat = 0 := by
    rw [← UInt64.toNat_inj, UInt64.toNat_zero]
  rw [Paced, authorize_wins campaignId dayBudget supported, nothing, allowance, allowance]
  split <;> split <;> omega

/-- A day budget of ten that has paid three allows bids of four. -/
theorem paced_three_of_ten :
    (⟨.cpc, 4⟩ : CampaignBudget.Metric).bid = some 4 ∧ Paced 1 10 ⟨.cpc, 4⟩ 4 [1, 2] :=
  ⟨rfl, (paced_iff 1 10 ⟨.cpc, 4⟩ rfl [1, 2]).mpr (by decide)⟩

/-- Half of a day budget spent stops the campaign. -/
theorem half_spent_stops : ¬ Paced 1 10 ⟨.cpc, 10⟩ 10 [5] := by
  decide

end VanillaRtb.Campaign
