import VanillaRtb.Bidder.AdSelector
import VanillaRtb.Core.Bidder

/-! # The price of the ad that is selected

A bid has the price its ad is authorized for, and the maximum of the ad where it was not
authorized. The comparator of the selection uses what is authorized only if both ads are, so it
may put an ad above another that is bid on for more, and which of the ads it ends with depends
on their order.
-/

namespace VanillaRtb.Bidder

open Lib Matchers

/-- What a bid on the ad costs, in micro units. -/
def effectivePrice (ad : Ad) : UInt64 := ad.authBidMicros.getD ad.maxBidMicros

theorem offer_price (imp : OpenRtb.Impression StdString) (ad : Ad) (bidid : StdString) :
    (Core.Bidder.offer imp ad bidid).price = Core.price (effectivePrice ad) := by
  rw [Core.Bidder.offer, effectivePrice]
  cases ad.authBidMicros <;> rfl

/-- The ad that is picked has the highest price, which is that of the pick out of any order of
    the ads. -/
def PicksHighest (pick : List Ad → Option Ad) (ads : List Ad) : Prop :=
  ∃ best, pick ads = some best ∧ best ∈ ads ∧
    (∀ ad ∈ ads, effectivePrice ad ≤ effectivePrice best) ∧
    ∀ ads', ads'.Perm ads → (pick ads').map effectivePrice = some (effectivePrice best)

/-- No climb of the comparator that leaves no other ad above all of it ends below the highest
    price. -/
def ClimbsHighest (ads : List Ad) : Prop :=
  ∀ best, Reaches Core.bidsLess ads best → ∀ ad ∈ ads, effectivePrice ad ≤ effectivePrice best

theorem picksHighest_iff {pick : List Ad → Option Ad}
    (scans : ∀ ads, ads ≠ [] → pick ads = maxElement Core.bidsLess ads) {ads : List Ad}
    (some_ : ads ≠ []) : PicksHighest pick ads ↔ ClimbsHighest ads := by
  have ordered {ads' : List Ad} (order : ads'.Perm ads) :
      pick ads' = maxElement Core.bidsLess ads' := by
    refine scans ads' ?_
    rintro rfl
    exact some_ order.nil_eq.symm
  constructor
  · rintro ⟨best, -, -, highest, same⟩ reached climb ad given
    obtain ⟨ads', order, found⟩ := reaches_iff.mp climb
    have price := same ads' order
    rw [ordered order, found] at price
    exact Option.some.inj price ▸ highest ad given
  · intro climbs
    have best_of {ads' : List Ad} (order : ads'.Perm ads) :
        ∃ best, maxElement Core.bidsLess ads' = some best ∧ best ∈ ads ∧
          ∀ ad ∈ ads, effectivePrice ad ≤ effectivePrice best := by
      cases found : maxElement Core.bidsLess ads' with
      | none =>
          obtain rfl := maxElement_eq_none.mp found
          exact absurd order.nil_eq.symm some_
      | some best =>
          exact ⟨best, rfl, order.subset (maxElement_mem found),
            climbs best (reaches_iff.mpr ⟨ads', order, found⟩)⟩
    obtain ⟨best, found, inside, highest⟩ := best_of (List.Perm.refl ads)
    refine ⟨best, (ordered (List.Perm.refl ads)).trans found, inside, highest, ?_⟩
    intro ads' order
    obtain ⟨best', found', inside', highest'⟩ := best_of order
    rw [ordered order, found', Option.map_some]
    exact congrArg some (UInt64.le_antisymm (highest best' inside') (highest' best inside))

/-- A comparator that compares what the bids cost, as it does among ads that are all authorized
    or all not. -/
theorem climbsHighest_of_priced {ads : List Ad}
    (priced : ∀ a ∈ ads, ∀ b ∈ ads,
      Core.bidsLess a b = decide (effectivePrice a < effectivePrice b)) :
    ClimbsHighest ads := by
  intro best climb ad given
  obtain ⟨ads', order, found⟩ := reaches_iff.mp climb
  have strict : StrictWeakOn Core.bidsLess ads' := by
    refine StrictWeakOn.of_key (fun ad => (effectivePrice ad).toNat) ?_
    intro a ha b hb
    rw [priced a (order.subset ha) b (order.subset hb), decide_eq_true_iff,
      UInt64.lt_iff_toNat_lt]
  have inside := order.subset (maxElement_mem found)
  have notAbove := maxElement_max strict found ad (order.symm.subset given)
  rw [priced best inside ad given, decide_eq_false_iff_not] at notAbove
  exact UInt64.not_lt.mp notAbove

/-- The ad of the highest price is picked, whatever the order, exactly where every climb of the
    comparator ends with one. -/
theorem max_bid_iff {ads : List Ad} (some_ : ads ≠ []) :
    (PicksHighest Core.calculateMaxBid ads ↔ ClimbsHighest ads) ∧
      (PicksHighest AdSelector.maxBid ads ↔ ClimbsHighest ads) := by
  constructor
  · refine picksHighest_iff ?_ some_
    intro ads some_
    rw [Core.calculateMaxBid, if_neg]
    exact mt List.isEmpty_iff.mp some_
  · exact picksHighest_iff (fun ads _ => AdSelector.maxBid_eq ads) some_

/-- Ads that the comparator of their maxima would put the other way round. -/
def bothAuthorized : List Ad :=
  [{ maxBidMicros := 5, authBidMicros := some 3 }, { maxBidMicros := 4, authBidMicros := some 4 }]

theorem max_bid_bothAuthorized :
    PicksHighest Core.calculateMaxBid bothAuthorized ∧
      PicksHighest AdSelector.maxBid bothAuthorized := by
  have climbs : ClimbsHighest bothAuthorized := climbsHighest_of_priced (by decide)
  exact ⟨(max_bid_iff (by decide)).1.mpr climbs, (max_bid_iff (by decide)).2.mpr climbs⟩

/-- One ad is authorized for less than what the other costs. -/
theorem mixed_ads_not_highest :
    ¬ ∀ ads : List Ad, ads ≠ [] →
        PicksHighest Core.calculateMaxBid ads ∧ PicksHighest AdSelector.maxBid ads := by
  intro all
  obtain ⟨best, found, -, highest, -⟩ :=
    (all [{ maxBidMicros := 200, authBidMicros := some 50 }, { maxBidMicros := 100 }]
      (by decide)).1
  cases found
  exact absurd (highest { maxBidMicros := 100 } (by decide)) (by decide)

end VanillaRtb.Bidder
