import VanillaRtb.Lib.StdAlgorithm
import VanillaRtb.OpenRtb

/-! # Collecting the responses of several bidders

Responses are kept in arrival order until `response` sorts them in place and
answers with the first. The comparator looks at the first bid of the first seat
only; a response without such a bid is placed after every response with one.
-/

namespace VanillaRtb.Exchange

open Lib OpenRtb

/-- `multibidder_collector`. The observers that `add` and `response` call are left out. -/
structure Collector where
  numBidders : Int
  responses : List (BidResponse StdString) := []

/-- The bid that stands for a response: the first one of its first seat. -/
def firstBid (r : BidResponse StdString) : Option (Bid StdString) :=
  r.seatbid.head?.bind fun seat => seat.bid.head?

def firstPrice (r : BidResponse StdString) : Option Float := (firstBid r).map Bid.price

/-- The comparator of `response`. -/
def comesFirst (first second : BidResponse StdString) : Bool :=
  match firstBid first with
  | none => false
  | some bid =>
      match firstBid second with
      | none => true
      | some other => other.price < bid.price

namespace Collector

def add (c : Collector) (bid : BidResponse StdString) : Collector :=
  { c with responses := c.responses ++ [bid] }

/-- The count is compared as a size, so a negative number of bidders is never reached. -/
def done (c : Collector) : Bool := (c.responses.length : Int) == c.numBidders

def clear (c : Collector) : Collector := { c with responses := [] }

def response (s : StdSort) (c : Collector) : BidResponse StdString × Collector :=
  match s.sort comesFirst c.responses with
  | [] => ({}, c)
  | best :: rest => (best, { c with responses := best :: rest })

@[simp] theorem add_responses (c : Collector) (bid : BidResponse StdString) :
    (c.add bid).responses = c.responses ++ [bid] := rfl

end Collector

/-- Higher prices first. -/
def higher (p q : Float) : Bool := q < p

theorem comesFirst_eq (a b : BidResponse StdString) :
    comesFirst a b = optionalBefore higher (firstPrice a) (firstPrice b) := by
  unfold comesFirst firstPrice
  cases firstBid a with
  | none => rfl
  | some bid => cases firstBid b <;> rfl

/-- The comparator is as good as the order of the first prices that are there. -/
theorem comesFirst_strictWeak {rs : List (BidResponse StdString)}
    (prices : StrictWeakOn higher (rs.filterMap firstPrice)) :
    StrictWeakOn comesFirst rs :=
  .of_optional firstPrice comesFirst_eq prices

/-- The response that is chosen has been collected and no collected one comes before it. -/
theorem Collector.response_best (s : StdSort) (c : Collector) (nonempty : c.responses ≠ [])
    (order : StrictWeakOn comesFirst c.responses) :
    (c.response s).1 ∈ c.responses ∧ ∀ r ∈ c.responses, comesFirst r (c.response s).1 = false := by
  unfold Collector.response
  cases sorted : s.sort comesFirst c.responses with
  | nil => exact absurd sorted (s.sort_ne_nil order nonempty)
  | cons best rest => exact s.head_first order sorted

/-- Where some collected response bids, the chosen one bids and no first price is higher. -/
theorem Collector.response_price (s : StdSort) (c : Collector)
    (prices : StrictWeakOn higher (c.responses.filterMap firstPrice))
    (bids : p ∈ c.responses.filterMap firstPrice) :
    ∃ m ∈ c.responses.filterMap firstPrice, firstPrice (c.response s).1 = some m ∧
      ∀ q ∈ c.responses.filterMap firstPrice, ¬ m < q := by
  have order := comesFirst_strictWeak prices
  obtain ⟨r, hr, hp⟩ := List.mem_filterMap.mp bids
  have nonempty : c.responses ≠ [] := List.ne_nil_of_mem hr
  obtain ⟨inside, first⟩ := c.response_best s nonempty order
  have notAfter := first r hr
  cases hm : firstPrice (c.response s).1 with
  | none => simp [comesFirst_eq, hp, hm, optionalBefore] at notAfter
  | some m =>
      refine ⟨m, List.mem_filterMap.mpr ⟨_, inside, hm⟩, rfl, ?_⟩
      intro q hq
      obtain ⟨r', hr', hq⟩ := List.mem_filterMap.mp hq
      have := first r' hr'
      simpa [comesFirst_eq, hq, hm, optionalBefore, higher] using this

end VanillaRtb.Exchange
