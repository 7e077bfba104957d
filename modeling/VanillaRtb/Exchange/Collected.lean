import VanillaRtb.Exchange.Collector

/-! # What a collector answers after any calls

A collector is asked to add responses and to answer, in any order and as often as one likes.
Answering sorts the responses in place, so that they are always those that were added, and the
answer is the one of them with the highest first price.
-/

namespace VanillaRtb.Exchange

open Lib OpenRtb

inductive CollectorCall where
  | add (bid : BidResponse StdString)
  | response

/-- The responses that the calls add. -/
def added (calls : List CollectorCall) : List (BidResponse StdString) :=
  calls.filterMap fun call =>
    match call with
    | .add bid => some bid
    | .response => none

namespace Collector

variable (s : StdSort) (c : Collector)

def call : CollectorCall → Collector
  | .add bid => c.add bid
  | .response => (c.response s).2

def callAll (calls : List CollectorCall) : Collector := calls.foldl (call s) c

variable {s c}

/-- Answering loses and repeats no response. -/
theorem response_perm (order : StrictWeakOn comesFirst c.responses) :
    (c.response s).2.responses.Perm c.responses := by
  have sorted := s.perm order
  unfold response
  cases found : s.sort comesFirst c.responses with
  | nil => exact List.Perm.refl _
  | cons best rest =>
      rw [found] at sorted
      exact sorted

theorem callAll_perm {calls : List CollectorCall}
    (order : StrictWeakOn comesFirst (c.responses ++ added calls)) :
    (callAll s c calls).responses.Perm (c.responses ++ added calls) := by
  induction calls generalizing c with
  | nil =>
      rw [added, List.filterMap_nil, List.append_nil]
      exact List.Perm.refl _
  | cons call rest ih =>
      cases call with
      | add bid =>
          have split : (c.add bid).responses ++ added rest =
              c.responses ++ added (.add bid :: rest) := List.append_assoc _ _ _
          rw [← split] at order ⊢
          exact ih order
      | response =>
          change StrictWeakOn comesFirst (c.responses ++ added rest) at order
          have kept := response_perm (s := s) (order.subset (List.subset_append_left _ _))
          have reordered := kept.append_right (added rest)
          exact (ih (order.subset reordered.subset)).trans reordered

end Collector

/-- Prices that are compared as the elements of a linear order. -/
def Ranked [LinearOrder κ] (rank : Float → κ) (prices : List Float) : Prop :=
  ∀ p ∈ prices, ∀ q ∈ prices, p < q ↔ rank p < rank q

theorem Ranked.strictWeak [LinearOrder κ] {rank : Float → κ} {prices : List Float}
    (ranked : Ranked rank prices) : StrictWeakOn higher prices := by
  refine StrictWeakOn.of_key (fun p => OrderDual.toDual (rank p)) ?_
  intro p hp q hq
  rw [OrderDual.toDual_lt_toDual, ← ranked q hq p hp]
  exact decide_eq_true_iff

/-- The answer for what was collected: one of the highest first price where there is one, and a
    default one only where nothing was collected. -/
structure Selected (responses : List (BidResponse StdString)) (r : BidResponse StdString) :
    Prop where
  collected : responses ≠ [] → r ∈ responses
  nothing : responses = [] → r = {}
  highest : ∀ p ∈ responses.filterMap firstPrice, ∃ best, firstPrice r = some best ∧ ¬ best < p

theorem Collector.selected {s : StdSort} {c : Collector}
    (prices : StrictWeakOn higher (c.responses.filterMap firstPrice)) :
    Selected c.responses (c.response s).1 := by
  have order := comesFirst_strictWeak prices
  refine ⟨fun nonempty => (c.response_best s nonempty order).1, ?_, ?_⟩
  · intro nothing
    have empty : s.sort comesFirst c.responses = [] := by
      have sorted := s.perm order
      rw [nothing] at sorted ⊢
      exact sorted.eq_nil
    rw [response, empty]
  · intro p bids
    obtain ⟨best, -, chosen, highest⟩ := c.response_price s prices bids
    exact ⟨best, chosen, highest p bids⟩

theorem Selected.perm {responses responses' : List (BidResponse StdString)}
    (order : responses.Perm responses') (selected : Selected responses r) :
    Selected responses' r where
  collected nonempty := by
    refine order.subset (selected.collected ?_)
    rintro rfl
    exact nonempty order.nil_eq.symm
  nothing empty := by
    subst empty
    exact selected.nothing order.eq_nil
  highest p bids := selected.highest p ((order.filterMap firstPrice).symm.subset bids)

/-- However often a collector has answered between the calls of `add`: the comparator is a strict
    weak ordering of what was added, the answer is selected out of it, and all of it is kept. -/
theorem response_selected [LinearOrder κ] (s : StdSort) (numBidders : Int)
    (calls : List CollectorCall) (rank : Float → κ)
    (ranked : Ranked rank ((added calls).filterMap firstPrice)) :
    StrictWeakOn comesFirst (Collector.callAll s ⟨numBidders, []⟩ calls).responses ∧
      Selected (added calls) ((Collector.callAll s ⟨numBidders, []⟩ calls).response s).1 ∧
      ((Collector.callAll s ⟨numBidders, []⟩ calls).response s).2.responses.Perm
        (added calls) := by
  have prices := ranked.strictWeak
  have kept : (Collector.callAll s ⟨numBidders, []⟩ calls).responses.Perm (added calls) :=
    Collector.callAll_perm (comesFirst_strictWeak prices)
  have prices' := prices.subset (kept.filterMap firstPrice).subset
  have order := comesFirst_strictWeak prices'
  exact ⟨order, (Collector.selected prices').perm kept, (Collector.response_perm order).trans kept⟩

/-- A response without a seat, one without a bid, and two with a price. -/
def fourResponses : List CollectorCall :=
  [.add {}, .add { seatbid := [{ bid := [{ price := 1 }] }] }, .response,
    .add { seatbid := [{}] }, .add { seatbid := [{ bid := [{ price := 2 }] }] }]

theorem response_selected_fourResponses :
    StrictWeakOn comesFirst (Collector.callAll .merge ⟨4, []⟩ fourResponses).responses ∧
      Selected (added fourResponses)
        ((Collector.callAll .merge ⟨4, []⟩ fourResponses).response .merge).1 ∧
      ((Collector.callAll .merge ⟨4, []⟩ fourResponses).response .merge).2.responses.Perm
        (added fourResponses) := by
  let rank (p : Float) : Nat := if p < 2 then 1 else 2
  refine response_selected .merge 4 fourResponses rank ?_
  have prices : (added fourResponses).filterMap firstPrice = [1, 2] := rfl
  intro p hp q hq
  rw [prices, List.mem_pair] at hp hq
  rcases hp with rfl | rfl <;> rcases hq with rfl | rfl <;> decide

end VanillaRtb.Exchange
