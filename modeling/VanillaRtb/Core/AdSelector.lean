import VanillaRtb.Lib.StdAlgorithm
import VanillaRtb.Matchers.Ad

/-! # Selecting an ad through a chain of matchers

A chain turns a head key into a list of ads, each matcher feeding the next one. It
stops with no ads at the first matcher whose result is falsy. The default selection
makes an ad up when the chain hands it none, so a selection never comes back empty.
-/

namespace VanillaRtb.Core

open Lib Matchers

/-- Matcher functions that begin with an argument of one type and end in a list of
    ads. A call yields nothing where the matcher throws. -/
inductive Chain (Req Imp : Type) : Type → Type 1 where
  | terminal (f : A → Req → Imp → Option (List Ad)) : Chain Req Imp A
  | link (truthy : B → Bool) (head : A → Req → Imp → Option B) (tail : Chain Req Imp B) :
      Chain Req Imp A

namespace Chain

variable {Req Imp : Type}

/-- `chain_function`: nothing where some matcher throws. -/
def chainFunction (req : Req) (imp : Imp) : {A : Type} → A → Chain Req Imp A → Option (List Ad)
  | _, arg, .terminal terminalFunc => terminalFunc arg req imp
  | _, arg, .link truthy head tail =>
      (head arg req imp).bind fun nextArg =>
        if truthy nextArg then chainFunction req imp nextArg tail
        else some [] -- return_type()

/-- Every matcher before the last returns a truthy value and the last one returns `ads`. -/
inductive Reaches (req : Req) (imp : Imp) : {A : Type} → A → Chain Req Imp A → List Ad → Prop where
  | terminal (returns : f arg req imp = some ads) : Reaches req imp arg (.terminal f) ads
  | link (returns : head arg req imp = some nextArg) (truthful : truthy nextArg = true)
      (rest : Reaches req imp nextArg tail ads) : Reaches req imp arg (.link truthy head tail) ads

/-- The chain runs to its end and the terminal matcher has ads. -/
def matched (chain : Chain Req Imp A) (arg : A) (req : Req) (imp : Imp) : Bool :=
  match chain.chainFunction req imp arg with
  | some (_ :: _) => true
  | _ => false

theorem chainFunction_of_reaches {chain : Chain Req Imp A} (h : Reaches req imp arg chain ads) :
    chain.chainFunction req imp arg = some ads := by
  induction h with
  | terminal returns => exact returns
  | link returns truthful _ ih =>
      simpa only [chainFunction, returns, Option.bind_some, truthful, if_true] using ih

theorem reaches_of_chainFunction {chain : Chain Req Imp A}
    (h : chain.chainFunction req imp arg = some ads) (some_ads : ads ≠ []) :
    Reaches req imp arg chain ads := by
  induction chain with
  | terminal f => exact .terminal h
  | link truthy head tail ih =>
      obtain ⟨nextArg, returns, rest⟩ := Option.bind_eq_some_iff.mp h
      by_cases truthful : truthy nextArg = true
      · rw [if_pos truthful] at rest
        exact .link returns truthful (ih rest)
      · rw [if_neg truthful] at rest
        exact absurd (Option.some.inj rest).symm some_ads

/-- Matching in the words of the matchers themselves. -/
theorem matched_iff {chain : Chain Req Imp A} :
    chain.matched arg req imp = true ↔ ∃ ads, Reaches req imp arg chain ads ∧ ads ≠ [] := by
  unfold matched
  constructor
  · intro h
    split at h
    · rename_i ad ads found
      exact ⟨ad :: ads, reaches_of_chainFunction found (by simp), by simp⟩
    · cases h
  · rintro ⟨ads, reached, some_ads⟩
    rw [chainFunction_of_reaches reached]
    cases ads with
    | nil => exact absurd rfl some_ads
    | cons => rfl

end Chain

/-- The comparator of `calculate_max_bid`. -/
def bidsLess (first second : Ad) : Bool :=
  match first.authBidMicros, second.authBidMicros with
  | some a, some b => a < b
  | _, _ => first.maxBidMicros < second.maxBidMicros

/-- `calculate_max_bid`: a default ad stands in for the best of none. -/
def calculateMaxBid (ads : List Ad) : Option Ad :=
  if ads.isEmpty then some {} else maxElement bidsLess ads

theorem calculateMaxBid_isSome (ads : List Ad) : (calculateMaxBid ads).isSome = true := by
  cases ads <;> rfl

/-- `ad_selector`, with the selection algorithm where one was set. -/
structure AdSelector where
  selectionAlgo : Option (List Ad → Option Ad) := none

/-- `select`: nothing where a matcher throws, else the pointer that was selected. -/
def AdSelector.select (s : AdSelector) (req : Req) (imp : Imp) (head : A)
    (funcs : Chain Req Imp A) : Option (Option Ad) :=
  (funcs.chainFunction req imp head).map fun ads =>
    match s.selectionAlgo with
    | some algo => algo ads
    | none => calculateMaxBid ads

end VanillaRtb.Core
