import VanillaRtb.Core.AdSelector
import VanillaRtb.Lib.Binary64
import VanillaRtb.OpenRtb

/-! # The bidder over a chain of matchers

One call of `bid` walks the impressions of a request and adds a bid for every ad that
is selected. The head key and the matchers of a call are kept in one tuple that every
impression moves from, so what a later impression finds there is a parameter of the
model. Since a selection never comes back empty, an impression that nothing matches
is bid on as well.
-/

namespace VanillaRtb.Core

open OpenRtb Matchers

/-- The head key and the matchers of one call, as the tuple holds them. -/
abbrev Tuple (A : Type) := A × Chain (BidRequest StdString) (Impression StdString) A

/-- Micro units as a price. -/
def price (micros : UInt64) : Float := micros.toFloat / 1000000.0

/-- Only nothing is priced at nothing. -/
theorem price_pos_iff (micros : UInt64) : 0 < price micros ↔ micros ≠ 0 := by
  constructor
  · rintro above rfl
    exact absurd above (by decide)
  · intro nonzero
    have divisor : (1000000.0 : Float).toModel.unpack =
        .finite .positive (1000000 * 2 ^ 33) (-33) (by decide) := rfl
    exact Lib.Binary64.toFloat_div_pos nonzero divisor (by decide) (by decide) (by decide)

structure Bidder where
  selector : AdSelector := {}
  response : BidResponse StdString := {}
  /-- How many identifiers `uuid_generator` has drawn. -/
  drawn : Nat := 0

namespace Bidder

/-- The bid is appended to the last seat, which is made where there is none. -/
def appendBid (r : BidResponse StdString) (bid : Bid StdString) : BidResponse StdString :=
  let seatbid := if r.seatbid.length = 0 then r.seatbid ++ [({} : SeatBid StdString)] else r.seatbid
  { r with seatbid := seatbid.modifyLast fun seat => { seat with bid := seat.bid ++ [bid] } }

/-- `addCurrency`: the first currency of the request, else that of the bid floor. -/
def addCurrency (r : BidResponse StdString) (request : BidRequest StdString)
    (imp : Impression StdString) : BidResponse StdString :=
  match request.cur with
  | cur :: _ => { r with cur }
  | [] => if imp.bidfloorcur.length ≠ 0 then { r with cur := imp.bidfloorcur } else r

/-- The bid that `addBid` makes of an ad. -/
def offer (imp : Impression StdString) (ad : Ad) (bidid : StdString) : Bid StdString :=
  { id := bidid
    impid := imp.id
    price := match ad.authBidMicros with
      | some auth => price auth
      | none => price ad.maxBidMicros
    w := Int32.ofNat ad.width.toNat
    h := Int32.ofNat ad.height.toNat
    adm := ad.code
    adid := toString ad.adId.toNat }

/-- `addBid`, with the identifier it draws. -/
def addBid (r : BidResponse StdString) (imp : Impression StdString) (ad : Ad)
    (bidid : StdString) : BidResponse StdString :=
  appendBid r (offer imp ad bidid)

/-- What a selected ad does to the response, from two fresh identifiers. -/
def answer (uuids : Nat → StdString) (drawn : Nat) (r : BidResponse StdString)
    (request : BidRequest StdString) (imp : Impression StdString) (ad : Ad) :
    BidResponse StdString :=
  let identified := { r with bidid := uuids drawn }
  addBid (addCurrency identified request imp) imp ad (uuids (drawn + 1))

/-- `buildImpResponse`: nothing where a matcher throws. -/
def buildImpResponse (uuids : Nat → StdString) (b : Bidder) (request : BidRequest StdString)
    (imp : Impression StdString) (tuple : Tuple A) : Option Bidder :=
  (b.selector.select request imp tuple.1 tuple.2).map fun selected =>
    match selected with
    | some ad =>
        { b with
          response := answer uuids b.drawn b.response request imp ad
          drawn := b.drawn + 2 }
    | none => b

/-- The loop of `bid`. Each turn constructs its arguments from the tuple by move, and
    `leaves` says what is left of it. -/
def bidEach (uuids : Nat → StdString) (leaves : Tuple A → Tuple A)
    (request : BidRequest StdString) :
    Bidder → List (Impression StdString) → Tuple A → Option Bidder
  | b, [], _ => some b
  | b, imp :: rest, tuple =>
      (b.buildImpResponse uuids request imp tuple).bind fun b =>
        bidEach uuids leaves request b rest (leaves tuple)

/-- `bid`: nothing where an exception leaves it. -/
def bid (uuids : Nat → StdString) (leaves : Tuple A → Tuple A) (b : Bidder)
    (request : BidRequest StdString) (tuple : Tuple A) : Option Bidder :=
  bidEach uuids leaves request { b with response := b.response.clear } request.imp tuple

@[simp] theorem bids_appendBid (r : BidResponse StdString) (bid : Bid StdString) :
    (appendBid r bid).bids = r.bids ++ [bid] := by
  unfold appendBid BidResponse.bids
  cases hs : r.seatbid.reverse with
  | nil =>
      have empty : r.seatbid = [] := List.reverse_eq_nil_iff.mp hs
      have made := List.modifyLast_concat (fun seat : SeatBid StdString =>
        { seat with bid := seat.bid ++ [bid] }) {} []
      simp only [List.nil_append] at made
      simp [empty, made]
  | cons last init =>
      have seats : r.seatbid = init.reverse ++ [last] := by
        rw [← List.reverse_reverse r.seatbid, hs, List.reverse_cons]
      simp [seats, List.modifyLast_concat]

@[simp] theorem bids_addCurrency (r : BidResponse StdString) (request : BidRequest StdString)
    (imp : Impression StdString) : (addCurrency r request imp).bids = r.bids := by
  unfold addCurrency
  split
  · rfl
  · split <;> rfl

/-- Answering with an ad adds its offer and leaves the earlier bids alone. -/
theorem bids_answer (uuids : Nat → StdString) (drawn : Nat) (r : BidResponse StdString)
    (request : BidRequest StdString) (imp : Impression StdString) (ad : Ad) :
    (answer uuids drawn r request imp ad).bids = r.bids ++ [offer imp ad (uuids (drawn + 1))] := by
  simp only [answer, addBid, bids_appendBid, bids_addCurrency]
  rfl

/-- With the default selection a turn that returns has bid on its impression. -/
theorem buildImpResponse_default (uuids : Nat → StdString) {b : Bidder}
    (request : BidRequest StdString) (imp : Impression StdString) (tuple : Tuple A)
    (default : b.selector.selectionAlgo = none) :
    b.buildImpResponse uuids request imp tuple =
      (tuple.2.chainFunction request imp tuple.1).map fun ads =>
        { b with
          response := answer uuids b.drawn b.response request imp
            ((calculateMaxBid ads).get (calculateMaxBid_isSome ads))
          drawn := b.drawn + 2 } := by
  unfold buildImpResponse AdSelector.select
  cases tuple.2.chainFunction request imp tuple.1 with
  | none => rfl
  | some ads =>
      obtain ⟨ad, best⟩ := Option.isSome_iff_exists.mp (calculateMaxBid_isSome ads)
      simp only [Option.map_some, default, best, Option.get_some]

/-- No matcher throws on its way through the impressions, each called on what the
    impressions before it have left in the tuple. -/
def Returns (leaves : Tuple A → Tuple A) (request : BidRequest StdString) :
    List (Impression StdString) → Tuple A → Prop
  | [], _ => True
  | imp :: rest, tuple =>
      (tuple.2.chainFunction request imp tuple.1).isSome = true ∧
        Returns leaves request rest (leaves tuple)

theorem bidEach_returns (uuids : Nat → StdString) (leaves : Tuple A → Tuple A)
    (request : BidRequest StdString) {b answered : Bidder} {imps : List (Impression StdString)}
    {tuple : Tuple A} (default : b.selector.selectionAlgo = none)
    (returned : bidEach uuids leaves request b imps tuple = some answered) :
    Returns leaves request imps tuple := by
  induction imps generalizing b tuple with
  | nil => exact trivial
  | cons imp rest ih =>
      obtain ⟨b', turn, later⟩ := Option.bind_eq_some_iff.mp returned
      rw [buildImpResponse_default uuids request imp tuple default] at turn
      obtain ⟨ads, found, rfl⟩ := Option.map_eq_some_iff.mp turn
      exact ⟨by rw [found]; rfl, ih (by exact default) later⟩

/-- Where nothing throws, every impression is bid on once, in order. -/
theorem bidEach_impids (uuids : Nat → StdString) (leaves : Tuple A → Tuple A)
    (request : BidRequest StdString) {b : Bidder} (imps : List (Impression StdString))
    (tuple : Tuple A) (default : b.selector.selectionAlgo = none)
    (returns : Returns leaves request imps tuple) :
    ∃ answered, bidEach uuids leaves request b imps tuple = some answered ∧
      answered.response.bids.map Bid.impid =
        b.response.bids.map Bid.impid ++ imps.map Impression.id := by
  induction imps generalizing b tuple with
  | nil => exact ⟨b, rfl, (List.append_nil _).symm⟩
  | cons imp rest ih =>
      obtain ⟨ads, found⟩ := Option.isSome_iff_exists.mp returns.1
      obtain ⟨answered, later, impids⟩ := ih
        (b := { b with
          response := answer uuids b.drawn b.response request imp
            ((calculateMaxBid ads).get (calculateMaxBid_isSome ads))
          drawn := b.drawn + 2 })
        (leaves tuple) default returns.2
      refine ⟨answered, ?_, ?_⟩
      · rw [bidEach, buildImpResponse_default uuids request imp tuple default, found]
        exact later
      · simp only [impids, bids_answer, List.map_append, List.map_cons, List.map_nil,
          List.append_assoc, List.cons_append, List.nil_append, offer]

/-- The bids of the response are those of the matched impressions, one each and in
    order, and there is no seat where nothing matched. -/
def BidsOnMatched (uuids : Nat → StdString) (leaves : Tuple A → Tuple A) (b : Bidder)
    (request : BidRequest StdString) (tuple : Tuple A) : Prop :=
  ∃ answered, bid uuids leaves b request tuple = some answered ∧
    answered.response.bids.map Bid.impid =
      (request.imp.filter (tuple.2.matched tuple.1 request)).map Impression.id ∧
    ((∀ imp ∈ request.imp, tuple.2.matched tuple.1 request imp = false) →
      answered.response.seatbid = [])

/-- The impressions that are bid on are those of the request, matched or not. -/
theorem bid_impids (uuids : Nat → StdString) (leaves : Tuple A → Tuple A) {b answered : Bidder}
    (request : BidRequest StdString) (tuple : Tuple A) (default : b.selector.selectionAlgo = none)
    (returned : bid uuids leaves b request tuple = some answered) :
    answered.response.bids.map Bid.impid = request.imp.map Impression.id := by
  have returns := bidEach_returns uuids leaves request
    (b := { b with response := b.response.clear }) default returned
  obtain ⟨answered', again, impids⟩ := bidEach_impids uuids leaves request
    (b := { b with response := b.response.clear }) request.imp tuple default returns
  obtain rfl := Option.some.inj (again.symm.trans returned)
  simpa only [BidResponse.clear, BidResponse.bids, List.flatMap_nil, List.map_nil,
    List.nil_append] using impids

/-- Only matched impressions are bid on exactly when every impression is matched,
    and no matcher throws on what the earlier impressions left. -/
theorem bidsOnMatched_iff (uuids : Nat → StdString) (leaves : Tuple A → Tuple A)
    (response : BidResponse StdString) (drawn : Nat) (request : BidRequest StdString)
    (tuple : Tuple A) :
    BidsOnMatched uuids leaves { response, drawn } request tuple ↔
      (∀ imp ∈ request.imp, tuple.2.matched tuple.1 request imp = true) ∧
        Returns leaves request request.imp tuple := by
  constructor
  · rintro ⟨answered, returned, onMatched, -⟩
    have onAll := bid_impids uuids leaves request tuple rfl returned
    refine ⟨?_, bidEach_returns uuids leaves request (b := { response := response.clear, drawn })
      rfl returned⟩
    -- as many impressions are matched as there are
    have lengths := congrArg List.length (onMatched.symm.trans onAll)
    rw [List.length_map, List.length_map] at lengths
    exact List.length_filter_eq_length_iff.mp lengths
  · rintro ⟨allMatched, returns⟩
    obtain ⟨answered, returned, -⟩ := bidEach_impids uuids leaves request
      (b := { response := response.clear, drawn }) request.imp tuple rfl returns
    change bid uuids leaves { response, drawn } request tuple = some answered at returned
    refine ⟨answered, returned, ?_, ?_⟩
    · rw [List.filter_eq_self.mpr allMatched]
      exact bid_impids uuids leaves request tuple rfl returned
    · intro noneMatched
      have noImps : request.imp = [] := by
        apply List.eq_nil_iff_forall_not_mem.mpr
        intro imp inside
        simpa [allMatched imp inside] using noneMatched imp inside
      simp only [bid, noImps, bidEach, Option.some.injEq] at returned
      rw [← returned]
      rfl

/-- A terminal matcher without ads still bids on its impression. -/
theorem unmatched_bid_on :
    ¬ BidsOnMatched (fun _ => []) id {} { imp := [{ id := ascii "1" }] }
      ((), .terminal fun _ _ _ => some []) := by
  rintro ⟨answered, returned, onMatched, -⟩
  have onAll := bid_impids (fun _ => []) id _ _ rfl returned
  exact absurd (onMatched.symm.trans onAll) (by decide)

end Bidder

end VanillaRtb.Core
