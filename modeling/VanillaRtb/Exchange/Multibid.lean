import VanillaRtb.Exchange.Collector
import VanillaRtb.Messaging.Serialization

/-! # Bids between the bidder and the collector

A multibidder exchange compares bids that have crossed the wire. The member list
of a bid has no entry for its price, so the collector compares default prices:
the responses that survive the crossing are exactly those that bid nothing.
-/

namespace VanillaRtb.Exchange

open Lib OpenRtb Messaging

variable {B : Type}

/-- The response decodes to one that is equal to it on every field but the extensions. -/
def Survives (ar : BinaryArchive B) (r : BidResponse StdString) : Prop :=
  ∃ decoded, roundTrip ar r = some decoded ∧ decoded.eraseExt = r.eraseExt

/-- Where some sent response bids, the response chosen among the decoded ones has a
    first price that was sent and that no first price sent exceeds. -/
def ChoosesHighest (s : StdSort) (sent decoded : List (BidResponse StdString)) : Prop :=
  ∀ numBidders, sent.filterMap firstPrice ≠ [] → ∃ m ∈ sent.filterMap firstPrice,
    firstPrice (Collector.response s ⟨numBidders, decoded⟩).1 = some m ∧
      ∀ q ∈ sent.filterMap firstPrice, ¬ m < q

/-- Everything sent survives, and the collector chooses the highest price sent. -/
def MultibidSurvives (ar : BinaryArchive B) (s : StdSort)
    (sent : List (BidResponse StdString)) : Prop :=
  (∀ r ∈ sent, Survives ar r) ∧
    ∀ decoded, sent.mapM (roundTrip ar) = some decoded → ChoosesHighest s sent decoded

/-- No bid of the response asks for anything but positive zero. -/
def BidsNothing (r : BidResponse StdString) : Prop :=
  ∀ seat ∈ r.seatbid, ∀ bid ∈ seat.bid, bid.price = 0

theorem bid_received_eraseExt_iff (bid : Bid StdString) :
    (Bid.received bid).eraseExt = bid.eraseExt ↔ bid.price = 0 := by
  constructor
  · intro same
    exact (congrArg Bid.price same).symm
  · intro free
    cases bid
    subst free
    rfl

theorem seat_received_eraseExt_iff (seat : SeatBid StdString) :
    (SeatBid.received seat).eraseExt = seat.eraseExt ↔ ∀ bid ∈ seat.bid, bid.price = 0 := by
  have bids : (SeatBid.received seat).eraseExt = seat.eraseExt ↔
      seat.bid.map (fun bid => (Bid.received bid).eraseExt) = seat.bid.map Bid.eraseExt := by
    cases seat
    simp [SeatBid.received, SeatBid.eraseExt, Function.comp_def]
  rw [bids, List.map_inj_left]
  exact forall₂_congr fun bid _ => bid_received_eraseExt_iff bid

theorem received_eraseExt_iff (r : BidResponse StdString) :
    (BidResponse.received r).eraseExt = r.eraseExt ↔ BidsNothing r := by
  have seats : (BidResponse.received r).eraseExt = r.eraseExt ↔
      r.seatbid.map (fun seat => (SeatBid.received seat).eraseExt) =
        r.seatbid.map SeatBid.eraseExt := by
    cases r
    simp [BidResponse.received, BidResponse.eraseExt, Function.comp_def]
  rw [seats, List.map_inj_left]
  exact forall₂_congr fun seat _ => seat_received_eraseExt_iff seat

theorem survives_iff (ar : BinaryArchive B) (r : BidResponse StdString) :
    Survives ar r ↔ BidsNothing r := by
  simp only [Survives, roundTrip_eq, Option.some.injEq, exists_eq_left', received_eraseExt_iff]

theorem roundTrips (ar : BinaryArchive B) (sent : List (BidResponse StdString)) :
    sent.mapM (roundTrip ar) = some (sent.map BidResponse.received) := by
  induction sent with
  | nil => rfl
  | cons r rest ih => simp only [List.mapM_cons, roundTrip_eq, ih, List.map_cons]; rfl

theorem firstPrice_received (r : BidResponse StdString) :
    firstPrice (BidResponse.received r) = (firstPrice r).map fun _ => 0 := by
  cases r with | mk _ seatbid =>
  cases seatbid with
  | nil => rfl
  | cons seat _ =>
      cases seat with | mk bid =>
      cases bid <;> rfl

theorem firstPrice_of_bidsNothing {r : BidResponse StdString} (free : BidsNothing r)
    (price : firstPrice r = some p) : p = 0 := by
  unfold firstPrice firstBid at price
  cases hseat : r.seatbid.head? with
  | none => simp [hseat] at price
  | some seat =>
      cases hbid : seat.bid.head? with
      | none => simp [hseat, hbid] at price
      | some bid =>
          simp only [hseat, Option.bind_some, hbid, Option.map_some, Option.some.injEq] at price
          rw [← price]
          exact free seat (List.mem_of_mem_head? (by simp [hseat])) bid
            (List.mem_of_mem_head? (by simp [hbid]))

/-- Among equal prices none is higher. -/
theorem strictWeak_of_const {ps : List Float} (free : ∀ p ∈ ps, p = 0) :
    StrictWeakOn higher ps where
  asymm p hp q hq hpq := by
    rw [free p hp, free q hq] at hpq
    exact absurd hpq (by decide)
  cotrans p hp _ _ r hr hpr := by
    rw [free p hp, free r hr] at hpr
    exact absurd hpr (by decide)

/-- Decoded responses are compared by default prices only. -/
theorem received_strictWeak (sent : List (BidResponse StdString)) :
    StrictWeakOn higher ((sent.map BidResponse.received).filterMap firstPrice) := by
  apply strictWeak_of_const
  intro p hp
  simp only [List.mem_filterMap, List.mem_map, exists_exists_and_eq_and, firstPrice_received,
    Option.map_eq_some_iff] at hp
  obtain ⟨_, _, _, _, same⟩ := hp
  exact same.symm

theorem choosesHighest_of_bidsNothing (s : StdSort) {sent : List (BidResponse StdString)}
    (free : ∀ r ∈ sent, BidsNothing r) :
    ChoosesHighest s sent (sent.map BidResponse.received) := by
  intro numBidders bids
  obtain ⟨p, hp⟩ := List.exists_mem_of_ne_nil _ bids
  have zeros : ∀ q ∈ sent.filterMap firstPrice, q = 0 := by
    intro q hq
    obtain ⟨r, hr, price⟩ := List.mem_filterMap.mp hq
    exact firstPrice_of_bidsNothing (free r hr) price
  -- a response that bids is still one that bids after the crossing
  have arrived : (0 : Float) ∈ (sent.map BidResponse.received).filterMap firstPrice := by
    obtain ⟨r, hr, price⟩ := List.mem_filterMap.mp hp
    refine List.mem_filterMap.mpr ⟨_, List.mem_map.mpr ⟨r, hr, rfl⟩, ?_⟩
    rw [firstPrice_received, price, Option.map_some]
  obtain ⟨m, hm, chosen, -⟩ := Collector.response_price s
    ⟨numBidders, sent.map BidResponse.received⟩ (received_strictWeak sent) arrived
  have zero : m = 0 := by
    obtain ⟨r, hr, price⟩ := List.mem_filterMap.mp hm
    obtain ⟨r, -, rfl⟩ := List.mem_map.mp hr
    rw [firstPrice_received, Option.map_eq_some_iff] at price
    obtain ⟨_, _, same⟩ := price
    exact same.symm
  subst zero
  refine ⟨0, zeros p hp ▸ hp, chosen, ?_⟩
  intro q hq
  rw [zeros q hq]
  decide

/-- Sent responses come back unchanged and compete by their prices exactly when none
    of their bids has a price. -/
theorem multibid_survives_iff (ar : BinaryArchive B) (s : StdSort)
    (sent : List (BidResponse StdString)) :
    MultibidSurvives ar s sent ↔ ∀ r ∈ sent, BidsNothing r := by
  constructor
  · intro survives r hr
    exact (survives_iff ar r).mp (survives.1 r hr)
  · intro free
    refine ⟨fun r hr => (survives_iff ar r).mpr (free r hr), ?_⟩
    intro decoded arrived
    rw [roundTrips] at arrived
    obtain rfl := Option.some.inj arrived
    exact choosesHighest_of_bidsNothing s free

section Tokens

/-- The primitives of an archive kept apart, in place of their bytes. -/
inductive Token where
  | int (n : Int32)
  | string (s : StdString)
  | size (n : Nat)
  deriving DecidableEq

private def tokenInt : Wire Token Int32 where
  put n := [.int n]
  get
    | .int n :: rest => some (n, rest)
    | _ => none
  image n := n
  get_put _ _ := rfl

private def tokenString : Wire Token StdString where
  put s := [.string s]
  get
    | .string s :: rest => some (s, rest)
    | _ => none
  image s := s
  get_put _ _ := rfl

private def tokenSize : Wire Token Nat where
  put n := [.size n]
  get
    | .size n :: rest => some (n, rest)
    | _ => none
  image n := n
  get_put _ _ := rfl

/-- An archive that meets its documentation. -/
def tokenArchive : BinaryArchive Token where
  header := { put := fun _ => [], get := fun bs => some ((), bs), image := id,
              get_put := fun _ _ => rfl }
  string := tokenString
  int := tokenInt
  vector w := Wire.vector tokenSize (fun _ => rfl) w
  string_lossless _ := rfl
  int_lossless _ := rfl
  vector_image _ _ := rfl

end Tokens

/-- One bid of 1.5 arrives as a bid of nothing. -/
theorem priced_bid_lost : ¬ MultibidSurvives tokenArchive StdSort.merge
    [{ seatbid := [{ bid := [{ price := 1.5 }] }] }] := by
  intro survives
  have free := (survives_iff tokenArchive _).mp (survives.1 _ List.mem_cons_self)
  exact absurd (free _ List.mem_cons_self _ List.mem_cons_self) (by decide)

end VanillaRtb.Exchange
