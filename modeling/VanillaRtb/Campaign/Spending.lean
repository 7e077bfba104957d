import VanillaRtb.Bidder.Bidder
import VanillaRtb.Campaign.Replication
import VanillaRtb.Lib.Transition

/-! # What a campaign can be charged in a day

Bidders bid for a campaign what their host's cache authorizes. The exchange charges no more than
the bid, the notification service takes the charge out of the master's record and broadcasts it,
and the hosts hear of it later. What is charged in the end depends on how many bids of the
campaign a bidder may not know the outcome of.
-/

namespace VanillaRtb.Campaign

open Lib Datacache Messaging OpenRtb Matchers
open Lib.Transition

/-- The records of a segment as a bidder finds them. -/
def budgetsOf (c : BudgetCache) : CampaignCache where
  entries := (c.container.view ()).map fun e => { campaignId := e.key, data := e.data }
  sorted := by
    have sorted := c.container.sorted ()
    have unique := List.pairwise_map.mp (c.container.unique ())
    apply List.pairwise_map.mpr
    refine sorted.imp₂ ?_ unique
    intro x y below apart
    apply lt_of_le_of_ne below
    intro same
    apply apart
    simpa [campaignPart, UInt32.toNat_inj] using same

/-- A bid that the exchange has, for an ad of this campaign. -/
structure PlacedBid where
  campaignId : UInt32
  micros : UInt64
  deriving DecidableEq

/-- What `addBid` makes the price of. -/
def placedBid (ad : Ad) : PlacedBid :=
  ⟨ad.campaignId, ad.authBidMicros.getD ad.maxBidMicros⟩

/-- The notification service, and the slave bankers of the other hosts with the records that are
    on their way to them. `placed` are the bids that are not decided, `notices` those that
    were handled. -/
structure Market (H : Type) where
  service : NotificationService
  slaves : H → BudgetCache
  inFlight : H → List CampaignBudget := fun _ => []
  placed : List PlacedBid := []
  notices : List WinNotice := []

namespace Market

variable {H B : Type} [DecidableEq H]

omit [DecidableEq H] in
/-- What the bidders of a host read: the segment of the service on its own host. -/
def cacheOf (s : Market H) : Option H → BudgetCache
  | none => s.service.cache
  | some h => s.slaves h

inductive Event (H : Type) where
  | impression (host : Option H) (caches : Bidder.BidderCaches) (request : BidRequest StdString)
      (imp : Impression StdString)
  | lost (i : Nat)
  | won (i : Nat) (price : UInt64)
  | received (h : H)

/-- A bidder looks at an impression, a bid is lost, a bid is won at a price that is no higher, or
    a slave banker receives the next record. -/
def step (ar : BudgetArchive B) (s : Market H) : Event H → Option (Market H)
  | .impression host caches request imp =>
      let caches := { caches with budgetCache := budgetsOf (s.cacheOf host) }
      match Bidder.offered caches request imp with
      | none => some s
      | some offer => some { s with placed := s.placed ++ [placedBid offer.2] }
  | .lost i => if i < s.placed.length then some { s with placed := s.placed.eraseIdx i } else none
  | .won i price =>
      match s.placed[i]? with
      | none => none
      | some bid =>
          let notice : WinNotice := ⟨some price, some bid.campaignId⟩
          if price ≤ bid.micros then
            (s.service.winNotice notice).toOption.map fun (service, sent) =>
              { s with
                service
                inFlight := fun h => s.inFlight h ++ sent.toList
                placed := s.placed.eraseIdx i
                notices := s.notices ++ [notice] }
          else none
  | .received h =>
      match s.inFlight h with
      | [] => none
      | budget :: rest =>
          (SlaveBanker.consume ar (s.slaves h) (datagram ar budget)).map fun cache =>
            { s with
              slaves := Function.update s.slaves h cache
              inFlight := Function.update s.inFlight h rest }

/-- At the start of the day all hosts know what the service knows. -/
def start (container : MultiIndex (Entity.key : Entity UInt32 CampaignBudget → UInt32) campaignPart) :
    Market H where
  service := { cache := budgetCache container }
  slaves _ := budgetCache container

omit [DecidableEq H] in
/-- How many bids of a campaign are not decided, or were won without the host having heard. -/
def pending (s : Market H) (host : Option H) (campaignId : UInt32) : Nat :=
  s.placed.countP (fun bid => bid.campaignId = campaignId) +
    match host with
    | none => 0
    | some h => (s.inFlight h).countP fun budget => budget.campaignId = campaignId

/-- No host bids for the campaign while `n` bids are pending. -/
def WithFewer (n : Nat) (campaignId : UInt32) (s : Market H) : Event H → Prop
  | .impression host caches request imp =>
      ∀ offer, Bidder.offered { caches with budgetCache := budgetsOf (s.cacheOf host) } request imp =
        some offer → offer.2.campaignId = campaignId → s.pending host campaignId < n
  | _ => True

end Market

section Reading

variable {c : BudgetCache} {t : Table UInt32 CampaignBudget} {campaignId : UInt32}

theorem budgetsOf_retrieve (holds : c.Holds t) (campaignId : UInt32) :
    (budgetsOf c).retrieve campaignId = (t campaignId).getD {} := by
  obtain ⟨index, live⟩ := Option.isSome_iff_exists.mp holds.mapped
  have range := CampaignCache.retrieve_holds holds campaignId
  rw [Datacache.CampaignCache.retrieve, EntityCache.retrieve, EntityCache.deref_live live,
    ← MultiIndex.matching_eq_rangeOf] at range
  have records : (c.container.matching () [campaignId.toNat]).map Entity.data =
      (t campaignId).toList := Except.ok.inj range
  have found : (budgetsOf c).find [campaignId.toNat] =
      ((c.container.matching () [campaignId.toNat]).map fun e =>
        ({ campaignId := e.key, data := e.data } : CampaignEntity)).head? := by
    rw [OrderedUnique.find, OrderedUnique.equalRange_eq_filter, budgetsOf, List.filter_map]
    rfl
  rw [Campaign.CampaignCache.retrieve, found]
  cases matched : c.container.matching () [campaignId.toNat] with
  | nil =>
      rw [matched] at records
      cases there : t campaignId with
      | none => rfl
      | some b => simp [there] at records
  | cons e es =>
      rw [matched] at records
      cases there : t campaignId with
      | none => simp [there] at records
      | some b =>
          simp only [there, List.map_cons, Option.toList_some, List.cons.injEq] at records
          exact records.1

theorem authorize_budgetsOf (holds : c.Holds t) (campaignId : UInt32) :
    Banker.authorize (budgetsOf c) campaignId =
      BudgetManager.authorize ((t campaignId).getD {}) := by
  rw [Banker.authorize, budgetsOf_retrieve holds]

/-- What is missing from a record that was received is not authorized by. -/
theorem authorize_received (b : CampaignBudget) :
    BudgetManager.authorize b.received = BudgetManager.authorize b := rfl

theorem wins_campaignId (b : CampaignBudget) (prices : List UInt64) :
    (b.wins prices).campaignId = b.campaignId := by
  rw [CampaignBudget.wins_eq_charge, CampaignBudget.charge]

/-- A bid is placed at what its campaign is authorized at most. -/
theorem placed_of_offered {caches : Bidder.BidderCaches} {request : BidRequest StdString}
    {imp : Impression StdString} {offer : Impression StdString × Ad}
    (offered : Bidder.offered caches request imp = some offer) :
    (placedBid offer.2).micros.toNat ≤ (caches.authorize offer.2.campaignId).toNat := by
  obtain ⟨-, ad, -, same⟩ := Bidder.offered_mem offered
  rw [placedBid, ← same, Bidder.AdSelector.authorized, Bidder.cap_authBidMicros, Option.getD_some,
    min_toNat]
  exact Nat.min_le_left _ _

end Reading

/-- The records broadcast of these charges, one after the other. -/
def broadcastOf (b : CampaignBudget) : List UInt64 → List CampaignBudget
  | [] => []
  | price :: prices => b.updatePrice price :: broadcastOf (b.updatePrice price) prices

/-- What a slave has of a campaign: the record after the first charges, with the records of the
    others on their way. -/
structure Hears (b : CampaignBudget) (prices : List UInt64) (t : Table UInt32 CampaignBudget)
    (inFlight : List CampaignBudget) (heard unheard : List UInt64) : Prop where
  split : prices = heard ++ unheard
  record : t b.campaignId = some (b.wins heard).received
  records : inFlight.filter (fun budget => budget.campaignId = b.campaignId) =
    broadcastOf (b.wins heard) unheard

section Hearing

variable {b budget : CampaignBudget} {prices heard unheard : List UInt64}
  {t : Table UInt32 CampaignBudget} {inFlight rest : List CampaignBudget}

theorem broadcastOf_append (b : CampaignBudget) (prices more : List UInt64) :
    broadcastOf b (prices ++ more) = broadcastOf b prices ++ broadcastOf (b.wins prices) more := by
  induction prices generalizing b with
  | nil => rfl
  | cons price prices ih =>
      rw [List.cons_append, broadcastOf, ih, broadcastOf, List.cons_append]
      rfl

theorem broadcastOf_length (b : CampaignBudget) (prices : List UInt64) :
    (broadcastOf b prices).length = prices.length := by
  induction prices generalizing b with
  | nil => rfl
  | cons price prices ih => rw [broadcastOf, List.length_cons, List.length_cons, ih]

/-- A notice of the campaign. -/
theorem Hears.notices (hears : Hears b prices t inFlight heard unheard) (price : UInt64) :
    Hears b (prices ++ [price]) t (inFlight ++ [(b.wins prices).updatePrice price]) heard
      (unheard ++ [price]) := by
  have own : ((b.wins prices).updatePrice price).campaignId = b.campaignId :=
    wins_campaignId b prices
  refine ⟨?_, hears.record, ?_⟩
  · rw [hears.split, List.append_assoc]
  · rw [List.filter_append, hears.records, broadcastOf_append, ← wins_append, ← hears.split,
      List.filter_cons_of_pos (by simpa using own)]
    rfl

/-- A notice of another one. -/
theorem Hears.other (hears : Hears b prices t inFlight heard unheard)
    (other : ∀ budget ∈ rest, budget.campaignId ≠ b.campaignId) :
    Hears b prices t (inFlight ++ rest) heard unheard := by
  refine ⟨hears.split, hears.record, ?_⟩
  rw [List.filter_append, hears.records, List.filter_eq_nil_iff.mpr (by simpa using other),
    List.append_nil]

/-- The next record comes in. -/
theorem Hears.received (hears : Hears b prices t (budget :: rest) heard unheard) :
    ∃ heard unheard, Hears b prices (t.replace budget.campaignId budget.received) rest heard
      unheard := by
  have records := hears.records
  by_cases own : budget.campaignId = b.campaignId
  · rw [List.filter_cons_of_pos (by simpa using own)] at records
    cases unheard with
    | nil => cases records
    | cons price unheard =>
        obtain ⟨next, others⟩ := List.cons.inj records
        have after : (b.wins heard).updatePrice price = b.wins (heard ++ [price]) :=
          (wins_append b heard [price]).symm
        refine ⟨heard ++ [price], unheard, ?_, ?_, ?_⟩
        · rw [hears.split, List.append_assoc]
          rfl
        · rw [own, Table.replace_same hears.record, next, after]
        · rw [others, after]
  · rw [List.filter_cons_of_neg (by simpa using own)] at records
    refine ⟨heard, unheard, hears.split, ?_, records⟩
    rw [Table.replace_other (Ne.symm own), hears.record]

theorem Hears.length (hears : Hears b prices t inFlight heard unheard) :
    inFlight.countP (fun budget => budget.campaignId = b.campaignId) = unheard.length := by
  rw [List.countP_eq_length_filter, hears.records, broadcastOf_length]

end Hearing

namespace Market

variable {H B : Type} [DecidableEq H] {ar : BudgetArchive B} {s s' : Market H} {event : Event H}
  {table : Table UInt32 CampaignBudget} {b : CampaignBudget} {n m : Nat}

/-- What an event does. -/
inductive Step (ar : BudgetArchive B) (s : Market H) : Event H → Market H → Prop where
  | declined (nothing : Bidder.offered { caches with budgetCache := budgetsOf (s.cacheOf host) }
      request imp = none) : Step ar s (.impression host caches request imp) s
  | offered {host : Option H} {caches : Bidder.BidderCaches} {request : BidRequest StdString}
      {imp : Impression StdString} {offer : Impression StdString × Ad}
      (found : Bidder.offered { caches with budgetCache := budgetsOf (s.cacheOf host) }
      request imp = some offer) : Step ar s (.impression host caches request imp)
        { s with placed := s.placed ++ [placedBid offer.2] }
  | lost (below : i < s.placed.length) :
      Step ar s (.lost i) { s with placed := s.placed.eraseIdx i }
  | won {service : NotificationService} {sent : Option CampaignBudget}
      (found : s.placed[i]? = some bid) (within : price ≤ bid.micros)
      (handled : s.service.winNotice ⟨some price, some bid.campaignId⟩ = .ok (service, sent)) :
      Step ar s (.won i price) { s with
        service
        inFlight := fun h => s.inFlight h ++ sent.toList
        placed := s.placed.eraseIdx i
        notices := s.notices ++ [⟨some price, some bid.campaignId⟩] }
  | received {cache : BudgetCache} (next : s.inFlight h = budget :: rest)
      (consumed : SlaveBanker.consume ar (s.slaves h) (datagram ar budget) = some cache) :
      Step ar s (.received h) { s with
        slaves := Function.update s.slaves h cache
        inFlight := Function.update s.inFlight h rest }

theorem step_cases (taken : s.step ar event = some s') : Step ar s event s' := by
  cases event with
  | impression host caches request imp =>
      simp only [step] at taken
      split at taken
      next nothing => exact Option.some.inj taken ▸ .declined nothing
      next offer found => exact Option.some.inj taken ▸ .offered found
  | lost i =>
      simp only [step] at taken
      split at taken
      next below => exact Option.some.inj taken ▸ .lost below
      next => cases taken
  | won i price =>
      cases found : s.placed[i]? with
      | none => simp [step, found] at taken
      | some bid =>
          simp only [step, found] at taken
          split at taken
          next within =>
            cases handled : s.service.winNotice ⟨some price, some bid.campaignId⟩ with
            | error fault => simp [handled, Except.toOption] at taken
            | ok after =>
                obtain ⟨service, sent⟩ := after
                simp only [handled, Except.toOption, Option.map_some, Option.some.injEq] at taken
                exact taken ▸ .won found within handled
          next => cases taken
  | received h =>
      cases next : s.inFlight h with
      | nil => simp [step, next] at taken
      | cons budget rest =>
          simp only [step, next, Option.map_eq_some_iff] at taken
          obtain ⟨cache, consumed, same⟩ := taken
          exact same ▸ .received next consumed

/-- The master's records have taken all charges, and each slave hears of those of the campaign. -/
structure Tracks (table : Table UInt32 CampaignBudget) (b : CampaignBudget) (s : Market H) :
    Prop where
  master : s.service.cache.Holds (s.notices.foldl noticed table)
  slaves : ∀ h, ∃ t heard unheard, (s.slaves h).Holds t ∧
    Hears b (pricesOf b.campaignId s.notices) t (s.inFlight h) heard unheard

theorem consume_holds {c cache : BudgetCache} {t : Table UInt32 CampaignBudget}
    (holds : c.Holds t) {budget : CampaignBudget}
    (consumed : SlaveBanker.consume ar c (datagram ar budget) = some cache) :
    cache.Holds (t.replace budget.campaignId budget.received) := by
  obtain ⟨after, run, final⟩ := run_holds ar holds [budget]
  have same : SlaveBanker.run ar c ([budget].map (datagram ar)) = some cache := by
    rw [List.map_cons, List.map_nil, SlaveBanker.run, List.foldlM_cons, consumed]
    rfl
  exact Option.some.inj (run.symm.trans same) ▸ final

theorem noticed_keyed (keyed : table.Keyed CampaignBudget.campaignId) (notices : List WinNotice) :
    (notices.foldl noticed table).Keyed CampaignBudget.campaignId := by
  intro campaignId after there
  rw [noticed_all_at] at there
  obtain ⟨before, found, rfl⟩ := Option.map_eq_some_iff.mp there
  rw [wins_campaignId]
  exact keyed campaignId before found

theorem pricesOf_append (campaignId : UInt32) (notices : List WinNotice) (notice : WinNotice) :
    pricesOf campaignId (notices ++ [notice]) =
      pricesOf campaignId notices ++ (notice.priceFor campaignId).toList := by
  rw [pricesOf, List.filterMap_append, ← pricesOf, ← pricesOf, pricesOf_cons]
  simp [pricesOf]

theorem Tracks.step (keyed : table.Keyed CampaignBudget.campaignId)
    (here : table b.campaignId = some b) (tracks : Tracks table b s)
    (taken : s.step ar event = some s') : Tracks table b s' := by
  cases step_cases taken with
  | declined nothing => exact tracks
  | offered found => exact ⟨tracks.master, tracks.slaves⟩
  | lost below => exact ⟨tracks.master, tracks.slaves⟩
  | @won i bid price service sent found within handled =>
      obtain ⟨after, handled', holds⟩ :=
        winNotice_holds tracks.master ⟨some price, some bid.campaignId⟩
      rw [handled'] at handled
      cases handled
      refine ⟨?_, ?_⟩
      · rw [List.foldl_append]
        exact holds
      · intro h
        obtain ⟨t, heard, unheard, slave, hears⟩ := tracks.slaves h
        have charge : broadcast (s.notices.foldl noticed table) ⟨some price, some bid.campaignId⟩ =
            (s.notices.foldl noticed table bid.campaignId).map fun budget =>
              budget.updatePrice price := rfl
        dsimp only
        rw [pricesOf_append, charge]
        by_cases own : bid.campaignId = b.campaignId
        · have priced : (⟨some price, some bid.campaignId⟩ : WinNotice).priceFor b.campaignId =
              some price := by
            simp [WinNotice.priceFor, WinNotice.charge, own]
          rw [priced, own, noticed_all_at, here]
          exact ⟨t, heard, _, slave, hears.notices price⟩
        · have unpriced : (⟨some price, some bid.campaignId⟩ : WinNotice).priceFor b.campaignId =
              none := by
            simp [WinNotice.priceFor, WinNotice.charge, own]
          rw [unpriced, Option.toList_none, List.append_nil]
          refine ⟨t, heard, unheard, slave, hears.other ?_⟩
          intro budget inside
          obtain ⟨before, there, rfl⟩ :=
            Option.map_eq_some_iff.mp (Option.mem_toList.mp inside)
          have id := noticed_keyed keyed s.notices bid.campaignId before there
          intro same
          exact own (id.symm.trans same)
  | @received h budget rest cache next consumed =>
      refine ⟨tracks.master, ?_⟩
      intro h'
      by_cases same : h' = h
      · subst same
        obtain ⟨t, heard, unheard, slave, hears⟩ := tracks.slaves h'
        rw [next] at hears
        obtain ⟨heard, unheard, after⟩ := hears.received
        simp only [Function.update_self]
        exact ⟨_, heard, unheard, consume_holds slave consumed, after⟩
      · simpa only [Function.update_of_ne same] using tracks.slaves h'

omit [DecidableEq H] in
/-- What the bidders of a host authorize by, and how much they do not know. -/
theorem Tracks.reads (here : table b.campaignId = some b) (tracks : Tracks table b s)
    (host : Option H) :
    ∃ heard unheard, pricesOf b.campaignId s.notices = heard ++ unheard ∧
      Banker.authorize (budgetsOf (s.cacheOf host)) b.campaignId =
        BudgetManager.authorize (b.wins heard) ∧
      s.pending host b.campaignId =
        s.placed.countP (fun bid => bid.campaignId = b.campaignId) + unheard.length := by
  cases host with
  | none =>
      refine ⟨_, [], (List.append_nil _).symm, ?_, rfl⟩
      rw [cacheOf, authorize_budgetsOf tracks.master, noticed_all_at, here]
      rfl
  | some h =>
      obtain ⟨t, heard, unheard, slave, hears⟩ := tracks.slaves h
      refine ⟨heard, unheard, hears.split, ?_, ?_⟩
      · rw [cacheOf, authorize_budgetsOf slave, hears.record]
        rfl
      · rw [pending, hears.length]

/-- What the bids of a campaign may still cost. -/
def outstanding (campaignId : UInt32) (placed : List PlacedBid) : Nat :=
  (placed.map fun bid => if bid.campaignId = campaignId then bid.micros.toNat else 0).sum

section Sums

variable {campaignId : UInt32} {placed : List PlacedBid} {bid : PlacedBid} {i : Nat}

theorem outstanding_eraseIdx (found : placed[i]? = some bid) :
    outstanding campaignId placed =
      (if bid.campaignId = campaignId then bid.micros.toNat else 0) +
        outstanding campaignId (placed.eraseIdx i) := by
  obtain ⟨below, here⟩ := List.getElem?_eq_some_iff.mp found
  have split := List.getElem_cons_eraseIdx_perm below
  rw [here] at split
  exact (split.map _).sum_eq.symm

theorem outstanding_concat (placed : List PlacedBid) (bid : PlacedBid) :
    outstanding campaignId (placed ++ [bid]) =
      outstanding campaignId placed +
        if bid.campaignId = campaignId then bid.micros.toNat else 0 := by
  simp [outstanding]

theorem outstanding_le (each : ∀ bid ∈ placed, bid.campaignId = campaignId → bid.micros.toNat ≤ m) :
    outstanding campaignId placed ≤
      placed.countP (fun bid => bid.campaignId = campaignId) * m := by
  induction placed with
  | nil => exact Nat.zero_le _
  | cons bid placed ih =>
      obtain ⟨here, others⟩ := List.forall_mem_cons.mp each
      have rest := ih others
      rw [outstanding, List.map_cons, List.sum_cons, ← outstanding, List.countP_cons]
      by_cases own : bid.campaignId = campaignId
      · have most := here own
        simp only [own, if_true, decide_true, Nat.add_mul, Nat.one_mul]
        omega
      · simpa [own] using rest

theorem total_le {prices : List UInt64} (each : ∀ price ∈ prices, price.toNat ≤ m) :
    total prices ≤ prices.length * m := by
  induction prices with
  | nil => exact Nat.zero_le _
  | cons price prices ih =>
      obtain ⟨here, others⟩ := List.forall_mem_cons.mp each
      have rest := ih others
      rw [total, List.map_cons, List.sum_cons, ← total, List.length_cons, Nat.add_mul]
      omega

end Sums

/-- The most that a campaign is charged, bids being `bid` at most and `n` of them pending. -/
def most (dayBudget bid n : Nat) : Nat :=
  (dayBudget + min dayBudget bid) / 2 + (n - 1) * min dayBudget bid

/-- No bid of the campaign is higher than what the day budget and the metric ask for, and what was
    charged and what may still be is within the bound. -/
structure Bounded (campaignId : UInt32) (dayBudget bid n : Nat) (s : Market H) : Prop where
  placed : ∀ placed ∈ s.placed, placed.campaignId = campaignId →
    placed.micros.toNat ≤ min dayBudget bid
  prices : ∀ price ∈ pricesOf campaignId s.notices, price.toNat ≤ min dayBudget bid
  charged : total (pricesOf campaignId s.notices) + outstanding campaignId s.placed ≤
    most dayBudget bid n

theorem allowance_le (dayBudget spent bid : Nat) :
    allowance dayBudget spent bid ≤ min dayBudget bid := by
  unfold allowance
  split
  · omega
  · exact Nat.zero_le _

/-- A bid on top of those pending stays within the bound. -/
theorem bid_le {dayBudget bid n heard unheard outstanding others count : Nat}
    (unheardLe : unheard ≤ others * min dayBudget bid)
    (outstandingLe : outstanding ≤ count * min dayBudget bid) (fewer : count + others < n)
    (before : heard + unheard + outstanding ≤ most dayBudget bid n) :
    heard + unheard + (outstanding + allowance dayBudget (2 * heard) bid) ≤
      most dayBudget bid n := by
  have sum : (count + others) * min dayBudget bid ≤ (n - 1) * min dayBudget bid :=
    Nat.mul_le_mul_right _ (by omega)
  rw [Nat.add_mul] at sum
  unfold most allowance at *
  split
  · omega
  · omega

section Campaigns

variable {campaignId : UInt32} {dayBudget : UInt64} {metric : CampaignBudget.Metric} {bid : UInt64}

theorem Bounded.step (supported : metric.bid = some bid)
    (here : table campaignId = some (dayStart campaignId dayBudget metric))
    (tracks : Tracks table (dayStart campaignId dayBudget metric) s)
    (bounded : Bounded campaignId dayBudget.toNat bid.toNat n s)
    (fewer : WithFewer n campaignId s event) (taken : s.step ar event = some s') :
    Bounded campaignId dayBudget.toNat bid.toNat n s' := by
  cases step_cases taken with
  | declined nothing => exact bounded
  | @offered host caches request imp offer found =>
      by_cases own : offer.2.campaignId = campaignId
      · obtain ⟨heard, unheard, split, authorizes, count⟩ := tracks.reads here host
        have split' : pricesOf campaignId s.notices = heard ++ unheard := split
        have micros : (placedBid offer.2).micros.toNat ≤
            allowance dayBudget.toNat (2 * total heard) bid.toNat := by
          rw [← authorize_wins campaignId dayBudget supported heard, ← authorizes]
          have capped := placed_of_offered found
          rw [own] at capped
          exact capped
        have below := fewer offer found own
        change s.pending host campaignId = _ at count
        rw [count] at below
        refine ⟨?_, bounded.prices, ?_⟩
        · intro placed inside mine
          cases List.mem_append.mp inside with
          | inl before => exact bounded.placed placed before mine
          | inr last =>
              rw [List.mem_singleton.mp last]
              exact le_trans micros (allowance_le _ _ _)
        · have prices := bounded.prices
          have charged := bounded.charged
          rw [split', total_append] at charged
          rw [split'] at prices
          have room := bid_le
            (total_le fun price inside => prices price (List.mem_append_right _ inside))
            (outstanding_le bounded.placed) below charged
          have mine : (placedBid offer.2).campaignId = campaignId := own
          rw [outstanding_concat, if_pos mine, split', total_append]
          omega
      · have other : (placedBid offer.2).campaignId ≠ campaignId := own
        refine ⟨?_, bounded.prices, ?_⟩
        · intro placed inside mine
          cases List.mem_append.mp inside with
          | inl before => exact bounded.placed placed before mine
          | inr last => exact absurd (List.mem_singleton.mp last ▸ mine) other
        · rw [outstanding_concat, if_neg other]
          exact bounded.charged
  | @lost i below =>
      have charged := bounded.charged
      rw [outstanding_eraseIdx (List.getElem?_eq_getElem below)] at charged
      refine ⟨?_, bounded.prices, by dsimp only; omega⟩
      intro placed inside
      exact bounded.placed placed (List.mem_of_mem_eraseIdx inside)
  | @won i placed price service sent found within handled =>
      have charged := bounded.charged
      rw [outstanding_eraseIdx found] at charged
      rw [UInt64.le_iff_toNat_le] at within
      have most := bounded.placed placed (List.mem_of_getElem? found)
      by_cases own : placed.campaignId = campaignId
      · have priced : (⟨some price, some placed.campaignId⟩ : WinNotice).priceFor campaignId =
            some price := by
          simp [WinNotice.priceFor, WinNotice.charge, own]
        rw [if_pos own] at charged
        refine ⟨fun other inside => bounded.placed other (List.mem_of_mem_eraseIdx inside), ?_, ?_⟩
        · intro p inside
          rw [pricesOf_append, priced] at inside
          cases List.mem_append.mp inside with
          | inl before => exact bounded.prices p before
          | inr last =>
              rw [List.mem_singleton.mp last]
              exact le_trans within (most own)
        · rw [pricesOf_append, priced, total_append]
          simp only [total, Option.toList_some, List.map_cons, List.map_nil, List.sum_cons,
            List.sum_nil] at charged ⊢
          omega
      · have unpriced : (⟨some price, some placed.campaignId⟩ : WinNotice).priceFor campaignId =
            none := by
          simp [WinNotice.priceFor, WinNotice.charge, own]
        rw [if_neg own] at charged
        refine ⟨fun other inside => bounded.placed other (List.mem_of_mem_eraseIdx inside), ?_, ?_⟩
        · rw [pricesOf_append, unpriced, Option.toList_none, List.append_nil]
          exact bounded.prices
        · rw [pricesOf_append, unpriced, Option.toList_none, List.append_nil]
          dsimp only
          omega
  | received next consumed => exact ⟨bounded.placed, bounded.prices, bounded.charged⟩

end Campaigns

/-- There is a run in which no host bids while `n` bids are pending. -/
def Reaches (ar : BudgetArchive B) (n : Nat) (campaignId : UInt32) (s s' : Market H) : Prop :=
  ∃ events, exec (step ar) s events = some s' ∧ Along (step ar) (WithFewer n campaignId) s events

theorem Reaches.refl (s : Market H) (campaignId : UInt32) : Reaches ar n campaignId s s :=
  ⟨[], rfl, trivial⟩

theorem Reaches.trans {campaignId : UInt32} {s'' : Market H}
    (first : Reaches ar n campaignId s s') (later : Reaches ar n campaignId s' s'') :
    Reaches ar n campaignId s s'' := by
  obtain ⟨events, run, met⟩ := first
  obtain ⟨more, further, after⟩ := later
  refine ⟨events ++ more, exec_append.mpr ⟨s', run, further⟩, along_append.mpr ⟨met, ?_⟩⟩
  intro u there
  exact Option.some.inj (run.symm.trans there) ▸ after

theorem Reaches.single {campaignId : UInt32} (taken : s.step ar event = some s')
    (fewer : WithFewer n campaignId s event) : Reaches ar n campaignId s s' :=
  ⟨[event], exec_cons.mpr ⟨s', taken, rfl⟩, fewer, fun _ _ => trivial⟩

section Reaching

variable {campaignId : UInt32} {dayBudget : UInt64} {metric : CampaignBudget.Metric} {bid : UInt64}

omit [DecidableEq H] in
theorem start_tracks
    {container : MultiIndex (Entity.key : Entity UInt32 CampaignBudget → UInt32) campaignPart}
    (here : lookup container.entries campaignId = some (dayStart campaignId dayBudget metric)) :
    Tracks (lookup container.entries) (dayStart campaignId dayBudget metric)
      (start container : Market H) :=
  ⟨budgetCache_holds container, fun _ =>
    ⟨_, [], [], budgetCache_holds container, rfl, here, rfl⟩⟩

/-- One ad of the campaign, at any price, wherever the user is. -/
def onlyCampaign (campaignId : UInt32) : Bidder.BidderCaches where
  adDataEntity := ⟨[{ campaignId, maxBidMicros := 18446744073709551615 }], List.pairwise_singleton _ _⟩
  geoDataEntity := .empty _
  geoCampaignEntity := ⟨[{ campaignId }], List.pairwise_singleton _ _⟩
  budgetCache := .empty _

def someImpression : Impression StdString := { banner := some {} }

/-- Its bid is what the campaign is authorized. -/
theorem offered_onlyCampaign (campaignId : UInt32) (budgets : CampaignCache) :
    ∃ offer, Bidder.offered { onlyCampaign campaignId with budgetCache := budgets } {}
        someImpression = some offer ∧
      placedBid offer.2 = ⟨campaignId, Banker.authorize budgets campaignId⟩ := by
  have capped (a : UInt64) : min a 18446744073709551615 = a := by
    apply UInt64.toNat_inj.mp
    rw [min_toNat]
    exact Nat.min_eq_left (Nat.le_of_lt_succ a.toNat_lt)
  have candidates : Bidder.AdSelector.candidates
      { onlyCampaign campaignId with budgetCache := budgets } {} someImpression =
        [{ campaignId, maxBidMicros := 18446744073709551615 }] := by
    simp [Bidder.AdSelector.candidates, Bidder.AdSelector.cachedAds, Bidder.AdSelector.campaigns,
      Bidder.AdSelector.getGeo, someImpression, onlyCampaign, AdDataEntity.matching,
      OrderedUnique.equalRange_eq_filter, GeoCampaign.key, AdEntity.campaignSize, AdEntity.retrieve]
  refine ⟨(someImpression, Bidder.cap (Banker.authorize budgets campaignId)
    { campaignId, maxBidMicros := 18446744073709551615 }), ?_, ?_⟩
  · rw [Bidder.offered, candidates]
    rfl
  · change PlacedBid.mk campaignId (min (Banker.authorize budgets campaignId) _) = _
    rw [capped]

/-- Bids placed one after the other on the host of the service, for the same record. -/
theorem reaches_placed (s : Market H) (k : Nat)
    (room : s.pending none campaignId + k ≤ n) :
    Reaches ar n campaignId s { s with
      placed := s.placed ++
        List.replicate k ⟨campaignId, Banker.authorize (budgetsOf s.service.cache) campaignId⟩ } := by
  induction k with
  | zero => simpa using Reaches.refl s campaignId
  | succ k ih =>
      refine (ih (by omega)).trans ?_
      obtain ⟨offer, found, placed⟩ :=
        offered_onlyCampaign campaignId (budgetsOf s.service.cache)
      apply @Reaches.single H B _ ar _ _ (.impression none (onlyCampaign campaignId) {} someImpression)
      · simp only [step, cacheOf, found, placed, List.replicate_succ', List.append_assoc]
      · intro other same own
        simp only [pending, List.countP_append, List.countP_replicate] at room ⊢
        simp
        omega

/-- All of them are won, at one price. -/
theorem reaches_won (keyed : table.Keyed CampaignBudget.campaignId)
    (here : table campaignId = some (dayStart campaignId dayBudget metric)) {price micros : UInt64}
    (within : price ≤ micros) (k : Nat) {s : Market H}
    (tracks : Tracks table (dayStart campaignId dayBudget metric) s)
    (placed : s.placed = List.replicate k ⟨campaignId, micros⟩) :
    ∃ s', Reaches ar n campaignId s s' ∧
      Tracks table (dayStart campaignId dayBudget metric) s' ∧ s'.placed = [] ∧
      total (pricesOf campaignId s'.notices) =
        total (pricesOf campaignId s.notices) + k * price.toNat := by
  induction k generalizing s with
  | zero => exact ⟨s, .refl s campaignId, tracks, placed, by omega⟩
  | succ k ih =>
      obtain ⟨service, handled, -⟩ :=
        winNotice_holds tracks.master ⟨some price, some campaignId⟩
      have taken : s.step ar (.won 0 price) = some { s with
          service
          inFlight := fun h => s.inFlight h ++
            (broadcast (s.notices.foldl noticed table) ⟨some price, some campaignId⟩).toList
          placed := List.replicate k ⟨campaignId, micros⟩
          notices := s.notices ++ [⟨some price, some campaignId⟩] } := by
        simp [step, placed, List.replicate_succ, within, handled, Except.toOption]
      obtain ⟨s', reach, after, decided, charged⟩ := ih (tracks.step keyed here taken) rfl
      refine ⟨s', (Reaches.single taken trivial).trans reach, after, decided, ?_⟩
      have priced : (⟨some price, some campaignId⟩ : WinNotice).priceFor campaignId = some price := by
        simp [WinNotice.priceFor, WinNotice.charge]
      rw [charged, pricesOf_append, priced, total_append, Nat.succ_mul]
      simp only [total, Option.toList_some, List.map_cons, List.map_nil, List.sum_cons, List.sum_nil]
      omega

/-- The state in which all bids are decided. -/
structure Decided (table : Table UInt32 CampaignBudget) (b : CampaignBudget) (charged : Nat)
    (s : Market H) : Prop where
  tracks : Tracks table b s
  placed : s.placed = []
  charged : total (pricesOf b.campaignId s.notices) = charged

/-- Bids are placed and won at what is authorized at most. -/
theorem reaches_round (keyed : table.Keyed CampaignBudget.campaignId)
    (here : table campaignId = some (dayStart campaignId dayBudget metric))
    (supported : metric.bid = some bid) {charged k price : Nat} {s : Market H} (few : k ≤ n)
    (decided : Decided table (dayStart campaignId dayBudget metric) charged s)
    (within : price ≤ allowance dayBudget.toNat (2 * charged) bid.toNat) :
    ∃ s', Reaches ar n campaignId s s' ∧
      Decided table (dayStart campaignId dayBudget metric) (charged + k * price) s' := by
  obtain ⟨tracks, placed, total⟩ := decided
  let micros := Banker.authorize (budgetsOf s.service.cache) campaignId
  have authorizes : micros.toNat = allowance dayBudget.toNat (2 * charged) bid.toNat := by
    dsimp only [micros]
    rw [authorize_budgetsOf tracks.master, noticed_all_at, here, ← total]
    exact authorize_wins campaignId dayBudget supported (pricesOf campaignId s.notices)
  have small : price < 2 ^ 64 := lt_of_le_of_lt (authorizes ▸ within) micros.toNat_lt
  let bids : Market H := { s with placed := List.replicate k ⟨campaignId, micros⟩ }
  have first : Reaches ar n campaignId s bids := by
    simpa [placed] using @reaches_placed H B _ ar n campaignId s k (by simpa [pending, placed])
  have affordable : UInt64.ofNat price ≤ micros := by
    rw [UInt64.le_iff_toNat_le, UInt64.toNat_ofNat_of_lt' small, authorizes]
    exact within
  obtain ⟨s', later, after, decided, sum⟩ := @reaches_won H B _ ar table n campaignId dayBudget
    metric keyed here _ _ affordable k bids ⟨tracks.master, tracks.slaves⟩ rfl
  refine ⟨s', first.trans later, after, decided, ?_⟩
  rw [UInt64.toNat_ofNat_of_lt' small] at sum
  exact sum.trans (congrArg (· + k * price) total)

/-- Wins of one micro dollar each, as long as there is something authorized. -/
theorem reaches_charged (keyed : table.Keyed CampaignBudget.campaignId)
    (here : table campaignId = some (dayStart campaignId dayBudget metric))
    (supported : metric.bid = some bid) (bids : 0 < bid.toNat) (room : 0 < n) {s : Market H}
    (decided : Decided table (dayStart campaignId dayBudget metric) 0 s) (charged : Nat)
    (afford : 2 * charged ≤ dayBudget.toNat) :
    ∃ s', Reaches ar n campaignId s s' ∧
      Decided table (dayStart campaignId dayBudget metric) charged s' := by
  induction charged with
  | zero => exact ⟨s, .refl s campaignId, decided⟩
  | succ charged ih =>
      obtain ⟨t, before, known⟩ := ih (by omega)
      have one : 1 ≤ allowance dayBudget.toNat (2 * charged) bid.toNat := by
        unfold allowance
        rw [if_pos (by omega)]
        omega
      obtain ⟨s', later, after⟩ := @reaches_round H B _ ar table n campaignId dayBudget metric bid
        keyed here supported charged 1 1 t room known one
      exact ⟨s', before.trans later, after⟩

end Reaching

/-- A campaign of ten a day that bids four. -/
def tenPerDay : MultiIndex (Entity.key : Entity UInt32 CampaignBudget → UInt32) campaignPart :=
  (MultiIndex.empty.insert { key := 1, data := dayStart 1 10 ⟨.cpc, 4⟩ }).1

end Market

end VanillaRtb.Campaign
