import VanillaRtb.Bidder.Bidder

/-! # A bidder that is used again

A thread keeps its bidder, and the bidder its response and the collections of its selector. Each
is emptied where it is filled again, and before that nothing is read from it, so that what they
held before a request does not show in the response.
-/

namespace VanillaRtb.Bidder

open Lib OpenRtb Matchers

/-- A response apart from the identifiers that were drawn for it. -/
def anonymous (r : BidResponse StdString) : BidResponse StdString :=
  { r with
    bidid := []
    seatbid := r.seatbid.map fun seat => { seat with bid := seat.bid.map eraseId } }

namespace AdSelector

/-- What a selection returns does not depend on what the collections held before. -/
theorem select_alike (caches : BidderCaches) {s s' : AdSelector} (req : BidRequest StdString)
    {imp : Impression StdString} (same : s.selectionAlg = s'.selectionAlg)
    (hasBanner : imp.banner = some banner) :
    ∃ selected t t', s.select caches req imp = some (selected, t) ∧
      s'.select caches req imp = some (selected, t') ∧
      t.selectionAlg = s.selectionAlg ∧ t'.selectionAlg = s'.selectionAlg := by
  unfold select
  cases getGeo caches req with
  | none => exact ⟨none, s, s', rfl, rfl, rfl, rfl⟩
  | some geo =>
      dsimp only [getGeoCampaigns, GeoCampaignEntity.retrieve, List.nil_append]
      cases caches.geoCampaignEntity.equalRange [geo.geoId.toNat] with
      | nil => exact ⟨none, _, _, rfl, rfl, rfl, rfl⟩
      | cons campaign rest =>
          simp only [getCampaignAds, campaignTurns caches hasBanner, Option.map_some,
            List.isEmpty_cons, Bool.not_false, Bool.not_true, Bool.false_eq_true, if_false, same]
          split
          next => exact ⟨none, _, _, rfl, rfl, rfl, rfl⟩
          next =>
            cases s'.selectionAlg with
            | none => exact ⟨_, _, _, rfl, rfl, rfl, rfl⟩
            | some alg => exact ⟨_, _, _, rfl, rfl, rfl, rfl⟩

theorem select_selectionAlg {caches : BidderCaches} {s t : AdSelector} {req : BidRequest StdString}
    {imp : Impression StdString} (selects : s.select caches req imp = some (selected, t)) :
    t.selectionAlg = s.selectionAlg := by
  unfold select at selects
  cases located : getGeo caches req with
  | none =>
      rw [located] at selects
      cases selects
      rfl
  | some geo =>
      rw [located] at selects
      dsimp only [getGeoCampaigns] at selects
      split at selects
      next =>
        cases selects
        rfl
      next =>
        obtain ⟨⟨someAds, s''⟩, found, taken⟩ := Option.map_eq_some_iff.mp selects
        obtain ⟨ads, -, kept⟩ := Option.map_eq_some_iff.mp found
        cases kept
        dsimp only at taken
        split at taken
        next =>
          cases taken
          rfl
        next =>
          split at taken
          next =>
            cases taken
            rfl
          next =>
            cases taken
            rfl

end AdSelector

theorem anonymous_appendBid (r : BidResponse StdString) (bid : Bid StdString) :
    anonymous (Core.Bidder.appendBid r bid) =
      Core.Bidder.appendBid (anonymous r) (eraseId bid) := by
  unfold Core.Bidder.appendBid anonymous
  cases hs : r.seatbid.reverse with
  | nil =>
      have empty : r.seatbid = [] := List.reverse_eq_nil_iff.mp hs
      have made (f : SeatBid StdString → SeatBid StdString) :
          [({} : SeatBid StdString)].modifyLast f = [f {}] := List.modifyLast_concat f {} []
      simp [empty, made]
  | cons last init =>
      have seats : r.seatbid = init.reverse ++ [last] := by
        rw [← List.reverse_reverse r.seatbid, hs, List.reverse_cons]
      simp [seats, List.modifyLast_concat]

theorem anonymous_addCurrency (r : BidResponse StdString) (request : BidRequest StdString)
    (imp : Impression StdString) :
    anonymous (Core.Bidder.addCurrency r request imp) =
      Core.Bidder.addCurrency (anonymous r) request imp := by
  unfold Core.Bidder.addCurrency
  cases request.cur with
  | cons cur rest => rfl
  | nil =>
      dsimp only
      split <;> rfl

/-- What an ad does to a response, apart from the identifiers. -/
theorem anonymous_answer (uuids : Nat → StdString) (drawn : Nat) (r : BidResponse StdString)
    (request : BidRequest StdString) (imp : Impression StdString) (ad : Ad) :
    anonymous (Core.Bidder.answer uuids drawn r request imp ad) =
      Core.Bidder.appendBid (Core.Bidder.addCurrency (anonymous r) request imp)
        (Core.Bidder.offer imp ad []) := by
  rw [Core.Bidder.answer, Core.Bidder.addBid, anonymous_appendBid, anonymous_addCurrency]
  rfl

/-- Bidders that answer alike: only the identifiers they have drawn and what is left in their
    collections may differ. -/
structure Alike (b b' : Bidder) : Prop where
  selects : b.selector.selectionAlg = b'.selector.selectionAlg
  answers : anonymous b.response = anonymous b'.response

section

variable (caches : BidderCaches) (uuids uuids' : Nat → StdString) (request : BidRequest StdString)
  {b b' : Bidder}

theorem buildImpResponse_alike {imp : Impression StdString} (alike : Alike b b')
    (hasBanner : imp.banner = some banner) :
    ∃ t t', b.buildImpResponse caches uuids request imp = some t ∧
      b'.buildImpResponse caches uuids' request imp = some t' ∧ Alike t t' := by
  obtain ⟨selected, s, s', selects, selects', same, same'⟩ :=
    AdSelector.select_alike caches request alike.selects hasBanner
  have selects'' : s.selectionAlg = s'.selectionAlg := same.trans (alike.selects.trans same'.symm)
  simp only [buildImpResponse, selects, selects', Option.map_some]
  cases selected with
  | none => exact ⟨_, _, rfl, rfl, selects'', alike.answers⟩
  | some ad =>
      refine ⟨_, _, rfl, rfl, selects'', ?_⟩
      simp only [anonymous_answer, alike.answers]

theorem bidEach_alike {imps : List (Impression StdString)} (alike : Alike b b')
    (banners : ∀ imp ∈ imps, imp.banner.isSome = true) :
    ∃ t t', bidEach caches uuids request b imps = some t ∧
      bidEach caches uuids' request b' imps = some t' ∧ Alike t t' := by
  induction imps generalizing b b' with
  | nil => exact ⟨b, b', rfl, rfl, alike⟩
  | cons imp rest ih =>
      obtain ⟨banner, hasBanner⟩ := Option.isSome_iff_exists.mp (banners imp List.mem_cons_self)
      obtain ⟨t, t', turn, turn', alike⟩ :=
        buildImpResponse_alike caches uuids uuids' request alike hasBanner
      rw [bidEach, bidEach, turn, turn']
      exact ih alike fun imp' later => banners imp' (List.mem_cons_of_mem imp later)

end

/-- The bidders that a thread may find: a new one, and one after a request. An exception leaves
    the collections and the response as they happen to be. -/
inductive Served (caches : BidderCaches) (uuids : Nat → StdString) (b : Bidder) :
    List (BidRequest StdString) → Bidder → Prop where
  | fresh : Served caches uuids b [] b
  | answered (before : Served caches uuids b history b')
      (answer : b'.bid caches uuids request = some b'') :
      Served caches uuids b (history ++ [request]) b''
  | threw (before : Served caches uuids b history b')
      (selects : b''.selector.selectionAlg = b'.selector.selectionAlg) :
      Served caches uuids b (history ++ [request]) b''

theorem bidEach_selectionAlg {imps : List (Impression StdString)}
    (answered : bidEach caches uuids request b imps = some t) :
    t.selector.selectionAlg = b.selector.selectionAlg := by
  induction imps generalizing b with
  | nil => exact Option.some.inj answered ▸ rfl
  | cons imp rest ih =>
      obtain ⟨b', turn, later⟩ := Option.bind_eq_some_iff.mp answered
      rw [ih later]
      obtain ⟨⟨selected, s⟩, selects, made⟩ := Option.map_eq_some_iff.mp turn
      have kept := AdSelector.select_selectionAlg selects
      cases selected with
      | none => exact made ▸ kept
      | some ad => exact made ▸ kept

theorem Served.selectionAlg (served : Served caches uuids b history b') :
    b'.selector.selectionAlg = b.selector.selectionAlg := by
  induction served with
  | fresh => rfl
  | answered before answer ih => exact (bidEach_selectionAlg answer).trans ih
  | threw before selects ih => exact selects.trans ih

/-- Whatever requests a bidder has served, it answers the next one as a new bidder does, apart
    from the identifiers. -/
theorem bid_as_fresh {caches : BidderCaches} (uuids uuids' : Nat → StdString)
    {alg : Option (List Ad → Option Ad)} {history : List (BidRequest StdString)} {b : Bidder}
    (served : Served caches uuids { selector := { selectionAlg := alg } } history b)
    {request : BidRequest StdString} (banners : ∀ imp ∈ request.imp, imp.banner.isSome = true) :
    ∃ t t', b.bid caches uuids request = some t ∧
      Bidder.bid caches uuids' { selector := { selectionAlg := alg } } request = some t' ∧
      anonymous t.response = anonymous t'.response := by
  have alike : Alike { b with response := b.response.clear }
      { selector := { selectionAlg := alg }, response := ({} : BidResponse StdString).clear } :=
    ⟨served.selectionAlg, rfl⟩
  obtain ⟨t, t', answered, answered', same⟩ :=
    bidEach_alike caches uuids uuids' request alike banners
  exact ⟨t, t', answered, answered', same.answers⟩

/-- The same request once more. -/
theorem bid_as_fresh_again :
    ∃ b t t', Bidder.bid (oneCampaign budgetOfTwo) (fun _ => []) {} oneImpression = some b ∧
      b.bid (oneCampaign budgetOfTwo) (fun _ => []) oneImpression = some t ∧
      Bidder.bid (oneCampaign budgetOfTwo) (fun _ => []) {} oneImpression = some t' ∧
      anonymous t.response = anonymous t'.response := by
  have banners : ∀ imp ∈ oneImpression.imp, imp.banner.isSome = true := by
    decide
  obtain ⟨b, -, answer, -⟩ := bidEach_alike (oneCampaign budgetOfTwo) (fun _ => []) (fun _ => [])
    oneImpression (b := { response := ({} : BidResponse StdString).clear }) ⟨rfl, rfl⟩ banners
  obtain ⟨t, t', again, fresh, same⟩ :=
    bid_as_fresh (fun _ => []) (fun _ => []) (.answered .fresh answer) banners
  exact ⟨b, t, t', answer, again, fresh, same⟩

end VanillaRtb.Bidder
