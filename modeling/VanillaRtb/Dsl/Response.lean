import VanillaRtb.Lib.JsonValue
import VanillaRtb.OpenRtb

/-! # Responses on their way out

Two lists of the same members: `dsl_mapper` hands jsonv a table of formats, and
`rapid_mapper` and `any_mapper` drive a rapidjson writer. Neither is derived from the
other, and the members of a bid are where they part.
-/

namespace VanillaRtb.Dsl

open Lib OpenRtb

section Serializer

/-! The events of `rapid_serializer`. -/

namespace Serializer

def string (s : StdString) : List JsonEvent := [.string s]

def int (n : Int32) : List JsonEvent := [.integer n.toInt64]

def double (x : Float) : List JsonEvent := [.decimal x]

def noBidReason (nbr : NoBidReason) : List JsonEvent := int nbr.code

def creativeAttribute (attr : CreativeAttribute) : List JsonEvent := int attr.code

def vector (serialize : α → List JsonEvent) (values : List α) : List JsonEvent :=
  if values.isEmpty then [.startArray, .endArray]
  else .startArray :: values.flatMap serialize ++ [.endArray]

def bid (bid : Bid StdString) : List JsonEvent :=
  .startObject ::
    (string (ascii "id") ++ string bid.id ++
     string (ascii "impid") ++ string bid.impid ++
     string (ascii "price") ++ double bid.price ++
     string (ascii "adid") ++ string bid.adid ++
     string (ascii "nurl") ++ string bid.nurl ++
     string (ascii "adm") ++ string bid.adm ++
     string (ascii "adomain") ++ [.startArray] ++ bid.adomain.flatMap string ++ [.endArray] ++
     string (ascii "iurl") ++ string bid.iurl ++
     string (ascii "cid") ++ string bid.cid ++
     string (ascii "crid") ++ string bid.crid ++
     string (ascii "attr") ++ vector creativeAttribute bid.attr ++
     string (ascii "dealid") ++ string bid.dealid ++
     string (ascii "w") ++ int bid.w ++
     string (ascii "h") ++ int bid.h ++
     [.endObject])

def seatBid (seatbid : SeatBid StdString) : List JsonEvent :=
  .startObject ::
    (string (ascii "bid") ++ vector bid seatbid.bid ++
     string (ascii "seat") ++ string seatbid.seat ++
     string (ascii "group") ++ int seatbid.group ++
     [.endObject])

def bidResponse (r : BidResponse StdString) : List JsonEvent :=
  .startObject ::
    (string (ascii "id") ++ string r.id ++
     string (ascii "seatbid") ++ vector seatBid r.seatbid ++
     string (ascii "bidid") ++ string r.bidid ++
     string (ascii "cur") ++ string r.cur ++
     string (ascii "customdata") ++ string r.customdata ++
     string (ascii "nbr") ++ noBidReason r.nbr ++
     [.endObject])

end Serializer

end Serializer

section Formats

/-! What `build_response` of `dsl_mapper` tells jsonv. -/

/-- `enum_adapter::to_json`: a value without an entry is written as `null`. -/
def enumToJson [BEq E] (mapping : List (E × Int64)) (e : E) : JsonValue :=
  match mapping.find? fun entry => entry.1 == e with
  | some entry => .integer entry.2
  | none => .null

def creativeAttributes : List (CreativeAttribute × Int64) :=
  [(.undefined, -1), (.audioAdAutoPlay, 1), (.audioAdUserInitiated, 2), (.expandableAutomatic, 3),
    (.expandableUserInitiatedClick, 4), (.expandableUserInitiatedRollover, 5),
    (.inBannerVideoAdAutoPlay, 6), (.inBannerVideoAdUserInitiated, 7), (.pop, 8),
    (.provocativeOrSuggestiveImagery, 9), (.shakyFlashingFlickeringExtremeAnimationSmileys, 10),
    (.surveys, 11), (.textOnly, 12), (.userInteractive, 13), (.windowsDialogOrAlertStyle, 14),
    (.hasAudioOnOffButton, 15), (.adCanBeSkipped, 16)]

def noBidReasons : List (NoBidReason × Int64) :=
  [(.unknownError, 0), (.technicalError, 1), (.invalidRequest, 2), (.knownWebSpider, 3),
    (.suspectedNonHumanTraffic, 4), (.cloudDatacenterOrProxyIp, 5), (.unsupportedDevice, 6),
    (.blockedPublisherOrSite, 7), (.unmatchedUser, 8)]

namespace DslMapper

def bid (bid : Bid StdString) : JsonValue :=
  .object [
    (ascii "id", .string bid.id),
    (ascii "impid", .string bid.impid),
    (ascii "price", .decimal bid.price),
    (ascii "adid", .string bid.adid),
    (ascii "nurl", .string bid.nurl),
    (ascii "adm", .string bid.adm),
    (ascii "adomain", .array (bid.adomain.map .string)),
    (ascii "iurl", .string bid.iurl),
    (ascii "cid", .string bid.cid),
    (ascii "crid", .string bid.crid),
    (ascii "attr", .array (bid.attr.map (enumToJson creativeAttributes)))]

def seatBid (seatbid : SeatBid StdString) : JsonValue :=
  .object [
    (ascii "bid", .array (seatbid.bid.map bid)),
    (ascii "seat", .string seatbid.seat),
    (ascii "group", .integer seatbid.group.toInt64),
    (ascii "ext", .string seatbid.ext)]

def bidResponse (r : BidResponse StdString) : JsonValue :=
  .object [
    (ascii "id", .string r.id),
    (ascii "seatbid", .array (r.seatbid.map seatBid)),
    (ascii "bidid", .string r.bidid),
    (ascii "cur", .string r.cur),
    (ascii "customdata", .string r.customdata),
    (ascii "nbr", enumToJson noBidReasons r.nbr),
    (ascii "ext", .string r.ext)]

end DslMapper

end Formats

section Written

/-! The document behind the events. -/

namespace RapidMapper

def bid (bid : Bid StdString) : JsonValue :=
  .object [
    (ascii "id", .string bid.id),
    (ascii "impid", .string bid.impid),
    (ascii "price", .decimal bid.price),
    (ascii "adid", .string bid.adid),
    (ascii "nurl", .string bid.nurl),
    (ascii "adm", .string bid.adm),
    (ascii "adomain", .array (bid.adomain.map .string)),
    (ascii "iurl", .string bid.iurl),
    (ascii "cid", .string bid.cid),
    (ascii "crid", .string bid.crid),
    (ascii "attr", .array (bid.attr.map fun attr => .integer attr.code.toInt64)),
    (ascii "dealid", .string bid.dealid),
    (ascii "w", .integer bid.w.toInt64),
    (ascii "h", .integer bid.h.toInt64)]

def seatBid (seatbid : SeatBid StdString) : JsonValue :=
  .object [
    (ascii "bid", .array (seatbid.bid.map bid)),
    (ascii "seat", .string seatbid.seat),
    (ascii "group", .integer seatbid.group.toInt64)]

def bidResponse (r : BidResponse StdString) : JsonValue :=
  .object [
    (ascii "id", .string r.id),
    (ascii "seatbid", .array (r.seatbid.map seatBid)),
    (ascii "bidid", .string r.bidid),
    (ascii "cur", .string r.cur),
    (ascii "customdata", .string r.customdata),
    (ascii "nbr", .integer r.nbr.code.toInt64)]

end RapidMapper

theorem Serializer.vector_eq (serialize : α → List JsonEvent) (values : List α) :
    vector serialize values = .startArray :: values.flatMap serialize ++ [.endArray] := by
  cases values with
  | nil => rfl
  | cons value values => rfl

theorem Serializer.elements_events (serialize : α → List JsonEvent) (json : α → JsonValue)
    (each : ∀ a, serialize a = (json a).events) (values : List α) :
    values.flatMap serialize = JsonValue.eventsOfElements (values.map json) := by
  rw [JsonValue.eventsOfElements_eq, List.flatMap_map]
  exact congrArg (values.flatMap ·) (funext each)

theorem Serializer.vector_events (serialize : α → List JsonEvent) (json : α → JsonValue)
    (each : ∀ a, serialize a = (json a).events) (values : List α) :
    vector serialize values = (JsonValue.array (values.map json)).events := by
  rw [vector_eq, elements_events serialize json each, JsonValue.events]

theorem Serializer.bid_events (b : Bid StdString) :
    bid b = (RapidMapper.bid b).events := by
  rw [bid, elements_events string .string fun _ => rfl,
    vector_events creativeAttribute (fun attr => .integer attr.code.toInt64) fun _ => rfl]
  simp only [RapidMapper.bid, JsonValue.events, JsonValue.eventsOfMembers, string, int, double,
    List.append_assoc, List.cons_append, List.nil_append]

theorem Serializer.seatBid_events (s : SeatBid StdString) :
    seatBid s = (RapidMapper.seatBid s).events := by
  simp only [seatBid, RapidMapper.seatBid, JsonValue.events, JsonValue.eventsOfMembers,
    vector_events bid RapidMapper.bid bid_events, string, int, List.append_assoc, List.cons_append, List.nil_append]

theorem Serializer.bidResponse_events (r : BidResponse StdString) :
    bidResponse r = (RapidMapper.bidResponse r).events := by
  simp only [bidResponse, RapidMapper.bidResponse, JsonValue.events, JsonValue.eventsOfMembers,
    vector_events seatBid RapidMapper.seatBid seatBid_events, noBidReason, string, int, List.append_assoc, List.cons_append,
    List.nil_append]

/-- `create_response` through `rapid_mapper` and `any_mapper`: the document that the writer
    was told. -/
def rapidCreateResponse (r : BidResponse StdString) : Option JsonValue :=
  JsonEvent.written (Serializer.bidResponse r)

/-- `create_response` through `dsl_mapper`. -/
def dslCreateResponse (r : BidResponse StdString) : JsonValue := DslMapper.bidResponse r

theorem rapidCreateResponse_eq (r : BidResponse StdString) :
    rapidCreateResponse r = some (RapidMapper.bidResponse r) := by
  rw [rapidCreateResponse, Serializer.bidResponse_events, JsonValue.written_events]

end Written

section Agreement

/-! What the exchange is told by the two. -/

/-- The members of a bid that a bidder fills in. -/
def filledBid : List StdString :=
  [ascii "id", ascii "impid", ascii "price", ascii "adid", ascii "adm", ascii "w", ascii "h"]

/-- The members of a response, apart from its seats, that a bidder fills in. -/
def filledResponse : List StdString := [ascii "id", ascii "bidid", ascii "cur"]

def SameMembers (names : List StdString) (a b : JsonValue) : Prop :=
  ∀ name ∈ names, a.member? name = b.member? name

/-- Both values have an array under the name, with as many elements, pairwise alike. -/
def SameArrays (name : StdString) (alike : JsonValue → JsonValue → Prop) (a b : JsonValue) : Prop :=
  ∃ as bs, a.member? name = some (.array as) ∧ b.member? name = some (.array bs) ∧
    List.Forall₂ alike as bs

def SameSeatBid : JsonValue → JsonValue → Prop := SameArrays (ascii "bid") (SameMembers filledBid)

structure SameResponse (a b : JsonValue) : Prop where
  members : SameMembers filledResponse a b
  seatbid : SameArrays (ascii "seatbid") SameSeatBid a b

/-- The mapper makes no difference to what the exchange is told. -/
def MappersAgree (r : BidResponse StdString) : Prop :=
  ∃ told, rapidCreateResponse r = some told ∧ SameResponse (dslCreateResponse r) told

theorem bid_differs (b : Bid StdString) :
    ¬ SameMembers filledBid (DslMapper.bid b) (RapidMapper.bid b) := by
  intro same
  have w := same (ascii "w") (by decide)
  have dsl : (DslMapper.bid b).member? (ascii "w") = none := rfl
  have rapid : (RapidMapper.bid b).member? (ascii "w") = some (.integer b.w.toInt64) := rfl
  rw [dsl, rapid] at w
  exact absurd w.symm (Option.some_ne_none _)

theorem seatBid_same_iff (s : SeatBid StdString) :
    SameSeatBid (DslMapper.seatBid s) (RapidMapper.seatBid s) ↔ s.bid = [] := by
  have dsl : (DslMapper.seatBid s).member? (ascii "bid") =
      some (.array (s.bid.map DslMapper.bid)) := rfl
  have rapid : (RapidMapper.seatBid s).member? (ascii "bid") =
      some (.array (s.bid.map RapidMapper.bid)) := rfl
  constructor
  · rintro ⟨as, bs, has, hbs, alike⟩
    rw [dsl] at has
    rw [rapid] at hbs
    cases has
    cases hbs
    cases eq : s.bid with
    | nil => rfl
    | cons b bids =>
        rw [eq, List.map_cons, List.map_cons, List.forall₂_cons] at alike
        exact absurd alike.1 (bid_differs b)
  · intro none
    rw [none] at dsl rapid
    exact ⟨[], [], dsl, rapid, .nil⟩

theorem bidResponse_same_iff (r : BidResponse StdString) :
    SameResponse (DslMapper.bidResponse r) (RapidMapper.bidResponse r) ↔ r.bids = [] := by
  have dsl : (DslMapper.bidResponse r).member? (ascii "seatbid") =
      some (.array (r.seatbid.map DslMapper.seatBid)) := rfl
  have rapid : (RapidMapper.bidResponse r).member? (ascii "seatbid") =
      some (.array (r.seatbid.map RapidMapper.seatBid)) := rfl
  have seats : List.Forall₂ SameSeatBid (r.seatbid.map DslMapper.seatBid)
      (r.seatbid.map RapidMapper.seatBid) ↔ r.bids = [] := by
    rw [List.forall₂_map_left_iff, List.forall₂_map_right_iff, List.forall₂_same,
      BidResponse.bids, List.flatMap_eq_nil_iff]
    exact forall₂_congr fun s _ => seatBid_same_iff s
  constructor
  · rintro ⟨-, as, bs, has, hbs, alike⟩
    rw [dsl] at has
    rw [rapid] at hbs
    cases has
    cases hbs
    exact seats.mp alike
  · intro none
    constructor
    case members =>
      intro name found
      fin_cases found <;> rfl
    case seatbid => exact ⟨_, _, dsl, rapid, seats.mpr none⟩

theorem mappersAgree_iff_same (r : BidResponse StdString) :
    MappersAgree r ↔ SameResponse (DslMapper.bidResponse r) (RapidMapper.bidResponse r) := by
  rw [MappersAgree, rapidCreateResponse_eq]
  simp only [Option.some.injEq, exists_eq_left', dslCreateResponse]

/-- The mappers tell the exchange the same of a response exactly when it has no bid. -/
theorem mappers_agree_iff (r : BidResponse StdString) : MappersAgree r ↔ r.bids = [] := by
  rw [mappersAgree_iff_same, bidResponse_same_iff]

/-- `dsl_mapper` does not write how wide a bid is. -/
theorem bid_size_untold : ¬ MappersAgree
    { seatbid := [{ bid := [{ w := 300, h := 250 }] }] } := by
  rw [mappersAgree_iff_same, bidResponse_same_iff]
  exact List.cons_ne_nil _ _

end Agreement

end VanillaRtb.Dsl
