import VanillaRtb.Lib.Wire
import VanillaRtb.OpenRtb

/-! # Wire form of bid responses

The archive library is not part of the repository: it is a `BinaryArchive`, any
family of wire formats that reads back primitives, strings and vectors as they
were written. Each `serialize` overload is one member list, used by the archive
for saving and for loading, exactly as the source lists the members.
-/

namespace VanillaRtb.Messaging

open Lib OpenRtb

/-- A binary archive as its documentation has it: a stream header, then lossless
    primitives and strings, and vectors that keep the count and the order of their
    elements. -/
structure BinaryArchive (B : Type) where
  header : Wire B Unit
  string : Wire B StdString
  int : Wire B Int32
  vector : {α : Type} → Wire B α → Wire B (List α)
  string_lossless : string.Lossless
  int_lossless : int.Lossless
  vector_image : ∀ {α : Type} (w : Wire B α) (as : List α), (vector w).image as = as.map w.image

variable {B : Type}

namespace BinaryArchive

variable (ar : BinaryArchive B)

def creativeAttribute : Wire B CreativeAttribute :=
  ar.int.coded CreativeAttribute.code CreativeAttribute.ofCode

def noBidReason : Wire B NoBidReason :=
  ar.int.coded NoBidReason.code NoBidReason.ofCode

@[simp] theorem string_image (s : StdString) : ar.string.image s = s := ar.string_lossless s

@[simp] theorem int_image (n : Int32) : ar.int.image n = n := ar.int_lossless n

@[simp] theorem creativeAttribute_image (a : CreativeAttribute) :
    ar.creativeAttribute.image a = a :=
  Wire.coded_lossless ar.int_lossless CreativeAttribute.ofCode_code a

@[simp] theorem noBidReason_image (a : NoBidReason) : ar.noBidReason.image a = a :=
  Wire.coded_lossless ar.int_lossless NoBidReason.ofCode_code a

theorem vector_lossless {w : Wire B α} (hw : w.Lossless) : (ar.vector w).Lossless := by
  intro as
  rw [ar.vector_image]
  exact (List.map_congr_left fun a _ => hw a).trans (List.map_id as)

@[simp] theorem strings_image (ss : List StdString) : (ar.vector ar.string).image ss = ss :=
  ar.vector_lossless ar.string_lossless ss

@[simp] theorem creativeAttributes_image (as : List CreativeAttribute) :
    (ar.vector ar.creativeAttribute).image as = as :=
  ar.vector_lossless ar.creativeAttribute_image as

end BinaryArchive

section

variable (ar : BinaryArchive B)

/-- `serialize(Archive &, Bid &)`. -/
def Bid.serialize : Layout B (Bid StdString) :=
  Layout.nil
    |>.field ar.string Bid.id (fun v b => { b with id := v })
    |>.field ar.string Bid.impid (fun v b => { b with impid := v })
    |>.field ar.string Bid.adid (fun v b => { b with adid := v })
    |>.field ar.string Bid.nurl (fun v b => { b with nurl := v })
    |>.field ar.string Bid.adm (fun v b => { b with adm := v })
    |>.field (ar.vector ar.string) Bid.adomain (fun v b => { b with adomain := v })
    |>.field ar.string Bid.iurl (fun v b => { b with iurl := v })
    |>.field ar.string Bid.cid (fun v b => { b with cid := v })
    |>.field ar.string Bid.crid (fun v b => { b with crid := v })
    |>.field (ar.vector ar.creativeAttribute) Bid.attr (fun v b => { b with attr := v })
    |>.field ar.string Bid.dealid (fun v b => { b with dealid := v })
    |>.field ar.int Bid.w (fun v b => { b with w := v })
    |>.field ar.int Bid.h (fun v b => { b with h := v })

/-- `serialize(Archive &, SeatBid &)`. -/
def SeatBid.serialize : Layout B (SeatBid StdString) :=
  Layout.nil
    |>.field (ar.vector ((Bid.serialize ar).toWire {})) SeatBid.bid
        (fun v s => { s with bid := v })
    |>.field ar.string SeatBid.seat (fun v s => { s with seat := v })
    |>.field ar.int SeatBid.group (fun v s => { s with group := v })

/-- `serialize(Archive &, BidResponse &)`. -/
def BidResponse.serialize : Layout B (BidResponse StdString) :=
  Layout.nil
    |>.field ar.string BidResponse.id (fun v r => { r with id := v })
    |>.field (ar.vector ((SeatBid.serialize ar).toWire {})) BidResponse.seatbid
        (fun v r => { r with seatbid := v })
    |>.field ar.string BidResponse.bidid (fun v r => { r with bidid := v })
    |>.field ar.string BidResponse.cur (fun v r => { r with cur := v })
    |>.field ar.string BidResponse.customdata (fun v r => { r with customdata := v })
    |>.field ar.noBidReason BidResponse.nbr (fun v r => { r with nbr := v })

end

/-- `messaging::serialize`: a fresh archive with the object in it. -/
def serialize (ar : BinaryArchive B) (l : Layout B S) (data : S) : List B :=
  ar.header.put () ++ l.save data

/-- `messaging::deserialize`: `none` stands for the exception of the archive. Bytes
    after the object are not looked at. -/
def deserialize (ar : BinaryArchive B) (l : Layout B S) (fresh : S) (wire : List B) : Option S := do
  let (_, wire) ← ar.header.get wire
  let (value, _) ← l.load fresh wire
  pure value

theorem deserialize_serialize (ar : BinaryArchive B) (l : Layout B S) (fresh data : S) :
    deserialize ar l fresh (serialize ar l data) = some (l.copy data fresh) := by
  have read := l.load_save data fresh []
  rw [List.append_nil] at read
  simp only [deserialize, serialize, ar.header.get_put, Option.bind_eq_bind, Option.bind_some, read]
  rfl

/-- What is left of a bid on the far side: its price is that of a default bid. -/
def Bid.received (bid : Bid StdString) : Bid StdString := { bid with price := 0, ext := [] }

def SeatBid.received (seat : SeatBid StdString) : SeatBid StdString :=
  { seat with bid := seat.bid.map Bid.received, ext := [] }

def BidResponse.received (r : BidResponse StdString) : BidResponse StdString :=
  { r with seatbid := r.seatbid.map SeatBid.received, ext := [] }

theorem Bid.wire_image (ar : BinaryArchive B) :
    ((Bid.serialize ar).toWire {}).image = Bid.received := by
  funext bid
  simp only [Layout.toWire_image, Bid.serialize, Layout.field_copy, Layout.nil_copy, BinaryArchive.string_image,
    BinaryArchive.strings_image, BinaryArchive.creativeAttributes_image, BinaryArchive.int_image]
  rfl

theorem SeatBid.wire_image (ar : BinaryArchive B) :
    ((SeatBid.serialize ar).toWire {}).image = SeatBid.received := by
  funext seat
  simp only [Layout.toWire_image, SeatBid.serialize, Layout.field_copy, Layout.nil_copy,
    ar.vector_image, Bid.wire_image, BinaryArchive.string_image, BinaryArchive.int_image]
  rfl

theorem BidResponse.copy_eq_received (ar : BinaryArchive B) (r : BidResponse StdString) :
    (BidResponse.serialize ar).copy r {} = BidResponse.received r := by
  simp only [BidResponse.serialize, Layout.field_copy, Layout.nil_copy, ar.vector_image,
    SeatBid.wire_image, BinaryArchive.string_image, BinaryArchive.noBidReason_image]
  rfl

/-- One response sent through the archive and read back. -/
def roundTrip (ar : BinaryArchive B) (r : BidResponse StdString) : Option (BidResponse StdString) :=
  deserialize ar (BidResponse.serialize ar) {} (serialize ar (BidResponse.serialize ar) r)

theorem roundTrip_eq (ar : BinaryArchive B) (r : BidResponse StdString) :
    roundTrip ar r = some (BidResponse.received r) := by
  rw [roundTrip, deserialize_serialize, BidResponse.copy_eq_received]

end VanillaRtb.Messaging
