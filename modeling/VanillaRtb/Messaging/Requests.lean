import VanillaRtb.Messaging.Serialization

/-! # Wire form of bid requests

Every `serialize` overload is one member list again, and some of them are empty: a site,
a native ad and every unicode string cross the wire as nothing but the fact that they are
there. What arrives is equal to what was sent exactly when those have nothing to lose.
-/

namespace VanillaRtb.Messaging

open Lib OpenRtb

/-- An archive with the rest of the primitives, and optionals that keep whether there is a
    value and the value. -/
structure RequestArchive (B : Type) extends BinaryArchive B where
  bool : Wire B Bool
  uint8 : Wire B UInt8
  uint16 : Wire B UInt16
  uint32 : Wire B UInt32
  float : Wire B Float32
  double : Wire B Float
  optional : {α : Type} → Wire B α → Wire B (Option α)
  bool_lossless : bool.Lossless
  uint8_lossless : uint8.Lossless
  uint16_lossless : uint16.Lossless
  uint32_lossless : uint32.Lossless
  float_lossless : float.Lossless
  double_lossless : double.Lossless
  optional_image : ∀ {α : Type} (w : Wire B α) (a : Option α),
    (optional w).image a = a.map w.image

variable {B : Type}

namespace RequestArchive

variable (ar : RequestArchive B)

/-- Enumerations are archived as `int`, here one over `int8_t`. -/
def enum8 : Wire B Int8 := ar.int.coded Int8.toInt32 Int32.toInt8

/-- An enumeration over `uint8_t`. -/
def enumU8 : Wire B UInt8 := ar.int.coded (fun c => Int32.ofNat c.toNat) fun n => n.toUInt32.toUInt8

def adPosition : Wire B AdPosition := ar.enum8.coded AdPosition.code AdPosition.mk

@[simp] theorem bool_image (b : Bool) : ar.bool.image b = b := ar.bool_lossless b

@[simp] theorem uint8_image (n : UInt8) : ar.uint8.image n = n := ar.uint8_lossless n

@[simp] theorem uint16_image (n : UInt16) : ar.uint16.image n = n := ar.uint16_lossless n

@[simp] theorem uint32_image (n : UInt32) : ar.uint32.image n = n := ar.uint32_lossless n

@[simp] theorem float_image (x : Float32) : ar.float.image x = x := ar.float_lossless x

@[simp] theorem double_image (x : Float) : ar.double.image x = x := ar.double_lossless x

theorem optional_lossless {w : Wire B α} (hw : w.Lossless) : (ar.optional w).Lossless := by
  intro a
  rw [ar.optional_image]
  cases a with
  | none => rfl
  | some a => rw [Option.map_some, hw a]

@[simp] theorem optional_int_image (n : Option Int32) : (ar.optional ar.int).image n = n :=
  ar.optional_lossless ar.int_lossless n

theorem enum8_lossless : ar.enum8.Lossless :=
  Wire.coded_lossless ar.int_lossless Int8.toInt8_toInt32

theorem enumU8_lossless : ar.enumU8.Lossless := by
  apply Wire.coded_lossless ar.int_lossless
  intro c
  apply UInt8.toNat_inj.mp
  have small := c.toNat_lt
  have wide : (Int32.ofNat c.toNat).toUInt32.toNat = c.toNat := by
    change (BitVec.ofNat 32 c.toNat).toNat = c.toNat
    rw [BitVec.toNat_ofNat]
    omega
  rw [UInt32.toNat_toUInt8, wide]
  omega

@[simp] theorem enum8_image (c : Int8) : ar.enum8.image c = c := ar.enum8_lossless c

@[simp] theorem enumU8_image (c : UInt8) : ar.enumU8.image c = c := ar.enumU8_lossless c

@[simp] theorem enums8_image (cs : List Int8) : (ar.vector ar.enum8).image cs = cs :=
  ar.vector_lossless ar.enum8_lossless cs

@[simp] theorem enumsU8_image (cs : List UInt8) : (ar.vector ar.enumU8).image cs = cs :=
  ar.vector_lossless ar.enumU8_lossless cs

@[simp] theorem adPosition_image (p : AdPosition) : ar.adPosition.image p = p :=
  Wire.coded_lossless ar.enum8_lossless (fun _ => rfl) p

end RequestArchive

section Members

/-! The overloads without members. -/

def Native.serialize : Layout B (Native StdString) := Layout.nil

def PMP.serialize : Layout B PMP := Layout.nil

def Site.serialize : Layout B (Site StdString) := Layout.nil

def App.serialize : Layout B App := Layout.nil

def Device.serialize : Layout B Device := Layout.nil

def UnicodeString.serialize : Layout B UnicodeString := Layout.nil

def Regulations.serialize : Layout B Regulations := Layout.nil

variable (ar : RequestArchive B)

def MimeType.serialize : Layout B (MimeType StdString) :=
  Layout.nil
    |>.field ar.string MimeType.type (fun a m => { m with type := a })

def Banner.serialize : Layout B (Banner StdString) :=
  Layout.nil
    |>.field ar.uint16 Banner.w (fun a b => { b with w := a })
    |>.field ar.uint16 Banner.h (fun a b => { b with h := a })
    |>.field (ar.optional ar.int) Banner.wmax (fun a b => { b with wmax := a })
    |>.field (ar.optional ar.int) Banner.hmax (fun a b => { b with hmax := a })
    |>.field (ar.optional ar.int) Banner.wmin (fun a b => { b with wmin := a })
    |>.field (ar.optional ar.int) Banner.hmin (fun a b => { b with hmin := a })
    |>.field ar.string Banner.id (fun a b => { b with id := a })
    |>.field ar.adPosition Banner.pos (fun a b => { b with pos := a })
    |>.field (ar.vector ar.enum8) Banner.btype (fun a b => { b with btype := a })
    |>.field (ar.vector ar.creativeAttribute) Banner.battr (fun a b => { b with battr := a })
    |>.field (ar.vector ((MimeType.serialize ar).toWire {})) Banner.mimes
        (fun a b => { b with mimes := a })
    |>.field ar.enum8 Banner.topframe (fun a b => { b with topframe := a })
    |>.field (ar.vector ar.enum8) Banner.expdir (fun a b => { b with expdir := a })
    |>.field (ar.vector ar.enum8) Banner.api (fun a b => { b with api := a })

def Video.serialize : Layout B (Video StdString) :=
  Layout.nil
    |>.field (ar.vector ((MimeType.serialize ar).toWire {})) Video.mimes
        (fun a v => { v with mimes := a })
    |>.field ar.uint32 Video.minduration (fun a v => { v with minduration := a })
    |>.field ar.uint32 Video.maxduration (fun a v => { v with maxduration := a })
    |>.field (ar.vector ar.enumU8) Video.protocols (fun a v => { v with protocols := a })
    |>.field ar.enumU8 Video.protocol (fun a v => { v with protocol := a })
    |>.field ar.uint16 Video.w (fun a v => { v with w := a })
    |>.field ar.uint16 Video.h (fun a v => { v with h := a })
    |>.field ar.uint32 Video.startdelay (fun a v => { v with startdelay := a })
    |>.field ar.int Video.placement (fun a v => { v with placement := a })
    |>.field ar.int Video.linearity (fun a v => { v with linearity := a })
    |>.field ar.uint8 Video.skip (fun a v => { v with skip := a })
    |>.field ar.uint32 Video.skipmin (fun a v => { v with skipmin := a })
    |>.field ar.uint32 Video.skipafter (fun a v => { v with skipafter := a })
    |>.field ar.uint16 Video.sequence (fun a v => { v with sequence := a })
    |>.field (ar.vector ar.creativeAttribute) Video.battr (fun a v => { v with battr := a })
    |>.field ar.int Video.maxextended (fun a v => { v with maxextended := a })
    |>.field ar.uint32 Video.minbitrate (fun a v => { v with minbitrate := a })
    |>.field ar.uint32 Video.maxbitrate (fun a v => { v with maxbitrate := a })
    |>.field ar.uint8 Video.boxingallowed (fun a v => { v with boxingallowed := a })
    |>.field (ar.vector ar.enumU8) Video.playbackmethod (fun a v => { v with playbackmethod := a })
    |>.field ar.enumU8 Video.playbackend (fun a v => { v with playbackend := a })
    |>.field ar.int Video.delivery (fun a v => { v with delivery := a })
    |>.field ar.adPosition Video.pos (fun a v => { v with pos := a })
    |>.field ar.int Video.companiontype (fun a v => { v with companiontype := a })

def Geo.serialize : Layout B (Geo StdString) :=
  Layout.nil
    |>.field ar.float Geo.lat (fun a g => { g with lat := a })
    |>.field ar.float Geo.lon (fun a g => { g with lon := a })
    |>.field ar.enum8 Geo.type (fun a g => { g with type := a })
    |>.field ar.int Geo.utcoffset (fun a g => { g with utcoffset := a })
    |>.field ar.string Geo.city (fun a g => { g with city := a })
    |>.field ar.string Geo.country (fun a g => { g with country := a })
    |>.field ar.string Geo.region (fun a g => { g with region := a })
    |>.field ar.string Geo.regionfips104 (fun a g => { g with regionfips104 := a })
    |>.field ar.string Geo.metro (fun a g => { g with metro := a })
    |>.field ar.string Geo.zip (fun a g => { g with zip := a })

def UserData.serialize : Layout B (UserData StdString) :=
  Layout.nil
    |>.field ar.string UserData.id (fun a d => { d with id := a })
    |>.field ar.string UserData.name (fun a d => { d with name := a })

def User.serialize : Layout B (User StdString) :=
  Layout.nil
    |>.field ar.int User.yob (fun a u => { u with yob := a })
    |>.field ar.string User.id (fun a u => { u with id := a })
    |>.field ar.string User.buyeruid (fun a u => { u with buyeruid := a })
    |>.field ar.string User.gender (fun a u => { u with gender := a })
    |>.field ar.string User.keywords (fun a u => { u with keywords := a })
    |>.field ar.string User.customdata (fun a u => { u with customdata := a })
    |>.field (ar.optional ((Geo.serialize ar).toWire {})) User.geo (fun a u => { u with geo := a })
    |>.field (ar.vector ((UserData.serialize ar).toWire {})) User.data
        (fun a u => { u with data := a })

def Impression.serialize : Layout B (Impression StdString) :=
  Layout.nil
    |>.field ar.string Impression.id (fun a i => { i with id := a })
    |>.field (ar.optional ((Banner.serialize ar).toWire {})) Impression.banner
        (fun a i => { i with banner := a })
    |>.field (ar.optional ((Video.serialize ar).toWire {})) Impression.video
        (fun a i => { i with video := a })
    |>.field (ar.optional (Native.serialize.toWire {})) Impression.native
        (fun a i => { i with native := a })
    |>.field (UnicodeString.serialize.toWire {}) Impression.displaymanager
        (fun a i => { i with displaymanager := a })
    |>.field (UnicodeString.serialize.toWire {}) Impression.displaymanagerver
        (fun a i => { i with displaymanagerver := a })
    |>.field ar.bool Impression.instl (fun a i => { i with instl := a })
    |>.field (UnicodeString.serialize.toWire {}) Impression.tagid (fun a i => { i with tagid := a })
    |>.field ar.double Impression.bidfloor (fun a i => { i with bidfloor := a })
    |>.field ar.string Impression.bidfloorcur (fun a i => { i with bidfloorcur := a })
    |>.field ar.int Impression.secure (fun a i => { i with secure := a })
    |>.field (ar.vector ar.string) Impression.iframebuster (fun a i => { i with iframebuster := a })
    |>.field (ar.optional (PMP.serialize.toWire {})) Impression.pmp (fun a i => { i with pmp := a })

def BidRequest.serialize : Layout B (BidRequest StdString) :=
  Layout.nil
    |>.field ar.string BidRequest.id (fun a r => { r with id := a })
    |>.field (ar.vector ((Impression.serialize ar).toWire {})) BidRequest.imp
        (fun a r => { r with imp := a })
    |>.field (ar.optional (Site.serialize.toWire {})) BidRequest.site
        (fun a r => { r with site := a })
    |>.field (ar.optional (App.serialize.toWire {})) BidRequest.app (fun a r => { r with app := a })
    |>.field (ar.optional (Device.serialize.toWire {})) BidRequest.device
        (fun a r => { r with device := a })
    |>.field (ar.optional ((User.serialize ar).toWire {})) BidRequest.user
        (fun a r => { r with user := a })
    |>.field ar.enum8 BidRequest.«at» (fun a r => { r with «at» := a })
    |>.field ar.int BidRequest.tmax (fun a r => { r with tmax := a })
    |>.field (ar.vector ar.string) BidRequest.wseat (fun a r => { r with wseat := a })
    |>.field ar.bool BidRequest.allimps (fun a r => { r with allimps := a })
    |>.field (ar.vector ar.string) BidRequest.cur (fun a r => { r with cur := a })
    |>.field (ar.vector ar.string) BidRequest.bcat (fun a r => { r with bcat := a })
    |>.field (ar.vector (UnicodeString.serialize.toWire {})) BidRequest.badv
        (fun a r => { r with badv := a })
    |>.field (ar.optional (Regulations.serialize.toWire {})) BidRequest.regs
        (fun a r => { r with regs := a })

/-- `vanilla::UserInfo`. -/
structure UserInfo where
  userId : StdString := []
  userData : StdString := []
  deriving DecidableEq

def UserInfo.serialize : Layout B UserInfo :=
  Layout.nil
    |>.field ar.string UserInfo.userId (fun a u => { u with userId := a })
    |>.field ar.string UserInfo.userData (fun a u => { u with userData := a })

/-- `vanilla::BidRequest`, the request that `communicator` carries. -/
structure VanillaRequest where
  bidRequest : BidRequest StdString := {}
  userInfo : UserInfo := {}

def VanillaRequest.serialize : Layout B VanillaRequest :=
  Layout.nil
    |>.field ((BidRequest.serialize ar).toWire {}) VanillaRequest.bidRequest
        (fun a r => { r with bidRequest := a })
    |>.field ((UserInfo.serialize ar).toWire {}) VanillaRequest.userInfo
        (fun a r => { r with userInfo := a })

end Members

section Commented

/-! Everything but the members whose archive line is commented out. -/

def Banner.eraseCommented (b : Banner StdString) : Banner StdString := { b with ext := [] }

def Video.eraseCommented (v : Video StdString) : Video StdString := { v with ext := [] }

def Geo.eraseCommented (g : Geo StdString) : Geo StdString := { g with ext := [] }

def UserData.eraseCommented (d : UserData StdString) : UserData StdString :=
  { d with segment := [], ext := [] }

def User.eraseCommented (u : User StdString) : User StdString :=
  { u with geo := u.geo.map Geo.eraseCommented, data := u.data.map UserData.eraseCommented,
           ext := [] }

def Impression.eraseCommented (i : Impression StdString) : Impression StdString :=
  { i with banner := i.banner.map Banner.eraseCommented,
           video := i.video.map Video.eraseCommented, ext := [] }

def BidRequest.eraseCommented (r : BidRequest StdString) : BidRequest StdString :=
  { r with imp := r.imp.map Impression.eraseCommented, user := r.user.map User.eraseCommented,
           ext := [], unparseable := [] }

def VanillaRequest.eraseCommented (r : VanillaRequest) : VanillaRequest :=
  { r with bidRequest := BidRequest.eraseCommented r.bidRequest }

end Commented

section Received

/-- What is left of an impression: that it had a native ad, and no unicode text. -/
def Impression.received (i : Impression StdString) : Impression StdString :=
  { Impression.eraseCommented i with
    native := i.native.map fun _ => {}, displaymanager := {}, displaymanagerver := {}, tagid := {} }

/-- What is left of a request: that it had a site, and how many advertisers it blocks. -/
def BidRequest.received (r : BidRequest StdString) : BidRequest StdString :=
  { BidRequest.eraseCommented r with
    imp := r.imp.map Impression.received, site := r.site.map fun _ => {},
    badv := r.badv.map fun _ => {} }

def VanillaRequest.received (r : VanillaRequest) : VanillaRequest :=
  { r with bidRequest := BidRequest.received r.bidRequest }

variable (ar : RequestArchive B)

theorem mimeType_image : ((MimeType.serialize ar).toWire {}).image = id := by
  funext m
  simp only [Layout.toWire_image, MimeType.serialize, Layout.field_copy,
    BinaryArchive.string_image, id_eq]

@[simp] theorem mimeTypes_image (ms : List (MimeType StdString)) :
    (ar.vector ((MimeType.serialize ar).toWire {})).image ms = ms := by
  rw [ar.vector_image, mimeType_image, List.map_id]

theorem banner_image : ((Banner.serialize ar).toWire {}).image = Banner.eraseCommented := by
  funext b
  simp only [Layout.toWire_image, Banner.serialize, Layout.field_copy, Layout.nil_copy,
    RequestArchive.uint16_image, RequestArchive.optional_int_image, BinaryArchive.string_image,
    RequestArchive.adPosition_image, RequestArchive.enums8_image,
    BinaryArchive.creativeAttributes_image, mimeTypes_image, RequestArchive.enum8_image]
  rfl

theorem video_image : ((Video.serialize ar).toWire {}).image = Video.eraseCommented := by
  funext v
  simp only [Layout.toWire_image, Video.serialize, Layout.field_copy, Layout.nil_copy,
    mimeTypes_image, RequestArchive.uint32_image, RequestArchive.enumsU8_image,
    RequestArchive.enumU8_image, RequestArchive.uint16_image, BinaryArchive.int_image,
    RequestArchive.uint8_image, BinaryArchive.creativeAttributes_image,
    RequestArchive.adPosition_image]
  rfl

theorem geo_image : ((Geo.serialize ar).toWire {}).image = Geo.eraseCommented := by
  funext g
  simp only [Layout.toWire_image, Geo.serialize, Layout.field_copy, Layout.nil_copy,
    RequestArchive.float_image, RequestArchive.enum8_image, BinaryArchive.int_image,
    BinaryArchive.string_image]
  rfl

theorem userData_image :
    ((UserData.serialize ar).toWire {}).image = UserData.eraseCommented := by
  funext d
  simp only [Layout.toWire_image, UserData.serialize, Layout.field_copy, Layout.nil_copy,
    BinaryArchive.string_image]
  rfl

theorem user_image : ((User.serialize ar).toWire {}).image = User.eraseCommented := by
  funext u
  simp only [Layout.toWire_image, User.serialize, Layout.field_copy, Layout.nil_copy,
    BinaryArchive.int_image, BinaryArchive.string_image, ar.optional_image, ar.vector_image,
    geo_image, userData_image]
  rfl

theorem impression_image :
    ((Impression.serialize ar).toWire {}).image = Impression.received := by
  funext i
  simp only [Layout.toWire_image, Impression.serialize, Layout.field_copy, Layout.nil_copy,
    BinaryArchive.string_image, ar.optional_image, banner_image, video_image,
    RequestArchive.bool_image, RequestArchive.double_image, BinaryArchive.int_image,
    BinaryArchive.strings_image]
  -- a deal without members arrives as itself
  rcases i with ⟨_, _, _, _, _, _, _, _, _, _, _, _, _ | _, _⟩ <;> rfl

theorem bidRequest_image :
    ((BidRequest.serialize ar).toWire {}).image = BidRequest.received := by
  funext r
  simp only [Layout.toWire_image, BidRequest.serialize, Layout.field_copy, Layout.nil_copy,
    BinaryArchive.string_image, BinaryArchive.strings_image, ar.vector_image (Layout.toWire _ _),
    ar.optional_image, impression_image, user_image, RequestArchive.enum8_image,
    BinaryArchive.int_image, RequestArchive.bool_image]
  -- and so do an app, a device and regulations
  rcases r with ⟨_, _, _, _ | _, _ | _, _, _, _, _, _, _, _, _, _ | _, _, _⟩ <;> rfl

theorem VanillaRequest.copy_eq_received (r : VanillaRequest) :
    (VanillaRequest.serialize ar).copy r {} = VanillaRequest.received r := by
  simp only [VanillaRequest.serialize, Layout.field_copy, Layout.nil_copy, bidRequest_image]
  simp only [Layout.toWire_image, UserInfo.serialize, Layout.field_copy, BinaryArchive.string_image]
  rfl

end Received

section Survival

variable (ar : RequestArchive B)

/-- One request sent through the archive and read back, up to the members whose archive
    line is commented out. -/
def RequestSurvives (r : VanillaRequest) : Prop :=
  ∃ back, deserialize ar.toBinaryArchive (VanillaRequest.serialize ar) {}
      (serialize ar.toBinaryArchive (VanillaRequest.serialize ar) r) = some back ∧
    back.eraseCommented = r.eraseCommented

/-- An impression without native ad and unicode text, or with empty ones. -/
structure ImpressionArchived (i : Impression StdString) : Prop where
  native : ∀ n ∈ i.native, n = {}
  displaymanager : i.displaymanager = {}
  displaymanagerver : i.displaymanagerver = {}
  tagid : i.tagid = {}

/-- A request all of whose members that are archived without content have none. -/
structure RequestArchived (r : BidRequest StdString) : Prop where
  imp : ∀ i ∈ r.imp, ImpressionArchived i
  site : ∀ s ∈ r.site, s = {}
  badv : ∀ u ∈ r.badv, u = {}

theorem option_map_const_eq_self {a : α} {o : Option α} :
    (o.map fun _ => a) = o ↔ ∀ x ∈ o, x = a := by
  cases o with
  | none => simp
  | some x => simp [eq_comm]

theorem list_map_const_eq_self {a : α} {as : List α} :
    (as.map fun _ => a) = as ↔ ∀ x ∈ as, x = a := by
  induction as with
  | nil => simp
  | cons x as ih =>
      rw [List.map_cons, List.cons.injEq, ih, List.forall_mem_cons, eq_comm]

@[simp] theorem Banner.eraseCommented_idem (b : Banner StdString) :
    Banner.eraseCommented (Banner.eraseCommented b) = Banner.eraseCommented b := rfl

@[simp] theorem Video.eraseCommented_idem (v : Video StdString) :
    Video.eraseCommented (Video.eraseCommented v) = Video.eraseCommented v := rfl

@[simp] theorem User.eraseCommented_idem (u : User StdString) :
    User.eraseCommented (User.eraseCommented u) = User.eraseCommented u := by
  simp only [User.eraseCommented, Option.map_map, List.map_map]
  rfl

theorem Impression.received_iff (i : Impression StdString) :
    Impression.eraseCommented (Impression.received i) = Impression.eraseCommented i ↔
      ImpressionArchived i := by
  simp only [Impression.received, Impression.eraseCommented, Impression.mk.injEq, Option.map_map,
    Function.comp_def, Banner.eraseCommented_idem, Video.eraseCommented_idem,
    option_map_const_eq_self, true_and, and_true]
  constructor
  · rintro ⟨native, dm, dmv, tag⟩
    exact ⟨native, dm.symm, dmv.symm, tag.symm⟩
  · rintro ⟨native, dm, dmv, tag⟩
    exact ⟨native, dm.symm, dmv.symm, tag.symm⟩

theorem BidRequest.received_iff (r : BidRequest StdString) :
    BidRequest.eraseCommented (BidRequest.received r) = BidRequest.eraseCommented r ↔
      RequestArchived r := by
  simp only [BidRequest.received, BidRequest.eraseCommented, BidRequest.mk.injEq, Option.map_map,
    List.map_map, Function.comp_def, User.eraseCommented_idem, option_map_const_eq_self,
    list_map_const_eq_self, List.map_inj_left, Impression.received_iff, true_and, and_true]
  constructor
  · rintro ⟨imp, site, badv⟩
    exact ⟨imp, site, badv⟩
  · rintro ⟨imp, site, badv⟩
    exact ⟨imp, site, badv⟩

theorem requestSurvives_iff_received (r : VanillaRequest) :
    RequestSurvives ar r ↔ BidRequest.eraseCommented (BidRequest.received r.bidRequest) =
      BidRequest.eraseCommented r.bidRequest := by
  rw [RequestSurvives, deserialize_serialize, VanillaRequest.copy_eq_received]
  simp only [Option.some.injEq, exists_eq_left', VanillaRequest.received,
    VanillaRequest.eraseCommented, VanillaRequest.mk.injEq, and_true]

/-- A request is the same behind the archive exactly when it has no site, native ad, unicode
    text or blocked advertiser with anything in it. -/
theorem request_survives_iff (r : VanillaRequest) :
    RequestSurvives ar r ↔ RequestArchived r.bidRequest := by
  rw [requestSurvives_iff_received, BidRequest.received_iff]

end Survival

section Tokens

/-- The primitives of an archive kept apart, in place of their bytes. -/
inductive RequestToken where
  | bool (b : Bool)
  | uint8 (n : UInt8)
  | uint16 (n : UInt16)
  | uint32 (n : UInt32)
  | int (n : Int32)
  | float (x : Float32)
  | double (x : Float)
  | string (s : StdString)
  | size (n : Nat)

private def tokenWire (token : α → RequestToken) (value : RequestToken → Option α)
    (value_token : ∀ a, value (token a) = some a) : Wire RequestToken α where
  put a := [token a]
  get
    | t :: rest => (value t).map (·, rest)
    | [] => none
  image a := a
  get_put a rest := by simp only [List.singleton_append, value_token, Option.map_some]

private def tokenBool : Wire RequestToken Bool :=
  tokenWire .bool (fun | .bool b => some b | _ => none) fun _ => rfl

private def tokenCount : Wire RequestToken Nat :=
  tokenWire .size (fun | .size n => some n | _ => none) fun _ => rfl

private def tokenOptional (w : Wire RequestToken α) : Wire RequestToken (Option α) where
  put
    | none => tokenBool.put false
    | some a => tokenBool.put true ++ w.put a
  get bs := do
    let (engaged, bs) ← tokenBool.get bs
    if engaged then (w.get bs).map fun found => (some found.1, found.2) else some (none, bs)
  image a := a.map w.image
  get_put a rest := by
    cases a with
    | none => rfl
    | some a =>
        simp only [List.append_assoc, tokenBool.get_put, Option.bind_eq_bind, Option.bind_some,
          w.get_put]
        rfl

/-- An archive that meets its documentation. -/
def requestTokens : RequestArchive RequestToken where
  header := { put := fun _ => [], get := fun bs => some ((), bs), image := id,
              get_put := fun _ _ => rfl }
  bool := tokenBool
  uint8 := tokenWire .uint8 (fun | .uint8 n => some n | _ => none) fun _ => rfl
  uint16 := tokenWire .uint16 (fun | .uint16 n => some n | _ => none) fun _ => rfl
  uint32 := tokenWire .uint32 (fun | .uint32 n => some n | _ => none) fun _ => rfl
  int := tokenWire .int (fun | .int n => some n | _ => none) fun _ => rfl
  float := tokenWire .float (fun | .float x => some x | _ => none) fun _ => rfl
  double := tokenWire .double (fun | .double x => some x | _ => none) fun _ => rfl
  string := tokenWire .string (fun | .string s => some s | _ => none) fun _ => rfl
  vector w := Wire.vector tokenCount (fun _ => rfl) w
  optional := tokenOptional
  bool_lossless _ := rfl
  uint8_lossless _ := rfl
  uint16_lossless _ := rfl
  uint32_lossless _ := rfl
  int_lossless _ := rfl
  float_lossless _ := rfl
  double_lossless _ := rfl
  string_lossless _ := rfl
  vector_image _ _ := rfl
  optional_image _ _ := rfl

end Tokens

/-- A site arrives without its id. -/
theorem site_id_lost : ¬ RequestSurvives requestTokens
    { bidRequest := { site := some { id := ascii "site" } } } := by
  intro survives
  rw [requestSurvives_iff_received] at survives
  have site := congrArg (fun r => r.site.map Site.id) survives
  exact absurd site (by decide)

end VanillaRtb.Messaging
