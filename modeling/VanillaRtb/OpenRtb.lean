import VanillaRtb.StdString

/-! # OpenRTB messages

Requests and responses with all their members. Enumerations that nothing inspects are
kept as values of their underlying types.
-/

namespace VanillaRtb.OpenRtb

/-- Creative attributes, an `int8_t` enumeration. -/
inductive CreativeAttribute where
  | undefined
  | audioAdAutoPlay
  | audioAdUserInitiated
  | expandableAutomatic
  | expandableUserInitiatedClick
  | expandableUserInitiatedRollover
  | inBannerVideoAdAutoPlay
  | inBannerVideoAdUserInitiated
  | pop
  | provocativeOrSuggestiveImagery
  | shakyFlashingFlickeringExtremeAnimationSmileys
  | surveys
  | textOnly
  | userInteractive
  | windowsDialogOrAlertStyle
  | hasAudioOnOffButton
  | adCanBeSkipped
  deriving Repr, DecidableEq

namespace CreativeAttribute

def code : CreativeAttribute → Int32
  | undefined => -1
  | audioAdAutoPlay => 1
  | audioAdUserInitiated => 2
  | expandableAutomatic => 3
  | expandableUserInitiatedClick => 4
  | expandableUserInitiatedRollover => 5
  | inBannerVideoAdAutoPlay => 6
  | inBannerVideoAdUserInitiated => 7
  | pop => 8
  | provocativeOrSuggestiveImagery => 9
  | shakyFlashingFlickeringExtremeAnimationSmileys => 10
  | surveys => 11
  | textOnly => 12
  | userInteractive => 13
  | windowsDialogOrAlertStyle => 14
  | hasAudioOnOffButton => 15
  | adCanBeSkipped => 16

def all : List CreativeAttribute :=
  [undefined, audioAdAutoPlay, audioAdUserInitiated, expandableAutomatic,
    expandableUserInitiatedClick, expandableUserInitiatedRollover, inBannerVideoAdAutoPlay,
    inBannerVideoAdUserInitiated, pop, provocativeOrSuggestiveImagery,
    shakyFlashingFlickeringExtremeAnimationSmileys, surveys, textOnly, userInteractive,
    windowsDialogOrAlertStyle, hasAudioOnOffButton, adCanBeSkipped]

def ofCode (n : Int32) : CreativeAttribute := (all.find? fun a => a.code == n).getD undefined

theorem ofCode_code (a : CreativeAttribute) : ofCode a.code = a := by
  cases a <;> decide

end CreativeAttribute

/-- Reasons for not bidding, an `int8_t` enumeration. -/
inductive NoBidReason where
  | unspecified
  | unknownError
  | technicalError
  | invalidRequest
  | knownWebSpider
  | suspectedNonHumanTraffic
  | cloudDatacenterOrProxyIp
  | unsupportedDevice
  | blockedPublisherOrSite
  | unmatchedUser
  deriving Repr, DecidableEq

namespace NoBidReason

def code : NoBidReason → Int32
  | unspecified => -1
  | unknownError => 0
  | technicalError => 1
  | invalidRequest => 2
  | knownWebSpider => 3
  | suspectedNonHumanTraffic => 4
  | cloudDatacenterOrProxyIp => 5
  | unsupportedDevice => 6
  | blockedPublisherOrSite => 7
  | unmatchedUser => 8

def all : List NoBidReason :=
  [unspecified, unknownError, technicalError, invalidRequest, knownWebSpider,
    suspectedNonHumanTraffic, cloudDatacenterOrProxyIp, unsupportedDevice,
    blockedPublisherOrSite, unmatchedUser]

def ofCode (n : Int32) : NoBidReason := (all.find? fun a => a.code == n).getD unspecified

theorem ofCode_code (a : NoBidReason) : ofCode a.code = a := by
  cases a <;> decide

end NoBidReason

section Response

variable (T : Type)

structure Bid [Inhabited T] where
  id : T := default
  impid : T := default
  price : Float := 0
  adid : T := default
  nurl : T := default
  adm : T := default
  adomain : List T := []
  iurl : T := default
  cid : T := default
  crid : T := default
  attr : List CreativeAttribute := []
  dealid : T := default
  w : Int32 := 0
  h : Int32 := 0
  ext : T := default
  deriving DecidableEq

structure SeatBid [Inhabited T] where
  bid : List (Bid T) := []
  seat : T := default
  group : Int32 := 0
  ext : T := default
  deriving DecidableEq

/-- A default-constructed response leaves `nbr` indeterminate in the source; it is
    always written before it is read. -/
structure BidResponse [Inhabited T] where
  id : T := default
  seatbid : List (SeatBid T) := []
  bidid : T := default
  cur : T := default
  customdata : T := default
  nbr : NoBidReason := .unspecified
  ext : T := default
  deriving DecidableEq

end Response

section

variable {T : Type} [Inhabited T]

def Bid.eraseExt (bid : Bid T) : Bid T := { bid with ext := default }

def SeatBid.eraseExt (seat : SeatBid T) : SeatBid T :=
  { seat with bid := seat.bid.map Bid.eraseExt, ext := default }

/-- A response without its extension members, at every level. -/
def BidResponse.eraseExt (r : BidResponse T) : BidResponse T :=
  { r with seatbid := r.seatbid.map SeatBid.eraseExt, ext := default }

/-- The response after `clear`, whatever it was before. -/
def BidResponse.clear (_ : BidResponse T) : BidResponse T := { nbr := .unknownError }

/-- All bids of all seats, in order. -/
def BidResponse.bids (r : BidResponse T) : List (Bid T) := r.seatbid.flatMap SeatBid.bid

end

section Request

variable (T : Type)

/-- Whatever `int8_t` it holds, named or not. -/
structure AdPosition where
  code : Int8 := 0
  deriving DecidableEq

structure MimeType [Inhabited T] where
  type : T := default

/-- A default-constructed banner leaves `pos` and `topframe` indeterminate in the source. -/
structure Banner [Inhabited T] where
  w : UInt16 := 0
  h : UInt16 := 0
  wmax : Option Int32 := none
  hmax : Option Int32 := none
  wmin : Option Int32 := none
  hmin : Option Int32 := none
  id : T := default
  pos : AdPosition := {}
  btype : List Int8 := []
  battr : List CreativeAttribute := []
  mimes : List (MimeType T) := []
  topframe : Int8 := 0
  expdir : List Int8 := []
  api : List Int8 := []
  ext : T := default

structure Video [Inhabited T] where
  mimes : List (MimeType T) := []
  minduration : UInt32 := 0
  maxduration : UInt32 := 0
  protocols : List UInt8 := []
  protocol : UInt8 := 0
  w : UInt16 := 0
  h : UInt16 := 0
  startdelay : UInt32 := 0
  placement : Int32 := 0
  linearity : Int32 := 0
  skip : UInt8 := 0
  skipmin : UInt32 := 0
  skipafter : UInt32 := 0
  sequence : UInt16 := 0
  battr : List CreativeAttribute := []
  maxextended : Int32 := 0
  minbitrate : UInt32 := 0
  maxbitrate : UInt32 := 0
  boxingallowed : UInt8 := 1
  playbackmethod : List UInt8 := []
  playbackend : UInt8 := 0
  delivery : Int32 := 0
  pos : AdPosition := {}
  companiontype : Int32 := 0
  ext : T := default

structure Native [Inhabited T] where
  request : T := default
  ver : T := default
  api : List Int8 := []
  battr : List CreativeAttribute := []
  ext : T := default

structure PMP where

/-- `vanilla::unicode_string`: UTF-32 code units. -/
structure UnicodeString where
  data : List UInt32 := []
  deriving DecidableEq

structure Impression [Inhabited T] where
  id : T := default
  banner : Option (Banner T) := none
  video : Option (Video T) := none
  native : Option (Native T) := none
  displaymanager : UnicodeString := {}
  displaymanagerver : UnicodeString := {}
  instl : Bool := false
  tagid : UnicodeString := {}
  bidfloor : Float := 0
  bidfloorcur : T := default
  secure : Int32 := 0
  iframebuster : List T := []
  pmp : Option PMP := none
  ext : T := default

structure Geo [Inhabited T] where
  lat : Float32 := 0
  lon : Float32 := 0
  type : Int8 := -1
  utcoffset : Int32 := 0
  city : T := default
  country : T := default
  region : T := default
  regionfips104 : T := default
  metro : T := default
  zip : T := default
  ext : T := default

structure UserDataSegment [Inhabited T] where
  id : T := default
  name : T := default
  value : T := default
  ext : T := default

structure UserData [Inhabited T] where
  id : T := default
  name : T := default
  segment : List (UserDataSegment T) := []
  ext : T := default

structure User [Inhabited T] where
  yob : Int32 := 0
  id : T := default
  buyeruid : T := default
  gender : T := default
  keywords : T := default
  customdata : T := default
  geo : Option (Geo T) := none
  data : List (UserData T) := []
  ext : T := default

structure Publisher [Inhabited T] where
  id : T := default
  name : T := default
  cat : List T := []
  domain : T := default
  ext : T := default

/-- The members of `Context` and `SiteImpl` come with it. -/
structure Site [Inhabited T] where
  name : T := default
  domain : T := default
  cat : List T := []
  sectioncat : List T := []
  pagecat : List T := []
  privacypolicy : Bool := false
  publisher : Option (Publisher T) := none
  keywords : List T := []
  ext : T := default
  page : T := default
  ref : T := default
  id : T := default

structure App where

structure Device where

structure Regulations where

structure BidRequest [Inhabited T] where
  id : T := default
  imp : List (Impression T) := []
  site : Option (Site T) := none
  app : Option App := none
  device : Option Device := none
  user : Option (User T) := none
  «at» : Int8 := 0
  tmax : Int32 := 0
  wseat : List T := []
  allimps : Bool := false
  cur : List T := []
  bcat : List T := []
  badv : List UnicodeString := []
  regs : Option Regulations := none
  ext : T := default
  unparseable : T := default

end Request

end VanillaRtb.OpenRtb
