import VanillaRtb.Lib.Peg
import VanillaRtb.StdString

/-! # The grammar of URIs

The rules of `uri_grammar` as parsing expressions, and the parts of a URI that `parse` hands
to its caller. The number parser of the dotted addresses is a parameter.
-/

namespace VanillaRtb.Common

open Lib

/-- Either the default range, which belongs to no string, or a part of the URI. -/
inductive IteratorRange where
  | unset
  | text (s : StdString)
  deriving DecidableEq

def IteratorRange.string : IteratorRange → StdString
  | .unset => []
  | .text s => s

structure HierarchicalPart where
  userInfo : Option IteratorRange := none
  host : Option IteratorRange := none
  port : Option IteratorRange := none
  path : Option IteratorRange := none
  deriving DecidableEq

structure UriParts where
  scheme : IteratorRange := .unset
  hierPart : HierarchicalPart := {}
  query : Option IteratorRange := none
  fragment : Option IteratorRange := none
  deriving DecidableEq

namespace UriGrammar

/-- What the rules assign to; `none` in front stands for `qi::attr(iterator_range())`. -/
inductive Attribute where
  | scheme
  | userInfo
  | host
  | port
  | path
  | query
  | fragment
  | noUserInfo
  | noHost
  | noPort
  deriving DecidableEq

abbrev Rule := Peg UInt8 Attribute

def assign (parts : UriParts) (value : Attribute × StdString) : UriParts :=
  let text := some (IteratorRange.text value.2)
  match value.1 with
  | .scheme => { parts with scheme := .text value.2 }
  | .userInfo => { parts with hierPart.userInfo := text }
  | .host => { parts with hierPart.host := text }
  | .port => { parts with hierPart.port := text }
  | .path => { parts with hierPart.path := text }
  | .query => { parts with query := text }
  | .fragment => { parts with fragment := text }
  | .noUserInfo => { parts with hierPart.userInfo := some .unset }
  | .noHost => { parts with hierPart.host := some .unset }
  | .noPort => { parts with hierPart.port := some .unset }

def isDigit (c : UInt8) : Bool := 48 ≤ c && c ≤ 57

def isAlpha (c : UInt8) : Bool := 65 ≤ c && c ≤ 90 || 97 ≤ c && c ≤ 122

def isXdigit (c : UInt8) : Bool := isDigit c || 65 ≤ c && c ≤ 70 || 97 ≤ c && c ≤ 102

def digit : Rule := .sat isDigit

def xdigit : Rule := .sat isXdigit

def alpha : Rule := .sat isAlpha

def alnum : Rule := .sat fun c => isAlpha c || isDigit c

/-- `qi::char_` of a set. -/
def oneOf (chars : String) : Rule := .sat (ascii chars).contains

def literal (chars : String) : Rule := .lit (ascii chars)

def subDelims : Rule := oneOf "!$&'()*+,;="

def unreserved : Rule := .alt alnum (oneOf "-._~")

def pctEncoded : Rule := .seq (oneOf "%") (.many 2 xdigit)

/-- The alternatives that the rules for text share, with the characters each adds. -/
def textWith (more : String) : Rule :=
  .alt unreserved (.alt pctEncoded (.alt subDelims (oneOf more)))

def pchar : Rule := textWith ":@"

def segment : Rule := .star pchar

def segmentNz : Rule := .plus pchar

def segments : Rule := .star (.seq (oneOf "/") segment)

def pathAbempty : Rule := .raw .path segments

def pathAbsolute : Rule := .raw .path (.seq (oneOf "/") (.opt (.seq segmentNz segments)))

def pathRootless : Rule := .raw .path (.seq segmentNz segments)

def pathEmpty : Rule := .raw .path .eps

def schemeText : Rule := .seq alpha (.star (.alt alnum (oneOf "+-.")))

def scheme : Rule := .raw .scheme schemeText

def userInfoText : Rule := .star (textWith ":")

def userInfo : Rule := .raw .userInfo userInfoText

/-- `repeat(1, 4)[xdigit]`. -/
def h16 : Rule := .between 1 3 xdigit

def h16Colon : Rule := .seq h16 (literal ":")

/-- `qi::uint_parser<boost::uint8_t, 10, 1, 3>`, which tells how many digits it takes. -/
structure OctetParser where
  width : StdString → Option Nat
  /-- It takes up to three digits. -/
  digits : ∀ {s n}, width s = some n → 0 < n ∧ n ≤ 3 ∧ n ≤ s.length ∧ (s.take n).all isDigit
  /-- It sees no further than the digits. -/
  before : ∀ {tail : StdString}, (∀ c, tail.head? = some c → isDigit c = false) →
    ∀ s, width (s ++ tail) = width s

/-- The parser that fails where the number does not fit. -/
def uint8Parser : OctetParser where
  width s :=
    let digits := (s.takeWhile isDigit).take 3
    if digits = [] ∨ 255 < digits.foldl (fun n c => 10 * n + (c.toNat - 48)) 0 then none
    else some digits.length
  digits {s n} wide := by
    simp only [Option.ite_none_left_eq_some, Option.some.injEq, not_or] at wide
    obtain ⟨⟨some_, -⟩, rfl⟩ := wide
    have digits : (s.takeWhile isDigit).take 3 <+: s :=
      (List.take_prefix _ _).trans (List.takeWhile_prefix _)
    refine ⟨List.length_pos_iff.mpr some_, List.length_take_le _ _, digits.length_le, ?_⟩
    rw [← List.prefix_iff_eq_take.mp digits]
    rw [List.all_eq_true]
    intro c member
    exact List.all_eq_true.mp List.all_takeWhile c (List.mem_of_mem_take member)
  before {tail} next s := by
    have same : (s ++ tail).takeWhile isDigit = s.takeWhile isDigit := by
      rw [List.takeWhile_append]
      split
      · rename_i all
        have whole : s.takeWhile isDigit = s := (List.takeWhile_prefix _).eq_of_length all
        cases tail with
        | nil => simp [whole]
        | cons c tail => simp [whole, next c rfl]
      · rfl
    simp only [same]

section Addresses

variable (octet : OctetParser)

def decOctet : Rule := .seq (.not (.seq (literal "0") digit)) (.scan octet.width)

def ipv4address : Rule := .seq (decOctet octet) (.many 3 (.seq (literal ".") (decOctet octet)))

def ls32 : Rule := .alt (.seq h16 (.seq (literal ":") h16)) (ipv4address octet)

/-- The groups before the `::` of the fourth alternative: a repetition of a repetition. -/
def someGroups : Rule := .seq (.plus (.star h16Colon)) h16

def groups (n : Nat) : Rule := .seq (.many n (.star h16Colon)) h16

def ipv6address : Rule :=
  .alt (.seq (.many 6 h16Colon) (ls32 octet)) <|
  .alt (.seq (literal "::") (.seq (.many 5 h16Colon) (ls32 octet))) <|
  .alt (.seq h16 (.seq (literal "::") (.seq (.many 4 h16Colon) (ls32 octet)))) <|
  .alt (.seq someGroups (.seq (literal "::") (.seq (.many 3 h16Colon) (ls32 octet)))) <|
  .alt (.seq (groups 2) (.seq (literal "::") (.seq (.many 2 h16Colon) (ls32 octet)))) <|
  .alt (.seq (groups 3) (.seq (literal "::") (.seq h16 (.seq (literal ":") (ls32 octet))))) <|
  .alt (.seq (groups 4) (.seq (literal "::") (ls32 octet))) <|
  .alt (.seq (groups 5) (.seq (literal "::") h16)) <|
  .seq (groups 6) (literal "::")

def ipvfuture : Rule :=
  .seq (literal "v") (.seq (.plus xdigit) (.seq (literal ".")
    (.plus (.alt unreserved (.alt subDelims (literal ":"))))))

def ipLiteral : Rule :=
  .seq (literal "[") (.seq (.alt (ipv6address octet) ipvfuture) (literal "]"))

def regName : Rule := .star (.alt unreserved (.alt pctEncoded subDelims))

def hostText : Rule := .alt (ipLiteral octet) (.alt (ipv4address octet) regName)

def host : Rule := .raw .host (hostText octet)

def portText : Rule := .star digit

def port : Rule := .raw .port portText

def queryText : Rule := .star (.alt pchar (oneOf "/?"))

def query : Rule := .raw .query queryText

def fragment : Rule := .raw .fragment queryText

def authority : Rule :=
  .seq (.alt (.seq (literal "//") (.seq userInfo (literal "@"))) (literal "//"))
    (.seq (host octet) (.opt (.seq (literal ":") port)))

def noAuthority : Rule := .seq (.attr .noUserInfo) (.seq (.attr .noHost) (.attr .noPort))

def path : Rule := .alt pathAbsolute (.alt pathRootless pathEmpty)

def hierPart : Rule := .alt (.seq (authority octet) pathAbempty) (.seq noAuthority path)

def queryPart : Rule := .opt (.seq (literal "?") query)

def fragmentPart : Rule := .opt (.seq (literal "#") fragment)

def start : Rule :=
  .seq (.seq scheme (literal ":")) (.seq (hierPart octet) (.seq queryPart fragmentPart))

/-- What is assigned before a failure stays assigned; that is the scheme at most. -/
def parts (fuel : Nat) (url : StdString) : Option (Peg.Match UInt8 Attribute) → UriParts
  | some m => m.parts.foldl assign {}
  | none =>
      match Peg.run fuel scheme url with
      | some (some m) => m.parts.foldl assign {}
      | _ => {}

/-- Whether the whole text is a URI, and the parts; nothing where the fuel does not suffice. -/
def parse (fuel : Nat) (url : StdString) : Option (Bool × UriParts) :=
  (Peg.run fuel (start octet) url).map fun m =>
    ((m.map fun m => m.rest.isEmpty).getD false, parts fuel url m)

/-- `parse` returns this. -/
def Parses (url : StdString) (result : Bool × UriParts) : Prop :=
  ∃ fuel, parse octet fuel url = some result

end Addresses

end UriGrammar

end VanillaRtb.Common
