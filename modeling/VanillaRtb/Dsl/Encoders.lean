import VanillaRtb.Lib.JsonValue
import VanillaRtb.Parsers.Jsmn

/-! # Values out of jsmn tokens

`encoders::encode` builds a tree from the tokens of a text. It trusts the sizes that the
tokens carry: an object of size n takes the next n pairs of values for its members,
whatever they are, and the count of tokens that it hands down is one too many at every
level. What it does with tokens that are not there is undefined and is a fault here.
-/

namespace VanillaRtb.Dsl

open Lib Parsers

/-- An exception, a token read behind the last one, or a count that wraps below zero. The
last one is the model's own: the fuel has run out. -/
inductive Fault where
  | thrown
  | beyond
  | wrapped
  | exhausted
  deriving Repr, DecidableEq

/-- The two overloads, `encode(jsonv::value)` and `encode(boost::any)`. -/
inductive Version where
  | jsonv
  | any

namespace Encoders

def isDigit (c : UInt8) : Bool := 48 ≤ c ∧ c ≤ 57

def digitsValue (s : StdString) : Nat := s.foldl (fun n c => 10 * n + (c.toNat - 48)) 0

/-- One or more decimal digits. -/
def digits? (s : StdString) : Option Nat :=
  if s ≠ [] ∧ s.all isDigit then some (digitsValue s) else none

/-- `boost::lexical_cast<uint64_t>` of what has no minus sign. -/
def lexicalCastUint64 (s : StdString) : Option UInt64 :=
  let unsigned := match s with
    | 43 :: cs => cs
    | s => s
  (digits? unsigned).bind fun n => if n < 2 ^ 64 then some (UInt64.ofNat n) else none

/-- `boost::lexical_cast<int64_t>` of what has a minus sign in front. -/
def lexicalCastInt64 (s : StdString) : Option Int64 :=
  (digits? (s.drop 1)).bind fun n => if n ≤ 2 ^ 63 then some (Int64.ofInt (-n)) else none

def cast (x : Option T) : Except Fault T :=
  match x with
  | some x => .ok x
  | none => .error .thrown

/-- The first byte of a primitive. One overload asks with `at`, the other asks whether there
is one. -/
def front (version : Version) : StdString → Except Fault (Option UInt8)
  | c :: _ => .ok (some c)
  | [] =>
      match version with
      | .jsonv => .error .thrown
      | .any => .ok none

def insert (members : List (StdString × JsonValue)) (name : StdString) (v : JsonValue) :
    List (StdString × JsonValue) :=
  if (JsonValue.lookup name members).isSome then members else members ++ [(name, v)]

def isNull : JsonValue → Bool
  | .null => true
  | _ => false

section

variable (lexicalDouble : StdString → Option Float) (version : Version) (js : StdString)

def primitive (s : StdString) : Except Fault JsonValue :=
  if s.contains 46 then do
    let x ← cast (lexicalDouble s)
    pure (.decimal x)
  else do
    let c ← front version s
    if c = some 45 then
      let n ← cast (lexicalCastInt64 s)
      pure (.integer n)
    else if c = some 116 then pure (.boolean true)
    else if c = some 102 then pure (.boolean false)
    else
      let n ← cast (lexicalCastUint64 s)
      pure (.integer n.toInt64)

section Loops

variable (enc : List JsmnToken → Nat → Except Fault (JsonValue × Nat)) (rest : List JsmnToken)
  (count : Nat)

/-- `j += encode(js, t+1+j, count-j, v)`, with the tokens from `t+1` on. -/
def child (j : Nat) : Except Fault (JsonValue × Nat) :=
  if count < j then .error .wrapped
  else do
    let (v, d) ← enc (rest.drop j) (count - j)
    pure (v, j + d)

def members : Nat → Nat → List (StdString × JsonValue) →
    Except Fault (List (StdString × JsonValue) × Nat)
  | 0, j, ms => .ok (ms, j)
  | n + 1, j, ms => do
      let (k, j) ← child enc rest count j
      let (v, j) ← child enc rest count j
      if isNull k ∨ isNull v then members n j ms
      else
        match k with
        | .string name => members n j (insert ms name v)
        | _ => .error .thrown

def elements : Nat → Nat → List JsonValue → Except Fault (List JsonValue × Nat)
  | 0, j, vs => .ok (vs, j)
  | n + 1, j, vs => do
      let (v, j) ← child enc rest count j
      elements n j (if isNull v then vs else vs ++ [v])

end Loops

/-- The value at the first of the tokens, and how many of them it takes. -/
def encodeWith : Nat → List JsmnToken → Nat → Except Fault (JsonValue × Nat)
  | 0, _, _ => .error .exhausted
  | fuel + 1, ts, count =>
      if count = 0 then .ok (.null, 0)
      else
        match ts with
        | [] => .error .beyond
        | t :: rest =>
            match t.type with
            | .primitive => do
                let v ← primitive lexicalDouble version (t.text js)
                pure (v, 1)
            | .string => .ok (.string (t.text js), 1)
            | .object => do
                let (ms, j) ← members (encodeWith fuel) rest count t.size 0 []
                pure (.object ms, j + 1)
            | .array => do
                let (vs, j) ← elements (encodeWith fuel) rest count t.size 0 []
                pure (.array vs, j + 1)

/-- `encode` of all tokens of the text, as the mappers call it. -/
def encode (ts : List JsmnToken) : Except Fault (JsonValue × Nat) :=
  encodeWith lexicalDouble version js (ts.length + 1) ts ts.length

end

end Encoders

end VanillaRtb.Dsl
