import VanillaRtb.StdString

/-! # The jsmn tokenizer

One pass over the text, without parent links and not strict. A token array of fixed size
is filled from the front; an object or array stays open until its closing bracket gives it
an end, and the token that new ones are counted in is the last key, object or array that
the text has named. A string or primitive is taken in one go, its bytes skipped by the pass.
-/

namespace VanillaRtb.Parsers

inductive JsmnType where
  | object
  | array
  | string
  | primitive
  deriving Repr, DecidableEq

inductive JsmnError where
  | nomem
  | inval
  | part
  deriving Repr, DecidableEq

/-- Nothing in `end_` is the -1 of the source. -/
structure JsmnToken where
  type : JsmnType
  start : Nat
  end_ : Option Nat
  size : Nat := 0
  deriving Repr, DecidableEq

namespace JsmnToken

def isOpen (t : JsmnToken) : Bool := t.end_.isNone

def isContainer (t : JsmnToken) : Bool := t.type = .object ∨ t.type = .array

def grow (t : JsmnToken) : JsmnToken := { t with size := t.size + 1 }

@[simp] theorem grow_isOpen (t : JsmnToken) : t.grow.isOpen = t.isOpen := rfl

/-- The bytes of the text between start and end. -/
def text (js : StdString) (t : JsmnToken) : StdString :=
  (js.drop t.start).take (t.end_.getD t.start - t.start)

end JsmnToken

/-- `jsmn_parser`, with the tokens below `toknext`. -/
structure Jsmn where
  tokens : List JsmnToken := []
  toksuper : Option Nat := none

namespace Jsmn

open JsmnToken

/-- The greatest index of a token without an end. -/
def lastOpen : List JsmnToken → Option Nat
  | [] => none
  | t :: ts =>
      match lastOpen ts with
      | some i => some (i + 1)
      | none => if t.isOpen then some 0 else none

def allocToken (num : Nat) (t : JsmnToken) (p : Jsmn) : Except JsmnError Jsmn :=
  if num ≤ p.tokens.length then .error .nomem else .ok { p with tokens := p.tokens ++ [t] }

/-- `tokens[toksuper].size++`, where there is one. -/
def growSuper (p : Jsmn) : Jsmn :=
  match p.toksuper with
  | some i => { p with tokens := p.tokens.modify i grow }
  | none => p

def openToken (num pos : Nat) (type : JsmnType) (p : Jsmn) : Except JsmnError Jsmn := do
  let p ← p.allocToken num { type, start := pos, end_ := none }
  let p := p.growSuper
  pure { p with toksuper := some (p.tokens.length - 1) }

def closeToken (pos : Nat) (type : JsmnType) (p : Jsmn) : Except JsmnError Jsmn :=
  match lastOpen p.tokens with
  | none => .error .inval
  | some i =>
      if p.tokens[i]?.map JsmnToken.type ≠ some type then .error .inval
      else
        let tokens := p.tokens.modify i fun t => { t with end_ := some (pos + 1) }
        .ok { tokens, toksuper := lastOpen tokens }

def colon (p : Jsmn) : Jsmn :=
  { p with toksuper := if p.tokens = [] then none else some (p.tokens.length - 1) }

/-- Only objects and arrays are ever open. -/
def comma (p : Jsmn) : Jsmn :=
  match p.toksuper with
  | none => p
  | some i =>
      if p.tokens[i]?.any isContainer then p
      else { p with toksuper := (lastOpen p.tokens).or (some i) }

def isSpace (c : UInt8) : Bool := c = 9 ∨ c = 13 ∨ c = 10 ∨ c = 32

/-- What ends a primitive: a colon, white space, a comma or a closing bracket. -/
def endsPrimitive (c : UInt8) : Bool := c = 58 ∨ isSpace c ∨ c = 44 ∨ c = 93 ∨ c = 125

/-- How long a primitive at the front of the text is. -/
def primitiveLength : StdString → Except JsmnError Nat
  | [] => .ok 0
  | c :: cs =>
      if c = 0 ∨ endsPrimitive c then .ok 0
      else if c < 32 ∨ 127 ≤ c then .error .inval
      else (primitiveLength cs).map (· + 1)

def isHex (c : UInt8) : Bool := (48 ≤ c ∧ c ≤ 57) ∨ (65 ≤ c ∧ c ≤ 70) ∨ (97 ≤ c ∧ c ≤ 102)

/-- What may follow a backslash, but for the `u`. -/
def isEscape (c : UInt8) : Bool :=
  c = 34 ∨ c = 47 ∨ c = 92 ∨ c = 98 ∨ c = 102 ∨ c = 114 ∨ c = 110 ∨ c = 116

/-- How many bytes stand before the closing quote, the first few of them hexadecimal digits. -/
def stringLength : Nat → StdString → Except JsmnError Nat
  | _, [] => .error .part
  | hex + 1, c :: cs =>
      if c = 0 then .error .part
      else if isHex c then (stringLength hex cs).map (· + 1)
      else .error .inval
  | 0, c :: cs =>
      if c = 0 then .error .part
      else if c = 34 then .ok 0
      else if c = 92 then
        match cs with
        | [] => .error .part
        | e :: cs =>
            if isEscape e then (stringLength 0 cs).map (· + 2)
            else if e = 117 then (stringLength 4 cs).map (· + 2)
            else .error .inval
      else (stringLength 0 cs).map (· + 1)

/-- `jsmn_parse_primitive` and what follows it, with the number of bytes to skip. -/
def primitive (num pos : Nat) (js : StdString) (p : Jsmn) : Except JsmnError (Jsmn × Nat) := do
  let length ← primitiveLength js
  let p ← p.allocToken num { type := .primitive, start := pos, end_ := some (pos + length) }
  pure (p.growSuper, length - 1)

/-- `jsmn_parse_string` behind the opening quote and what follows it. -/
def string (num pos : Nat) (js : StdString) (p : Jsmn) : Except JsmnError (Jsmn × Nat) := do
  let length ← stringLength 0 js
  let p ← p.allocToken num
    { type := .string, start := pos + 1, end_ := some (pos + 1 + length) }
  pure (p.growSuper, length + 1)

/-- One turn of the loop at the byte `c`, and how many of the bytes behind it are done with. -/
def step (num pos : Nat) (c : UInt8) (cs : StdString) (p : Jsmn) : Except JsmnError (Jsmn × Nat) :=
  if c = 123 then (p.openToken num pos .object).map (·, 0)
  else if c = 91 then (p.openToken num pos .array).map (·, 0)
  else if c = 125 then (p.closeToken pos .object).map (·, 0)
  else if c = 93 then (p.closeToken pos .array).map (·, 0)
  else if c = 34 then p.string num pos cs
  else if isSpace c then .ok (p, 0)
  else if c = 58 then .ok (p.colon, 0)
  else if c = 44 then .ok (p.comma, 0)
  else p.primitive num pos (c :: cs)

/-- An object or array that is still open asks for more text. -/
def finish (p : Jsmn) : Except JsmnError Jsmn :=
  if p.tokens.any isOpen then .error .part else .ok p

def loop (num : Nat) : Nat → Nat → StdString → Jsmn → Except JsmnError Jsmn
  | _, _, [], p => p.finish
  | skip + 1, pos, _ :: cs, p => loop num skip (pos + 1) cs p
  | 0, pos, c :: cs, p =>
      if c = 0 then p.finish
      else do
        let (p, skip) ← p.step num pos c cs
        loop num skip (pos + 1) cs p

end Jsmn

/-- `jsmn_parse` on a fresh parser over an array of `num` tokens. -/
def jsmnParse (num : Nat) (js : StdString) : Except JsmnError (List JsmnToken) :=
  (Jsmn.loop num 0 0 js {}).map Jsmn.tokens

end VanillaRtb.Parsers
