import VanillaRtb.StdString

/-! # The request parser

The parser takes one byte at a time and keeps all it knows in a state and in the
request it fills. Parsing stops at the byte that completes or rejects the request and
hands back the bytes after it. Bytes from 128 up are negative characters in the source,
which no character class below contains.
-/

namespace VanillaRtb.Http

structure Header where
  name : StdString := []
  value : StdString := []
  deriving DecidableEq

structure Request where
  method : StdString := []
  uri : StdString := []
  httpVersionMajor : Int := 0
  httpVersionMinor : Int := 0
  headers : List Header := []
  data : StdString := []
  deriving DecidableEq

namespace RequestParser

inductive ResultType where
  | good
  | bad
  | indeterminate
  deriving DecidableEq, Repr

inductive State where
  | methodStart
  | method
  | uri
  | httpVersionH
  | httpVersionT1
  | httpVersionT2
  | httpVersionP
  | httpVersionSlash
  | httpVersionMajorStart
  | httpVersionMajor
  | httpVersionMinorStart
  | httpVersionMinor
  | expectingNewline1
  | headerLineStart
  | headerLws
  | headerName
  | spaceBeforeHeaderValue
  | headerValue
  | expectingNewline2
  | expectingNewline3
  deriving DecidableEq, Repr

def byte (c : Char) : UInt8 := c.toNat.toUInt8

def isChar (c : UInt8) : Bool := c ≤ 127

def isCtl (c : UInt8) : Bool := c ≤ 31 || c = 127

def tspecials : StdString :=
  [byte '(', byte ')', byte '<', byte '>', byte '@', byte ',', byte ';', byte ':', byte '\\',
    byte '"', byte '/', byte '[', byte ']', byte '?', byte '=', byte '\x7b', byte '\x7d',
    byte ' ', byte '\t']

def isTspecial (c : UInt8) : Bool := tspecials.contains c

def isDigit (c : UInt8) : Bool := byte '0' ≤ c && c ≤ byte '9'

/-- `v * 10 + c - '0'` -/
def appendDigit (v : Int) (c : UInt8) : Int := v * 10 + c.toNat - 48

/-- `headers.back().name.push_back` -/
def pushName (req : Request) (c : UInt8) : Request :=
  { req with headers := req.headers.modifyLast fun h => { h with name := h.name ++ [c] } }

/-- `headers.back().value.push_back` -/
def pushValue (req : Request) (c : UInt8) : Request :=
  { req with headers := req.headers.modifyLast fun h => { h with value := h.value ++ [c] } }

def consume (state : State) (req : Request) (input : UInt8) : ResultType × State × Request :=
  match state with
  | .methodStart =>
      if !isChar input || isCtl input || isTspecial input then (.bad, state, req)
      else (.indeterminate, .method, { req with method := req.method ++ [input] })
  | .method =>
      if input = byte ' ' then (.indeterminate, .uri, req)
      else if !isChar input || isCtl input || isTspecial input then (.bad, state, req)
      else (.indeterminate, .method, { req with method := req.method ++ [input] })
  | .uri =>
      if input = byte ' ' then (.indeterminate, .httpVersionH, req)
      else if isCtl input then (.bad, state, req)
      else (.indeterminate, .uri, { req with uri := req.uri ++ [input] })
  | .httpVersionH =>
      if input = byte 'H' then (.indeterminate, .httpVersionT1, req) else (.bad, state, req)
  | .httpVersionT1 =>
      if input = byte 'T' then (.indeterminate, .httpVersionT2, req) else (.bad, state, req)
  | .httpVersionT2 =>
      if input = byte 'T' then (.indeterminate, .httpVersionP, req) else (.bad, state, req)
  | .httpVersionP =>
      if input = byte 'P' then (.indeterminate, .httpVersionSlash, req) else (.bad, state, req)
  | .httpVersionSlash =>
      if input = byte '/' then
        (.indeterminate, .httpVersionMajorStart,
          { req with httpVersionMajor := 0, httpVersionMinor := 0 })
      else (.bad, state, req)
  | .httpVersionMajorStart =>
      if isDigit input then
        (.indeterminate, .httpVersionMajor,
          { req with httpVersionMajor := appendDigit req.httpVersionMajor input })
      else (.bad, state, req)
  | .httpVersionMajor =>
      if input = byte '.' then (.indeterminate, .httpVersionMinorStart, req)
      else if isDigit input then
        (.indeterminate, .httpVersionMajor,
          { req with httpVersionMajor := appendDigit req.httpVersionMajor input })
      else (.bad, state, req)
  | .httpVersionMinorStart =>
      if isDigit input then
        (.indeterminate, .httpVersionMinor,
          { req with httpVersionMinor := appendDigit req.httpVersionMinor input })
      else (.bad, state, req)
  | .httpVersionMinor =>
      if input = byte '\r' then (.indeterminate, .expectingNewline1, req)
      else if isDigit input then
        (.indeterminate, .httpVersionMinor,
          { req with httpVersionMinor := appendDigit req.httpVersionMinor input })
      else (.bad, state, req)
  | .expectingNewline1 =>
      if input = byte '\n' then (.indeterminate, .headerLineStart, req) else (.bad, state, req)
  | .headerLineStart =>
      if input = byte '\r' then (.indeterminate, .expectingNewline3, req)
      else if !req.headers.isEmpty && (input = byte ' ' || input = byte '\t') then
        (.indeterminate, .headerLws, req)
      else if !isChar input || isCtl input || isTspecial input then (.bad, state, req)
      else
        (.indeterminate, .headerName,
          pushName { req with headers := req.headers ++ [{}] } (tolower input))
  | .headerLws =>
      if input = byte '\r' then (.indeterminate, .expectingNewline2, req)
      else if input = byte ' ' || input = byte '\t' then (.indeterminate, .headerLws, req)
      else if isCtl input then (.bad, state, req)
      else (.indeterminate, .headerValue, pushValue req input)
  | .headerName =>
      if input = byte ':' then (.indeterminate, .spaceBeforeHeaderValue, req)
      else if !isChar input || isCtl input || isTspecial input then (.bad, state, req)
      else (.indeterminate, .headerName, pushName req (tolower input))
  | .spaceBeforeHeaderValue =>
      if input = byte ' ' then (.indeterminate, .headerValue, req) else (.bad, state, req)
  | .headerValue =>
      if input = byte '\r' then (.indeterminate, .expectingNewline2, req)
      else if isCtl input then (.bad, state, req)
      else (.indeterminate, .headerValue, pushValue req input)
  | .expectingNewline2 =>
      if input = byte '\n' then (.indeterminate, .headerLineStart, req) else (.bad, state, req)
  | .expectingNewline3 => (if input = byte '\n' then .good else .bad, state, req)

/-- The result, what the parser holds then, and the bytes it has not consumed. -/
def parse (state : State) (req : Request) : StdString → ResultType × State × Request × StdString
  | [] => (.indeterminate, state, req, [])
  | input :: rest =>
      match consume state req input with
      | (.indeterminate, state, req) => parse state req rest
      | (result, state, req) => (result, state, req, rest)

theorem parse_step {state next : State} {req held : Request} {input : UInt8}
    (step : consume state req input = (.indeterminate, next, held)) (rest : StdString) :
    parse state req (input :: rest) = parse next held rest := by
  rw [parse, step]

/-- Feeding bytes in two portions is feeding them in one. -/
theorem parse_append (state : State) (req : Request) (xs ys : StdString) :
    parse state req (xs ++ ys) =
      match parse state req xs with
      | (.indeterminate, next, held, _) => parse next held ys
      | (result, next, held, rest) => (result, next, held, rest ++ ys) := by
  induction xs generalizing state req with
  | nil => rfl
  | cons input rest ih =>
      rw [List.cons_append, parse, parse]
      obtain ⟨result, next, held⟩ := consume state req input
      cases result with
      | good => rfl
      | bad => rfl
      | indeterminate => exact ih next held

/-- Bytes are left over only once the request is complete or rejected. -/
theorem parse_indeterminate {state next : State} {req held : Request} {xs : StdString}
    (parsed : parse state req xs = (.indeterminate, next, held, rest)) : rest = [] := by
  induction xs generalizing state req with
  | nil =>
      simp only [parse, Prod.mk.injEq] at parsed
      exact parsed.2.2.2.symm
  | cons input xs ih =>
      rw [parse] at parsed
      cases hc : consume state req input with | mk result rest' =>
      cases result with
      | good => simp [hc] at parsed
      | bad => simp [hc] at parsed
      | indeterminate =>
          rw [hc] at parsed
          exact ih parsed

/-- What is left over is a suffix of what was fed. -/
theorem parse_suffix (state : State) (req : Request) (xs : StdString) :
    (parse state req xs).2.2.2 <:+ xs := by
  induction xs generalizing state req with
  | nil => exact List.suffix_refl _
  | cons input rest ih =>
      rw [parse]
      obtain ⟨result, next, held⟩ := consume state req input
      cases result with
      | good => exact List.suffix_cons input rest
      | bad => exact List.suffix_cons input rest
      | indeterminate => exact (ih next held).trans (List.suffix_cons input rest)

/-- The parser neither reads nor writes the body. -/
theorem consume_data (state : State) (req : Request) (input : UInt8) (data : StdString) :
    consume state { req with data } input =
      ((consume state req input).1, (consume state req input).2.1,
        { (consume state req input).2.2 with data }) := by
  cases state <;> simp only [consume, pushName, pushValue] <;> grind

theorem parse_data (state : State) (req : Request) (data xs : StdString) :
    parse state { req with data } xs =
      ((parse state req xs).1, (parse state req xs).2.1,
        { (parse state req xs).2.2.1 with data }, (parse state req xs).2.2.2) := by
  induction xs generalizing state req with
  | nil => rfl
  | cons input rest ih =>
      rw [parse, consume_data, parse]
      obtain ⟨result, next, held⟩ := consume state req input
      cases result with
      | good => rfl
      | bad => rfl
      | indeterminate => exact ih next held

end RequestParser

end VanillaRtb.Http
