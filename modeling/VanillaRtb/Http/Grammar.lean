import VanillaRtb.Http.RequestParser

/-! # Well-formed requests

A request is its method, target, version digits and header lines, a header line its
name, its value and any continuation lines. What the parser makes of the rendered
header block is the request itself, whatever follows the block.
-/

namespace VanillaRtb.Http

open RequestParser

def isToken (c : UInt8) : Bool := isChar c && !isCtl c && !isTspecial c

def isBlank (c : UInt8) : Bool := c = byte ' ' || c = byte '\t'

def crlf : StdString := [byte '\r', byte '\n']

/-- A continuation line: blanks, then text that does not begin with a blank. -/
structure Continuation where
  blanks : StdString
  text : StdString
  blanks_some : blanks ≠ []
  blanks_only : ∀ c ∈ blanks, isBlank c = true
  text_plain : ∀ c ∈ text, isCtl c = false
  text_start : text.head? ≠ some (byte ' ')

structure HeaderLine where
  name : StdString
  value : StdString
  continuations : List Continuation
  name_some : name ≠ []
  name_token : ∀ c ∈ name, isToken c = true
  value_plain : ∀ c ∈ value, isCtl c = false

structure RequestHead where
  method : StdString
  uri : StdString
  versionMajor : StdString
  versionMinor : StdString
  lines : List HeaderLine
  method_some : method ≠ []
  method_token : ∀ c ∈ method, isToken c = true
  uri_plain : ∀ c ∈ uri, isCtl c = false ∧ c ≠ byte ' '
  major_some : versionMajor ≠ []
  major_digits : ∀ c ∈ versionMajor, isDigit c = true
  minor_some : versionMinor ≠ []
  minor_digits : ∀ c ∈ versionMinor, isDigit c = true

def Continuation.render (c : Continuation) : StdString := c.blanks ++ c.text ++ crlf

def HeaderLine.render (l : HeaderLine) : StdString :=
  l.name ++ byte ':' :: byte ' ' :: l.value ++ crlf ++ l.continuations.flatMap Continuation.render

def HeaderLine.header (l : HeaderLine) : Header where
  name := toLowerCopy l.name
  value := l.value ++ l.continuations.flatMap Continuation.text

def RequestHead.render (h : RequestHead) : StdString :=
  h.method ++ byte ' ' :: h.uri ++ ascii " HTTP/" ++ h.versionMajor ++ byte '.' ::
    h.versionMinor ++ crlf ++ h.lines.flatMap HeaderLine.render ++ crlf

/-- The value that a run of digits is read as. -/
def decimal (digits : StdString) : Int := digits.foldl appendDigit 0

def RequestHead.request (h : RequestHead) : Request where
  method := h.method
  uri := h.uri
  httpVersionMajor := decimal h.versionMajor
  httpVersionMinor := decimal h.versionMinor
  headers := h.lines.map HeaderLine.header

section Bytes

theorem token_not_rejected (token : isToken c = true) :
    (!isChar c || isCtl c || isTspecial c) = false := by
  simp only [isToken, Bool.and_eq_true, Bool.not_eq_true'] at token
  simp [token]

/-- Bytes on different sides of a test are different. -/
theorem ne_of_test {test : UInt8 → Bool} (here : test c = value) (there : test d = !value) :
    c ≠ d := by
  intro same
  rw [same, there] at here
  cases value with
  | true => cases here
  | false => cases here

theorem token_not_blank (token : isToken c = true) : isBlank c = false := by
  have space : c ≠ byte ' ' := ne_of_test token rfl
  have tab : c ≠ byte '\t' := ne_of_test token rfl
  simp [isBlank, space, tab]

end Bytes

section Parsing

variable {rest : StdString}

/-- A run of bytes in which the parser stays in one state; `hold` is the request after the bytes
    that have been read there. -/
theorem parse_run {P : UInt8 → Prop} {state : State} (hold : StdString → Request)
    (step : ∀ read c, P c →
      consume state (hold read) c = (.indeterminate, state, hold (read ++ [c])))
    (all : ∀ c ∈ run, P c) (rest : StdString) :
    parse state (hold []) (run ++ rest) = parse state (hold run) rest := by
  suffices later : ∀ read, parse state (hold read) (run ++ rest) =
      parse state (hold (read ++ run)) rest by
    exact later []
  induction run with
  | nil =>
      intro read
      rw [List.append_nil, List.nil_append]
  | cons c cs ih =>
      intro read
      rw [List.forall_mem_cons] at all
      rw [List.cons_append, parse_step (step read c all.1), ih all.2, List.append_assoc,
        List.singleton_append]

theorem parse_method (req : Request) (token : ∀ c ∈ name, isToken c = true) :
    parse .method req (name ++ byte ' ' :: rest) =
      parse .uri { req with method := req.method ++ name } rest := by
  let hold (read : StdString) : Request := { req with method := req.method ++ read }
  have step (read : StdString) (c : UInt8) (here : isToken c = true) :
      consume .method (hold read) c = (.indeterminate, .method, hold (read ++ [c])) := by
    have notSpace : c ≠ byte ' ' := ne_of_test here rfl
    simp [hold, consume, notSpace, token_not_rejected here]
  have run := parse_run hold step token (byte ' ' :: rest)
  simpa [hold, parse, consume] using run

theorem parse_methodStart (req : Request) (some_name : name ≠ [])
    (token : ∀ c ∈ name, isToken c = true) :
    parse .methodStart req (name ++ byte ' ' :: rest) =
      parse .uri { req with method := req.method ++ name } rest := by
  cases name with
  | nil => exact absurd rfl some_name
  | cons c cs =>
      have step : consume .methodStart req c =
          (.indeterminate, .method, { req with method := req.method ++ [c] }) := by
        simp only [consume, token_not_rejected (token c List.mem_cons_self), Bool.false_eq_true,
          if_false]
      rw [List.cons_append, parse_step step,
        parse_method _ fun b hb => token b (List.mem_cons_of_mem _ hb)]
      simp

theorem parse_uri (req : Request) (plain : ∀ c ∈ uri, isCtl c = false ∧ c ≠ byte ' ') :
    parse .uri req (uri ++ byte ' ' :: rest) =
      parse .httpVersionH { req with uri := req.uri ++ uri } rest := by
  let hold (read : StdString) : Request := { req with uri := req.uri ++ read }
  have step (read : StdString) (c : UInt8) (here : isCtl c = false ∧ c ≠ byte ' ') :
      consume .uri (hold read) c = (.indeterminate, .uri, hold (read ++ [c])) := by
    simp [hold, consume, here]
  have run := parse_run hold step plain (byte ' ' :: rest)
  simpa [hold, parse, consume] using run

theorem parse_major (req : Request) (digits : ∀ c ∈ version, isDigit c = true) :
    parse .httpVersionMajor req (version ++ byte '.' :: rest) =
      parse .httpVersionMinorStart
        { req with httpVersionMajor := version.foldl appendDigit req.httpVersionMajor } rest := by
  let hold (read : StdString) : Request :=
    { req with httpVersionMajor := read.foldl appendDigit req.httpVersionMajor }
  have step (read : StdString) (c : UInt8) (here : isDigit c = true) :
      consume .httpVersionMajor (hold read) c =
        (.indeterminate, .httpVersionMajor, hold (read ++ [c])) := by
    have notDot : c ≠ byte '.' := ne_of_test here rfl
    simp [hold, consume, notDot, here]
  have run := parse_run hold step digits (byte '.' :: rest)
  simpa [hold, parse, consume] using run

theorem parse_minor (req : Request) (digits : ∀ c ∈ version, isDigit c = true) :
    parse .httpVersionMinor req (version ++ crlf ++ rest) =
      parse .headerLineStart
        { req with httpVersionMinor := version.foldl appendDigit req.httpVersionMinor } rest := by
  let hold (read : StdString) : Request :=
    { req with httpVersionMinor := read.foldl appendDigit req.httpVersionMinor }
  have step (read : StdString) (c : UInt8) (here : isDigit c = true) :
      consume .httpVersionMinor (hold read) c =
        (.indeterminate, .httpVersionMinor, hold (read ++ [c])) := by
    have notReturn : c ≠ byte '\r' := ne_of_test here rfl
    simp [hold, consume, notReturn, here]
  have run := parse_run hold step digits (crlf ++ rest)
  simpa [hold, parse, consume, crlf] using run

theorem parse_version (req : Request) (some_major : major ≠ [])
    (majors : ∀ c ∈ major, isDigit c = true) (some_minor : minor ≠ [])
    (minors : ∀ c ∈ minor, isDigit c = true) :
    parse .httpVersionH req (ascii "HTTP/" ++ major ++ byte '.' :: minor ++ crlf ++ rest) =
      parse .headerLineStart
        { req with httpVersionMajor := decimal major, httpVersionMinor := decimal minor } rest := by
  cases major with
  | nil => exact absurd rfl some_major
  | cons first major =>
  cases minor with
  | nil => exact absurd rfl some_minor
  | cons second minor =>
      have firstDigit := majors first List.mem_cons_self
      have secondDigit := minors second List.mem_cons_self
      have letters : ascii "HTTP/" = [byte 'H', byte 'T', byte 'T', byte 'P', byte '/'] := rfl
      rw [letters]
      simp only [List.cons_append, List.nil_append, List.append_assoc, parse, consume, if_true,
        firstDigit]
      rw [parse_major _ fun b hb => majors b (List.mem_cons_of_mem _ hb)]
      simp only [parse, consume, secondDigit, if_true]
      rw [← List.append_assoc, parse_minor _ fun b hb => minors b (List.mem_cons_of_mem _ hb)]
      rfl

/-- The value of the last header grows up to the end of the line. -/
theorem parse_value (req : Request) (init : List Header) (h : Header)
    (plain : ∀ c ∈ value, isCtl c = false) :
    parse .headerValue { req with headers := init ++ [h] } (value ++ crlf ++ rest) =
      parse .headerLineStart
        { req with headers := init ++ [{ h with value := h.value ++ value }] } rest := by
  let hold (read : StdString) : Request :=
    { req with headers := init ++ [{ h with value := h.value ++ read }] }
  have step (read : StdString) (c : UInt8) (here : isCtl c = false) :
      consume .headerValue (hold read) c = (.indeterminate, .headerValue, hold (read ++ [c])) := by
    have notReturn : c ≠ byte '\r' := ne_of_test here rfl
    simp [hold, consume, notReturn, here, pushValue, List.modifyLast_concat]
  have run := parse_run hold step plain (crlf ++ rest)
  simpa [hold, parse, consume, crlf] using run

theorem parse_name (req : Request) (init : List Header) (h : Header)
    (token : ∀ c ∈ name, isToken c = true) :
    parse .headerName { req with headers := init ++ [h] }
        (name ++ byte ':' :: byte ' ' :: rest) =
      parse .headerValue
        { req with headers := init ++ [{ h with name := h.name ++ toLowerCopy name }] } rest := by
  let hold (read : StdString) : Request :=
    { req with headers := init ++ [{ h with name := h.name ++ toLowerCopy read }] }
  have step (read : StdString) (c : UInt8) (here : isToken c = true) :
      consume .headerName (hold read) c = (.indeterminate, .headerName, hold (read ++ [c])) := by
    have notColon : c ≠ byte ':' := ne_of_test here rfl
    simp [hold, consume, notColon, token_not_rejected here, pushName, List.modifyLast_concat,
      toLowerCopy]
  have run := parse_run hold step token (byte ':' :: byte ' ' :: rest)
  simpa [hold, parse, consume, toLowerCopy] using run

theorem parse_blanks (req : Request) (blank : ∀ c ∈ blanks, isBlank c = true) :
    parse .headerLws req (blanks ++ rest) = parse .headerLws req rest := by
  have step (read : StdString) (c : UInt8) (here : isBlank c = true) :
      consume .headerLws req c = (.indeterminate, .headerLws, req) := by
    have notReturn : c ≠ byte '\r' := ne_of_test here rfl
    simp only [isBlank] at here
    simp only [consume, if_neg notReturn, here, if_true]
  exact parse_run (fun _ => req) step blank rest

/-- The text after the blanks belongs to the value of the last header. -/
theorem parse_text (req : Request) (init : List Header) (h : Header)
    (plain : ∀ c ∈ text, isCtl c = false) (start : text.head? ≠ some (byte ' ')) :
    parse .headerLws { req with headers := init ++ [h] } (text ++ crlf ++ rest) =
      parse .headerLineStart
        { req with headers := init ++ [{ h with value := h.value ++ text }] } rest := by
  cases text with
  | nil => simp [parse, consume, crlf]
  | cons c cs =>
      have here := plain c List.mem_cons_self
      have notSpace : c ≠ byte ' ' := by simpa using start
      have notTab : c ≠ byte '\t' := ne_of_test here rfl
      have notReturn : c ≠ byte '\r' := ne_of_test here rfl
      have step : consume .headerLws { req with headers := init ++ [h] } c =
          (.indeterminate, .headerValue,
            { req with headers := init ++ [{ h with value := h.value ++ [c] }] }) := by
        simp [consume, notReturn, notSpace, notTab, here, pushValue,
          List.modifyLast_concat]
      rw [List.cons_append, List.cons_append, parse_step step,
        parse_value req init _ fun b hb => plain b (List.mem_cons_of_mem _ hb)]
      simp

theorem parse_continuation (req : Request) (init : List Header) (h : Header) (c : Continuation) :
    parse .headerLineStart { req with headers := init ++ [h] } (c.render ++ rest) =
      parse .headerLineStart
        { req with headers := init ++ [{ h with value := h.value ++ c.text }] } rest := by
  obtain ⟨blanks, text, some_blank, blank, plain, start⟩ := c
  cases blanks with
  | nil => exact absurd rfl some_blank
  | cons b bs =>
      have here := blank b List.mem_cons_self
      have step : consume .headerLineStart { req with headers := init ++ [h] } b =
          (.indeterminate, .headerLws, { req with headers := init ++ [h] }) := by
        have notReturn : b ≠ byte '\r' := ne_of_test here rfl
        simp only [isBlank] at here
        simp [consume, notReturn, here]
      rw [Continuation.render, List.cons_append, List.cons_append, List.cons_append,
        parse_step step, List.append_assoc, List.append_assoc,
        parse_blanks _ fun a ha => blank a (List.mem_cons_of_mem _ ha), ← List.append_assoc,
        parse_text req init h plain start]

theorem parse_continuations (req : Request) (init : List Header) (h : Header)
    (cs : List Continuation) :
    parse .headerLineStart { req with headers := init ++ [h] }
        (cs.flatMap Continuation.render ++ rest) =
      parse .headerLineStart
        { req with headers := init ++ [{ h with value := h.value ++ cs.flatMap Continuation.text }] }
        rest := by
  induction cs generalizing h with
  | nil => simp
  | cons c cs ih =>
      rw [List.flatMap_cons, List.append_assoc, parse_continuation, ih]
      simp

theorem parse_line (req : Request) (l : HeaderLine) :
    parse .headerLineStart req (l.render ++ rest) =
      parse .headerLineStart { req with headers := req.headers ++ [l.header] } rest := by
  obtain ⟨name, value, continuations, some_name, token, plain⟩ := l
  cases name with
  | nil => exact absurd rfl some_name
  | cons c cs =>
      have here := token c List.mem_cons_self
      have notReturn : c ≠ byte '\r' := ne_of_test here rfl
      have notBlank := token_not_blank here
      simp only [isBlank] at notBlank
      have step : consume .headerLineStart req c =
          (.indeterminate, .headerName,
            { req with headers := req.headers ++ [{ name := [tolower c] }] }) := by
        simp [consume, notReturn, notBlank, token_not_rejected here, pushName,
          List.modifyLast_concat]
      have shape : HeaderLine.render ⟨c :: cs, value, continuations, some_name, token, plain⟩ ++
          rest = c :: (cs ++ byte ':' :: byte ' ' ::
            (value ++ crlf ++ (continuations.flatMap Continuation.render ++ rest))) := by
        simp [HeaderLine.render]
      rw [shape, parse_step step, parse_name req _ _ fun b hb => token b (List.mem_cons_of_mem _ hb),
        parse_value req _ _ plain, parse_continuations]
      simp [HeaderLine.header, toLowerCopy]

theorem parse_lines (req : Request) (lines : List HeaderLine) :
    parse .headerLineStart req (lines.flatMap HeaderLine.render ++ rest) =
      parse .headerLineStart
        { req with headers := req.headers ++ lines.map HeaderLine.header } rest := by
  induction lines generalizing req with
  | nil => simp
  | cons l ls ih =>
      rw [List.flatMap_cons, List.append_assoc, parse_line, ih]
      simp

/-- A rendered header block parses to its request, and nothing after it is consumed. -/
theorem parse_render (h : RequestHead) (rest : StdString) :
    parse .methodStart {} (h.render ++ rest) =
      (.good, .expectingNewline3, h.request, rest) := by
  have shape : h.render ++ rest = h.method ++ byte ' ' :: (h.uri ++ byte ' ' ::
      (ascii "HTTP/" ++ h.versionMajor ++ byte '.' :: h.versionMinor ++ crlf ++
        (h.lines.flatMap HeaderLine.render ++ (crlf ++ rest)))) := by
    have space : ascii " HTTP/" = byte ' ' :: ascii "HTTP/" := rfl
    simp [RequestHead.render, space]
  rw [shape, parse_methodStart _ h.method_some h.method_token, parse_uri _ h.uri_plain,
    parse_version _ h.major_some h.major_digits h.minor_some h.minor_digits, parse_lines]
  simp [parse, consume, crlf, RequestHead.request]

/-- Before its last byte a header block is neither complete nor rejected, and the rest
    of the block completes it. -/
theorem parse_prefix (h : RequestHead) {before after : StdString}
    (cut : h.render = before ++ after) (some_after : after ≠ []) :
    ∃ state held, parse .methodStart {} before = (.indeterminate, state, held, []) ∧
      ∀ rest, parse state held (after ++ rest) =
        (.good, .expectingNewline3, h.request, rest) := by
  have complete := parse_render h
  cases parsed : parse .methodStart {} before with | mk result more =>
  obtain ⟨state, held, left⟩ := more
  have split := fun rest => parse_append .methodStart {} before (after ++ rest)
  simp only [parsed, ← List.append_assoc, ← cut, complete] at split
  have nothing_left : result ≠ .indeterminate → False := by
    intro stopped
    have leftover := split []
    cases result with
    | indeterminate => exact stopped rfl
    | good =>
        simp only [Prod.mk.injEq, List.append_nil] at leftover
        exact some_after (List.append_eq_nil_iff.mp leftover.2.2.2.symm).2
    | bad => simp at leftover
  cases result with
  | good => exact (nothing_left (by decide)).elim
  | bad => exact (nothing_left (by decide)).elim
  | indeterminate =>
      obtain rfl := parse_indeterminate parsed
      exact ⟨state, held, rfl, fun rest => (split rest).symm⟩

end Parsing

end VanillaRtb.Http
