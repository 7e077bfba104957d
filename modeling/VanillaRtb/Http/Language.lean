import VanillaRtb.Http.Grammar
import VanillaRtb.Lib.SymbolRuns

/-! # The language of the request parser

From every state the parser accepts what completes a header block from there and nothing else,
and there is always something that does. So it rejects a byte exactly if no header block begins
with the bytes up to it, and what it accepts is a rendered header block.
-/

namespace VanillaRtb.Http

open RequestParser
open Lib

section States

def isPlain (c : UInt8) : Bool := !isCtl c

def isUriByte (c : UInt8) : Bool := !isCtl c && c ≠ byte ' '

variable (has : Bool)

/-- Lines up to the empty one, among them continuations of a header that there is already. -/
def LinesRest (xs : StdString) : Prop :=
  ∃ (continuations : List Continuation) (lines : List HeaderLine),
    (continuations ≠ [] → has = true) ∧
      xs = continuations.flatMap Continuation.render ++
        (lines.flatMap HeaderLine.render ++ crlf)

def ValueRest : StdString → Prop := RunThen isPlain crlf (LinesRest has)

/-- What is left of the blanks of a continuation, and its text. -/
def BlanksRest (xs : StdString) : Prop :=
  ∃ blanks text rest, (∀ c ∈ blanks, isBlank c = true) ∧ (∀ c ∈ text, isCtl c = false) ∧
    text.head? ≠ some (byte ' ') ∧ xs = blanks ++ text ++ crlf ++ rest ∧ LinesRest has rest

def NameRest : StdString → Prop := RunThen isToken [byte ':', byte ' '] (ValueRest has)

def MinorRest : StdString → Prop := RunThen isDigit crlf (LinesRest has)

def MinorStartRest : StdString → Prop := SomeRunThen isDigit crlf (LinesRest has)

def MajorRest : StdString → Prop := RunThen isDigit [byte '.'] (MinorStartRest has)

def MajorStartRest : StdString → Prop := SomeRunThen isDigit [byte '.'] (MinorStartRest has)

/-- What is left of the letters before the version. -/
def VersionRest (letters : String) : StdString → Prop :=
  FixedThen (ascii letters) (MajorStartRest has)

def UriRest : StdString → Prop := RunThen isUriByte [byte ' '] (VersionRest has "HTTP/")

/-- What completes a header block from a state, `has` telling whether there is a header. -/
def Completes : State → StdString → Prop
  | .methodStart => SomeRunThen isToken [byte ' '] (UriRest has)
  | .method => RunThen isToken [byte ' '] (UriRest has)
  | .uri => UriRest has
  | .httpVersionH => VersionRest has "HTTP/"
  | .httpVersionT1 => VersionRest has "TTP/"
  | .httpVersionT2 => VersionRest has "TP/"
  | .httpVersionP => VersionRest has "P/"
  | .httpVersionSlash => VersionRest has "/"
  | .httpVersionMajorStart => MajorStartRest has
  | .httpVersionMajor => MajorRest has
  | .httpVersionMinorStart => MinorStartRest has
  | .httpVersionMinor => MinorRest has
  | .expectingNewline1 => FixedThen [byte '\n'] (LinesRest has)
  | .headerLineStart => LinesRest has
  | .headerLws => BlanksRest has
  | .headerName => NameRest has
  | .spaceBeforeHeaderValue => FixedThen [byte ' '] (ValueRest has)
  | .headerValue => ValueRest has
  | .expectingNewline2 => FixedThen [byte '\n'] (LinesRest has)
  | .expectingNewline3 => fun xs => xs = [byte '\n']

end States

section Steps

variable {has : Bool} {xs : StdString} {input : UInt8}

theorem linesRest_end : LinesRest has crlf := ⟨[], [], nofun, rfl⟩

theorem linesRest_continuation (blank : isBlank input = true) (rest : BlanksRest true xs) :
    LinesRest true (input :: xs) := by
  obtain ⟨blanks, text, after, blanks_only, plain, start, rfl, cs, lines, -, rfl⟩ := rest
  refine ⟨⟨input :: blanks, text, List.cons_ne_nil input blanks,
    List.forall_mem_cons.mpr ⟨blank, blanks_only⟩, plain, start⟩ :: cs, lines, fun _ => rfl, ?_⟩
  simp [Continuation.render]

theorem linesRest_line (token : isToken input = true) (rest : NameRest true xs) :
    LinesRest has (input :: xs) := by
  obtain ⟨name, value, tokens, rfl, run, after, plain, rfl, cs, lines, -, rfl⟩ := rest
  have value_plain : ∀ c ∈ run, isCtl c = false := by
    intro c inside
    exact Bool.not_eq_true' _ ▸ plain c inside
  refine ⟨[], ⟨input :: name, run, cs, List.cons_ne_nil input name,
    List.forall_mem_cons.mpr ⟨token, tokens⟩, value_plain⟩ :: lines, nofun, ?_⟩
  simp [HeaderLine.render]

theorem blanksRest_blank (blank : isBlank input = true) (rest : BlanksRest has xs) :
    BlanksRest has (input :: xs) := by
  obtain ⟨blanks, text, after, blanks_only, plain, start, rfl, lines⟩ := rest
  exact ⟨input :: blanks, text, after, List.forall_mem_cons.mpr ⟨blank, blanks_only⟩, plain, start,
    rfl, lines⟩

theorem blanksRest_text (plain : isCtl input = false) (text : input ≠ byte ' ')
    (rest : ValueRest has xs) : BlanksRest has (input :: xs) := by
  obtain ⟨value, after, all, rfl, lines⟩ := rest
  have value_plain : ∀ c ∈ input :: value, isCtl c = false := by
    intro c inside
    rcases List.mem_cons.mp inside with rfl | later
    · exact plain
    · exact Bool.not_eq_true' _ ▸ all c later
  refine ⟨[], input :: value, after, nofun, value_plain, ?_, by simp, lines⟩
  exact fun same => text (Option.some.inj same)

end Steps

section Consume

variable {req held : Request} {input : UInt8} {state next : State} {xs : StdString}

def hasHeader (req : Request) : Bool := !req.headers.isEmpty

theorem modifyLast_isEmpty (f : Header → Header) (headers : List Header) :
    (headers.modifyLast f).isEmpty = headers.isEmpty := by
  rcases List.eq_nil_or_concat headers with rfl | ⟨init, last, rfl⟩
  · rfl
  · rw [List.concat_eq_append, List.modifyLast_concat]
    cases init <;> rfl

theorem hasHeader_pushName (req : Request) (c : UInt8) :
    hasHeader (pushName req c) = hasHeader req :=
  congrArg (! ·) (modifyLast_isEmpty _ req.headers)

theorem hasHeader_pushValue (req : Request) (c : UInt8) :
    hasHeader (pushValue req c) = hasHeader req :=
  congrArg (! ·) (modifyLast_isEmpty _ req.headers)

theorem isToken_of_kept
    (kept : ¬ (!isChar input || isCtl input || isTspecial input) = true) :
    isToken input = true := by
  simpa [isToken, and_assoc] using kept

theorem isPlain_of_kept (kept : ¬ isCtl input = true) : isPlain input = true := by
  simpa [isPlain] using kept

theorem isUriByte_of_kept (space : input ≠ byte ' ') (kept : ¬ isCtl input = true) :
    isUriByte input = true := by
  simp only [isUriByte, Bool.and_eq_true, decide_eq_true_eq, Bool.not_eq_true']
  exact ⟨by simpa using kept, space⟩

/-- A run that goes on or ends at the byte `stop`. -/
theorem runThen_byte {test : UInt8 → Bool} {stop : UInt8} {after : StdString → Prop}
    (here : input = stop) (rest : after xs) : RunThen test [stop] after (input :: xs) :=
  RunThen.of_fixed ⟨xs, congrArg (· :: xs) here, rest⟩

/-- A run that ends with a line end, of which one half has been read. -/
theorem runThen_return {test : UInt8 → Bool} {after : StdString → Prop}
    (here : input = byte '\r') (rest : FixedThen [byte '\n'] after xs) :
    RunThen test crlf after (input :: xs) :=
  RunThen.of_fixed (here ▸ rest.cons input)

section Branches

variable {p : Prop} [Decidable p] {stopped went : State} {left reached : Request}
  {more : ResultType × State × Request}

/-- A byte that is accepted where others are rejected. -/
theorem of_accepting (step : (if p then (ResultType.indeterminate, went, reached)
    else (.bad, stopped, left)) = (.indeterminate, next, held)) :
    p ∧ went = next ∧ reached = held := by
  split at step
  · rename_i here
    cases step
    exact ⟨here, rfl, rfl⟩
  · cases step

/-- A byte that is not rejected. -/
theorem of_rejecting (step : (if p then (ResultType.bad, stopped, left)
    else (.indeterminate, went, reached)) = (.indeterminate, next, held)) :
    ¬ p ∧ went = next ∧ reached = held := by
  split at step
  · cases step
  · rename_i kept
    cases step
    exact ⟨kept, rfl, rfl⟩

/-- A byte that leads on, or is none of that kind. -/
theorem of_leading (step : (if p then (ResultType.indeterminate, went, reached) else more) =
    (.indeterminate, next, held)) :
    p ∧ went = next ∧ reached = held ∨ ¬ p ∧ more = (.indeterminate, next, held) := by
  split at step
  · rename_i here
    cases step
    exact .inl ⟨here, rfl, rfl⟩
  · rename_i other
    exact .inr ⟨other, step⟩

end Branches

/-- What completes a header block from where a byte leads completes it from before, behind that
    byte. -/
theorem completes_step (step : consume state req input = (.indeterminate, next, held))
    (rest : Completes (hasHeader held) next xs) :
    Completes (hasHeader req) state (input :: xs) := by
  cases state with
  | methodStart =>
      obtain ⟨kept, rfl, rfl⟩ := of_rejecting step
      exact SomeRunThen.cons rest (isToken_of_kept kept)
  | method =>
      rcases of_leading step with ⟨here, rfl, rfl⟩ | ⟨-, step⟩
      · exact runThen_byte here rest
      · obtain ⟨kept, rfl, rfl⟩ := of_rejecting step
        exact RunThen.cons rest (isToken_of_kept kept)
  | uri =>
      rcases of_leading step with ⟨here, rfl, rfl⟩ | ⟨space, step⟩
      · exact runThen_byte here rest
      · obtain ⟨kept, rfl, rfl⟩ := of_rejecting step
        exact RunThen.cons rest (isUriByte_of_kept space kept)
  | httpVersionH =>
      obtain ⟨here, rfl, rfl⟩ := of_accepting step
      exact here ▸ FixedThen.cons rest input
  | httpVersionT1 =>
      obtain ⟨here, rfl, rfl⟩ := of_accepting step
      exact here ▸ FixedThen.cons rest input
  | httpVersionT2 =>
      obtain ⟨here, rfl, rfl⟩ := of_accepting step
      exact here ▸ FixedThen.cons rest input
  | httpVersionP =>
      obtain ⟨here, rfl, rfl⟩ := of_accepting step
      exact here ▸ FixedThen.cons rest input
  | httpVersionSlash =>
      obtain ⟨here, rfl, rfl⟩ := of_accepting step
      exact ⟨xs, congrArg (· :: xs) here, rest⟩
  | httpVersionMajorStart =>
      obtain ⟨digit, rfl, rfl⟩ := of_accepting step
      exact SomeRunThen.cons rest digit
  | httpVersionMajor =>
      rcases of_leading step with ⟨here, rfl, rfl⟩ | ⟨-, step⟩
      · exact runThen_byte here rest
      · obtain ⟨digit, rfl, rfl⟩ := of_accepting step
        exact RunThen.cons rest digit
  | httpVersionMinorStart =>
      obtain ⟨digit, rfl, rfl⟩ := of_accepting step
      exact SomeRunThen.cons rest digit
  | httpVersionMinor =>
      rcases of_leading step with ⟨here, rfl, rfl⟩ | ⟨-, step⟩
      · exact runThen_return here rest
      · obtain ⟨digit, rfl, rfl⟩ := of_accepting step
        exact RunThen.cons rest digit
  | expectingNewline1 =>
      obtain ⟨here, rfl, rfl⟩ := of_accepting step
      exact ⟨xs, congrArg (· :: xs) here, rest⟩
  | headerLineStart =>
      rcases of_leading step with ⟨here, rfl, rfl⟩ | ⟨-, step⟩
      · rw [show xs = [byte '\n'] from rest, here]
        exact linesRest_end
      · rcases of_leading step with ⟨blank, rfl, rfl⟩ | ⟨-, step⟩
        · -- only behind a header
          obtain ⟨has, blank⟩ := Bool.and_eq_true_iff.mp blank
          have some_header : hasHeader req = true := has
          rw [some_header] at rest ⊢
          exact linesRest_continuation blank rest
        · obtain ⟨kept, rfl, rfl⟩ := of_rejecting step
          have some_header : hasHeader (pushName { req with headers := req.headers ++ [{}] }
              (tolower input)) = true := by
            rw [hasHeader_pushName]
            simp [hasHeader]
          rw [some_header] at rest
          exact linesRest_line (isToken_of_kept kept) rest
  | headerLws =>
      rcases of_leading step with ⟨here, rfl, rfl⟩ | ⟨-, step⟩
      · obtain ⟨after, rfl, lines⟩ := rest
        exact ⟨[], [], after, nofun, nofun, nofun, congrArg (· :: _) here, lines⟩
      · rcases of_leading step with ⟨blank, rfl, rfl⟩ | ⟨other, step⟩
        · exact blanksRest_blank blank rest
        · obtain ⟨kept, rfl, rfl⟩ := of_rejecting step
          rw [hasHeader_pushValue] at rest
          have text : input ≠ byte ' ' := by
            intro space
            simp [space] at other
          exact blanksRest_text (by simpa using kept) text rest
  | headerName =>
      rcases of_leading step with ⟨here, rfl, rfl⟩ | ⟨-, step⟩
      · exact RunThen.of_fixed (here ▸ FixedThen.cons rest input)
      · obtain ⟨kept, rfl, rfl⟩ := of_rejecting step
        rw [hasHeader_pushName] at rest
        exact RunThen.cons rest (isToken_of_kept kept)
  | spaceBeforeHeaderValue =>
      obtain ⟨here, rfl, rfl⟩ := of_accepting step
      exact ⟨xs, congrArg (· :: xs) here, rest⟩
  | headerValue =>
      rcases of_leading step with ⟨here, rfl, rfl⟩ | ⟨-, step⟩
      · exact runThen_return here rest
      · obtain ⟨kept, rfl, rfl⟩ := of_rejecting step
        rw [hasHeader_pushValue] at rest
        exact RunThen.cons rest (isPlain_of_kept kept)
  | expectingNewline2 =>
      obtain ⟨here, rfl, rfl⟩ := of_accepting step
      exact ⟨xs, congrArg (· :: xs) here, rest⟩
  | expectingNewline3 =>
      simp only [consume] at step
      split at step <;> cases step

/-- The last byte of a header block is a newline. -/
theorem completes_last (step : consume state req input = (.good, next, held)) :
    Completes (hasHeader req) state [input] := by
  cases state with
  | expectingNewline3 =>
      simp only [consume, Prod.mk.injEq] at step
      obtain ⟨good, -⟩ := step
      split at good
      · rename_i here
        exact congrArg (fun c => [c]) here
      · cases good
  | _ =>
      -- no other state completes the block
      simp only [consume] at step
      grind

end Consume

section Runs

variable {state next : State} {req held : Request} {xs : StdString}

theorem completes_of_good (parsed : parse state req xs = (.good, next, held, [])) :
    Completes (hasHeader req) state xs := by
  induction xs generalizing state req with
  | nil => cases parsed
  | cons input xs ih =>
      rw [parse] at parsed
      cases step : consume state req input with | mk result more =>
      obtain ⟨next', held'⟩ := more
      rw [step] at parsed
      cases result with
      | good =>
          cases parsed
          exact completes_last step
      | bad => cases parsed
      | indeterminate => exact completes_step step (ih parsed)

/-- What completes a header block from a state, in as few bytes as possible. -/
def shortest : State → String
  | .methodStart => "a  HTTP/1.0\r\n\r\n"
  | .method => "  HTTP/1.0\r\n\r\n"
  | .uri => " HTTP/1.0\r\n\r\n"
  | .httpVersionH => "HTTP/1.0\r\n\r\n"
  | .httpVersionT1 => "TTP/1.0\r\n\r\n"
  | .httpVersionT2 => "TP/1.0\r\n\r\n"
  | .httpVersionP => "P/1.0\r\n\r\n"
  | .httpVersionSlash => "/1.0\r\n\r\n"
  | .httpVersionMajorStart => "1.0\r\n\r\n"
  | .httpVersionMajor => ".0\r\n\r\n"
  | .httpVersionMinorStart => "0\r\n\r\n"
  | .httpVersionMinor => "\r\n\r\n"
  | .expectingNewline1 => "\n\r\n"
  | .headerLineStart => "\r\n"
  | .headerLws => "\r\n\r\n"
  | .headerName => ": \r\n\r\n"
  | .spaceBeforeHeaderValue => " \r\n\r\n"
  | .headerValue => "\r\n\r\n"
  | .expectingNewline2 => "\n\r\n"
  | .expectingNewline3 => "\n"

/-- No state is a dead end. -/
theorem parse_shortest (state : State) (req : Request) :
    ∃ held, parse state req (ascii (shortest state)) = (.good, .expectingNewline3, held, []) := by
  cases state <;> exact ⟨_, rfl⟩

theorem shortest_ne_nil (state : State) : ascii (shortest state) ≠ [] := by
  cases state <;> exact List.cons_ne_nil _ _

/-- A rendered header block. -/
def Word (xs : StdString) : Prop := ∃ h : RequestHead, h.render = xs

theorem word_of_completes (complete : Completes false .methodStart xs) : Word xs := by
  obtain ⟨method, _, some_method, tokens, rfl, uri, _, uris, rfl, _, rfl, major, _, some_major,
    majors, rfl, minor, _, some_minor, minors, rfl, continuations, lines, none, rfl⟩ := complete
  have first : continuations = [] := by
    by_contra behind
    exact absurd (none behind) Bool.false_ne_true
  subst first
  have plain : ∀ c ∈ uri, isCtl c = false ∧ c ≠ byte ' ' := by
    intro c inside
    simpa [isUriByte] using uris c inside
  refine ⟨⟨method, uri, major, minor, lines, some_method, tokens, plain, some_major, majors,
    some_minor, minors⟩, ?_⟩
  have space : ascii " HTTP/" = byte ' ' :: ascii "HTTP/" := rfl
  simp [RequestHead.render, space]

/-- What the parser accepts is a header block. -/
theorem word_of_good (fresh : hasHeader req = false)
    (parsed : parse .methodStart req xs = (.good, next, held, [])) : Word xs :=
  word_of_completes (fresh ▸ completes_of_good parsed)

/-- Some header block begins with the bytes, and is longer. -/
def Begins (xs : StdString) : Prop := ∃ more, more ≠ [] ∧ Word (xs ++ more)

theorem begins_of_indeterminate (fresh : hasHeader req = false)
    (parsed : parse .methodStart req xs = (.indeterminate, next, held, rest)) : Begins xs := by
  obtain ⟨held', complete⟩ := parse_shortest next held
  refine ⟨ascii (shortest next), shortest_ne_nil next, ?_⟩
  have good : parse .methodStart req (xs ++ ascii (shortest next)) =
      (.good, .expectingNewline3, held', []) := by
    rw [parse_append, parsed]
    exact complete
  exact word_of_good fresh good

theorem indeterminate_of_begins (begins : Begins xs) :
    ∃ state held, parse .methodStart {} xs = (.indeterminate, state, held, []) := by
  obtain ⟨more, some_more, h, cut⟩ := begins
  obtain ⟨state, held, parsed, -⟩ := parse_prefix h cut some_more
  exact ⟨state, held, parsed⟩

/-- The byte that completes or rejects the block. -/
theorem parse_stop {result : ResultType} (parsed : parse state req xs = (result, next, held, rest))
    (stopped : result ≠ .indeterminate) : ∃ before input state' held',
      xs = before ++ input :: rest ∧
        parse state req before = (.indeterminate, state', held', []) ∧
        consume state' held' input = (result, next, held) := by
  induction xs generalizing state req with
  | nil =>
      cases parsed
      exact absurd rfl stopped
  | cons input xs ih =>
      rw [parse] at parsed
      cases step : consume state req input with | mk result' more =>
      obtain ⟨next', held'⟩ := more
      rw [step] at parsed
      cases result' with
      | good =>
          cases parsed
          exact ⟨[], input, state, req, rfl, rfl, step⟩
      | bad =>
          cases parsed
          exact ⟨[], input, state, req, rfl, rfl, step⟩
      | indeterminate =>
          obtain ⟨before, last, state', held'', rfl, reached, stop⟩ := ih parsed
          exact ⟨input :: before, last, state', held'', rfl, (parse_step step before).trans reached,
            stop⟩

/-- What the grammar says of bytes: a header block is at their beginning, the first byte of
    `input :: rest` is one that no header block goes on with, or they may still become one. -/
def Verdict (xs : StdString) : ResultType → StdString → Prop
  | .good, rest => ∃ h : RequestHead, xs = h.render ++ rest
  | .bad, rest => ∃ before input, xs = before ++ input :: rest ∧ Begins before ∧
      ¬ ∃ more, Word (before ++ input :: more)
  | .indeterminate, rest => rest = [] ∧ Begins xs

/-- One more byte is rejected exactly if no header block begins like that. -/
theorem consume_bad_iff {before : StdString} {input : UInt8}
    (reached : parse .methodStart {} before = (.indeterminate, state, req, [])) :
    (consume state req input).1 = .bad ↔ ¬ ∃ more, Word (before ++ input :: more) := by
  have whole : ∀ more, parse .methodStart {} (before ++ input :: more) =
      parse state req (input :: more) := by
    intro more
    rw [parse_append, reached]
  cases step : consume state req input with | mk result more =>
  obtain ⟨next, held⟩ := more
  cases result with
  | bad =>
      refine iff_of_true rfl ?_
      rintro ⟨more, h, word⟩
      have good := parse_render h []
      rw [List.append_nil, word, whole, parse, step] at good
      cases good
  | good =>
      have accepted : ResultType.good ≠ .bad := by decide
      refine iff_of_false accepted (not_not.mpr ⟨[], ?_⟩)
      have good : parse .methodStart {} (before ++ [input]) = (.good, next, held, []) := by
        rw [whole, parse, step]
      exact word_of_good rfl good
  | indeterminate =>
      have pending : ResultType.indeterminate ≠ .bad := by decide
      refine iff_of_false pending (not_not.mpr ?_)
      have goes : parse .methodStart {} (before ++ [input]) = (.indeterminate, next, held, []) := by
        rw [whole, parse, step]
        rfl
      obtain ⟨more, -, word⟩ := begins_of_indeterminate rfl goes
      exact ⟨more, by simpa using word⟩

theorem parse_verdict_iff (xs : StdString) (result : ResultType) (rest : StdString) :
    (∃ state held, parse .methodStart {} xs = (result, state, held, rest)) ↔
      Verdict xs result rest := by
  cases result with
  | good =>
      constructor
      · rintro ⟨state, held, parsed⟩
        obtain ⟨before, input, state', held', rfl, reached, stop⟩ := parse_stop parsed (by decide)
        have good : parse .methodStart {} (before ++ [input]) = (.good, state, held, []) := by
          rw [parse_append, reached]
          simp only [parse, stop]
        obtain ⟨h, word⟩ := word_of_good rfl good
        exact ⟨h, by rw [word, List.append_assoc, List.singleton_append]⟩
      · rintro ⟨h, rfl⟩
        exact ⟨_, _, parse_render h rest⟩
  | bad =>
      constructor
      · rintro ⟨state, held, parsed⟩
        obtain ⟨before, input, state', held', rfl, reached, stop⟩ := parse_stop parsed (by decide)
        refine ⟨before, input, rfl, begins_of_indeterminate rfl reached, ?_⟩
        exact (consume_bad_iff reached).mp (by rw [stop])
      · rintro ⟨before, input, rfl, begins, none⟩
        obtain ⟨state, held, reached⟩ := indeterminate_of_begins begins
        have bad := (consume_bad_iff reached).mpr none
        refine ⟨(consume state held input).2.1, (consume state held input).2.2, ?_⟩
        rw [parse_append, reached]
        simp only [parse]
        split
        · rename_i step
          rw [step] at bad
          cases bad
        · rename_i step
          rw [step] at bad ⊢
          cases bad
          rfl
  | indeterminate =>
      constructor
      · rintro ⟨state, held, parsed⟩
        exact ⟨parse_indeterminate parsed, begins_of_indeterminate rfl parsed⟩
      · rintro ⟨rfl, begins⟩
        exact indeterminate_of_begins begins

end Runs

section Calls

/-- `parse` called for one piece of the input after the other, until the request is complete or
    rejected; the pieces behind that are left over. -/
def parseCalls (state : State) (req : Request) :
    List StdString → ResultType × State × Request × StdString
  | [] => (.indeterminate, state, req, [])
  | piece :: pieces =>
      match parse state req piece with
      | (.indeterminate, next, held, _) => parseCalls next held pieces
      | (result, next, held, rest) => (result, next, held, rest ++ pieces.flatten)

theorem parseCalls_eq (state : State) (req : Request) (pieces : List StdString) :
    parseCalls state req pieces = parse state req pieces.flatten := by
  induction pieces generalizing state req with
  | nil => rfl
  | cons piece pieces ih =>
      rw [parseCalls, List.flatten_cons, parse_append]
      cases parse state req piece with | mk result more =>
      obtain ⟨next, held, rest⟩ := more
      cases result with
      | good => rfl
      | bad => rfl
      | indeterminate => exact ih next held

/-- The request holds what a header block says that is at the beginning of the bytes. -/
def Fills (held : Request) (xs rest : StdString) : Prop :=
  ∀ h : RequestHead, xs = h.render ++ rest →
    held.method = h.method ∧ held.uri = h.uri ∧ held.headers = h.lines.map HeaderLine.header

end Calls

end VanillaRtb.Http
