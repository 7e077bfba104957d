import VanillaRtb.Http.Connection

/-! # Requests served by a persistent connection

A request that is delivered so that the read completing its header block ends with its
body reaches the handler as it was sent, however the bytes before that read were cut.
The bytes of a read that lie behind the copied ones are dropped, and a body that is not
there yet is filled with what the buffer held before.
-/

namespace VanillaRtb.Http

open RequestParser
open Lib.Transition (exec Along exec_cons)

/-- A request whose header block announces the length of its body. -/
structure Message where
  head : RequestHead
  body : StdString
  framed : match contentLength head.request with
    | none => body = []
    | some value =>
        value ≠ [] ∧ (∀ c ∈ value, isDigit c = true) ∧ decimal value = body.length

def Message.render (m : Message) : StdString := m.head.render ++ m.body

def Message.request (m : Message) : Request := { m.head.request with data := m.body }

def Ending.request : Ending → Option Request
  | .handled request => some request
  | _ => none

/-- The requests the handler was called with, in order. -/
def Session.handled (s : Session) : List Request := s.log.filterMap fun c => c.ending.request

/-- A read that completes a header block ends with that request's body. After any other
    read the Content-Length parsed so far, if any, converts to a length that fits in the
    rest of the buffer. -/
def EndsWithBody (lc : LexicalCast) (s : Session) (r : Read) : Prop :=
  let (result, _, request, rest) := parse s.connection.parser s.connection.request r.bytes
  match result with
  | .good =>
      match contentLength request with
      | none => rest = []
      | some value => lc.cast value = some (rest.length : Int)
  | _ =>
      ∀ value ∈ contentLength request, ∃ n : Nat, lc.cast value = some (n : Int) ∧
        r.bytes.length - rest.length + n ≤ bufferSize

section Announced

/-- Some header with that name has a value. -/
def Announced (req : Request) : Prop :=
  ∃ h ∈ req.headers, h.name = ascii "content-length" ∧ h.value ≠ []

/-- While a name is being read the last header has no value yet. -/
def NameOpen (state : State) (req : Request) : Prop :=
  state = .headerName → ∃ init h, req.headers = init ++ [h] ∧ h.value = []

/-- What one byte does to the headers, and when a name is being read after it. -/
theorem consume_headers {state next : State} {req held : Request} {input : UInt8}
    (step : consume state req input = (result, next, held)) :
    (held.headers = req.headers ∧ (next = .headerName → state = .headerName)) ∨
    (next = .headerName ∧
      held = pushName { req with headers := req.headers ++ [{}] } (tolower input)) ∨
    (state = .headerName ∧ held = pushName req (tolower input)) ∨
    (next = .headerValue ∧ held = pushValue req input) := by
  cases state <;> simp only [consume] at step <;> grind

theorem announced_pushValue {req : Request} (announced : Announced req) (c : UInt8) :
    Announced (pushValue req c) := by
  obtain ⟨h, inside, named, some_value⟩ := announced
  cases reversed : req.headers.reverse with
  | nil =>
      rw [List.reverse_eq_nil_iff.mp reversed] at inside
      cases inside
  | cons last init =>
      have headers : req.headers = init.reverse ++ [last] := by
        rw [← List.reverse_reverse req.headers, reversed, List.reverse_cons]
      rw [headers, List.mem_append, List.mem_singleton] at inside
      unfold Announced
      simp only [pushValue, headers, List.modifyLast_concat, List.mem_append, List.mem_singleton]
      rcases inside with before | rfl
      · exact ⟨h, .inl before, named, some_value⟩
      · exact ⟨_, .inr rfl, named, by simp⟩

/-- A name grows in the last header, which has no value yet, so none with a value is lost. -/
theorem consume_announced {state next : State} {req held : Request} {input : UInt8}
    (step : consume state req input = (result, next, held)) (isOpen : NameOpen state req) :
    NameOpen next held ∧ (Announced req → Announced held) := by
  rcases consume_headers step with ⟨same, stays⟩ | ⟨-, rfl⟩ | ⟨hstate, rfl⟩ | ⟨hnext, rfl⟩
  · unfold NameOpen Announced at *
    rw [same]
    exact ⟨fun here => isOpen (stays here), id⟩
  · refine ⟨fun _ => ⟨req.headers, { name := [tolower input] }, ?_, rfl⟩, ?_⟩
    · simp [pushName, List.modifyLast_concat]
    · rintro ⟨h, inside, named⟩
      refine ⟨h, ?_, named⟩
      simp only [pushName, List.modifyLast_concat, List.mem_append]
      exact .inl inside
  · obtain ⟨init, h, headers, empty⟩ := isOpen hstate
    refine ⟨fun _ => ⟨init, { h with name := h.name ++ [tolower input] }, ?_, empty⟩, ?_⟩
    · simp only [pushName, headers, List.modifyLast_concat]
    · rintro ⟨h', inside, named, some_value⟩
      rw [headers, List.mem_append, List.mem_singleton] at inside
      rcases inside with before | rfl
      · refine ⟨h', ?_, named, some_value⟩
        simp only [pushName, headers, List.modifyLast_concat, List.mem_append]
        exact .inl before
      · exact absurd empty some_value
  · exact ⟨fun here => absurd (hnext.symm.trans here) (by decide),
      fun announced => announced_pushValue announced input⟩

theorem parse_announced {state next : State} {req held : Request} {xs : StdString}
    (parsed : parse state req xs = (result, next, held, rest)) (isOpen : NameOpen state req) :
    NameOpen next held ∧ (Announced req → Announced held) := by
  induction xs generalizing state req with
  | nil =>
      simp only [parse, Prod.mk.injEq] at parsed
      obtain ⟨-, rfl, rfl, -⟩ := parsed
      exact ⟨isOpen, id⟩
  | cons input xs ih =>
      rw [parse] at parsed
      cases hc : consume state req input with | mk result' more =>
      obtain ⟨next', held'⟩ := more
      obtain ⟨isOpen', kept⟩ := consume_announced hc isOpen
      rw [hc] at parsed
      cases result' with
      | good =>
          simp only [Prod.mk.injEq] at parsed
          obtain ⟨-, rfl, rfl, -⟩ := parsed
          exact ⟨isOpen', kept⟩
      | bad =>
          simp only [Prod.mk.injEq] at parsed
          obtain ⟨-, rfl, rfl, -⟩ := parsed
          exact ⟨isOpen', kept⟩
      | indeterminate =>
          obtain ⟨isOpen'', kept'⟩ := ih parsed isOpen'
          exact ⟨isOpen'', fun announced => kept' (kept announced)⟩

theorem contentLength_announced {req : Request} (found : contentLength req = some value)
    (some_value : value ≠ []) : Announced req := by
  obtain ⟨h, first, rfl⟩ := Option.map_eq_some_iff.mp found
  exact ⟨h, List.mem_of_find?_eq_some first, by simpa using List.find?_some first, some_value⟩

theorem announced_contentLength {req : Request} (announced : Announced req) :
    contentLength req ≠ none := by
  obtain ⟨h, inside, named, -⟩ := announced
  intro missing
  rw [contentLength, Option.map_eq_none_iff, List.find?_eq_none] at missing
  simpa [named] using missing h inside

end Announced

/-- The connection holds the beginning of the first message's header block, and what is
    left of the block, its body and the other messages are still to be read. -/
def Awaiting (s : Session) : List Message → StdString → Prop
  | [], remaining => remaining = []
  | m :: ms, remaining => ∃ before after held, m.head.render = before ++ after ∧ after ≠ [] ∧
      remaining = after ++ (m.body ++ ms.flatMap Message.render) ∧
      parse .methodStart {} before = (.indeterminate, s.connection.parser, held, []) ∧
      ∃ data, s.connection.request = { held with data } ∧ (data = [] ∨ Announced held)

theorem render_ne_nil (h : RequestHead) : h.render ≠ [] := by
  intro empty
  simp only [RequestHead.render, List.append_assoc, List.append_eq_nil_iff] at empty
  exact h.method_some empty.1

theorem awaiting_fresh (buffer : Buffer) (reads : Bool) (log : List Completion)
    (msgs : List Message) :
    Awaiting ⟨{ buffer }, reads, log⟩ msgs (msgs.flatMap Message.render) := by
  cases msgs with
  | nil => rfl
  | cons m ms =>
      refine ⟨[], m.head.render, {}, rfl, render_ne_nil m.head, ?_, rfl, [], rfl, .inl rfl⟩
      rw [List.flatMap_cons, Message.render, List.append_assoc]

/-- The body is copied from where the header block ends. -/
theorem filled_body (b : Buffer) (r : Read) {after body : StdString}
    (bytes : r.bytes = after ++ body) :
    ((b.fill r).bytes.drop after.length).take body.length = body := by
  change ((r.bytes ++ b.bytes.drop r.bytes.length).drop after.length).take body.length = body
  rw [bytes, List.append_assoc, List.drop_left, List.take_left]

theorem parse_held {state next : State} {req held : Request} {before xs : StdString}
    (parsed : parse .methodStart {} before = (.indeterminate, state, req, []))
    (whole : parse .methodStart {} (before ++ xs) = (result, next, held, rest))
    (data : StdString) :
    parse state { req with data } xs = (result, next, { held with data }, rest) ∧
      (Announced req → Announced held) := by
  have continued := parse_append .methodStart {} before xs
  rw [parsed, whole] at continued
  dsimp only at continued
  have isOpen := (parse_announced parsed fun here => by cases here).1
  refine ⟨?_, (parse_announced continued.symm isOpen).2⟩
  rw [parse_data, ← continued]

/-- A read that ends inside the header block keeps waiting for the same message. -/
theorem serve_inside (lc : LexicalCast) {s : Session} {r : Read} (reads : s.reads = true)
    {m : Message} {ms : List Message} {before after : StdString} {req : Request}
    (cut : m.head.render = before ++ r.bytes ++ after) (some_after : after ≠ [])
    (parsed : parse .methodStart {} before = (.indeterminate, s.connection.parser, req, []))
    (request : s.connection.request = { req with data }) (kept : data = [] ∨ Announced req)
    (met : EndsWithBody lc s r) :
    ∃ t, step lc .persistentConnection s r = some t ∧ t.reads = true ∧ t.handled = s.handled ∧
      Awaiting t (m :: ms) (after ++ (m.body ++ ms.flatMap Message.render)) := by
  obtain ⟨state, held, whole, -⟩ := parse_prefix m.head cut some_after
  obtain ⟨here, announced⟩ := parse_held parsed whole data
  unfold EndsWithBody at met
  rw [← request] at here
  rw [here] at met
  dsimp only at met
  cases length : contentLength { held with data } with
  | none =>
      rw [step_eq _ reads (doRead_silent here length)]
      refine ⟨_, rfl, reads, ?_, before ++ r.bytes, after, held, cut, some_after, rfl, whole,
        data, rfl, kept.imp_right announced⟩
      simp [Session.handled, Ending.request, endingOf]
  | some value =>
      obtain ⟨n, converted, fits⟩ := met value length
      have some_value : value ≠ [] := by
        intro empty
        rw [empty, lc.empty] at converted
        cases converted
      have isAnnounced : Announced held := contentLength_announced length some_value
      rw [step_eq _ reads (doRead_filled here length converted fits rfl)]
      refine ⟨_, rfl, reads, ?_, before ++ r.bytes, after, held, cut, some_after, rfl, whole,
        _, rfl, .inr isAnnounced⟩
      simp [Session.handled, Ending.request, endingOf]

/-- A session that has handed a request over is like a new one. -/
theorem serve_handled (lc : LexicalCast) {s : Session} {r : Read} (reads : s.reads = true)
    (ms : List Message) {request : Request}
    (read : doRead lc s.connection r = (⟨.handled request, built, remaining⟩, connection)) :
    ∃ t, step lc .persistentConnection s r = some t ∧ t.reads = true ∧
      t.handled = s.handled ++ [request] ∧ Awaiting t ms (ms.flatMap Message.render) := by
  rw [step_eq _ reads read]
  refine ⟨_, rfl, reads, ?_, awaiting_fresh _ _ _ ms⟩
  simp [Session.handled, Ending.request, Kind.doWrite]

/-- A read that ends with the body hands the message over and starts afresh. -/
theorem serve_last (lc : LexicalCast) {s : Session} {r : Read} (reads : s.reads = true)
    {m : Message} {ms : List Message} {before after rest remaining : StdString} {req : Request}
    (cut : m.head.render = before ++ after) (bytes : r.bytes = after ++ rest)
    (stream : rest ++ remaining = m.body ++ ms.flatMap Message.render)
    (parsed : parse .methodStart {} before = (.indeterminate, s.connection.parser, req, []))
    (request : s.connection.request = { req with data }) (kept : data = [] ∨ Announced req)
    (met : EndsWithBody lc s r) :
    ∃ t, step lc .persistentConnection s r = some t ∧ t.reads = true ∧
      t.handled = s.handled ++ [m.request] ∧ Awaiting t ms remaining := by
  have whole := parse_render m.head rest
  rw [cut, List.append_assoc] at whole
  obtain ⟨here, announced⟩ := parse_held parsed whole data
  rw [← request, ← bytes] at here
  have framed := m.framed
  have same : contentLength { m.head.request with data } = contentLength m.head.request := rfl
  unfold EndsWithBody at met
  rw [here] at met
  dsimp only at met
  rw [same] at met
  cases length : contentLength m.head.request with
  | none =>
      rw [length] at met framed
      dsimp only at met framed
      have silent : data = [] := kept.resolve_right fun here =>
        announced_contentLength (announced here) length
      rw [met, framed] at stream
      obtain rfl : remaining = ms.flatMap Message.render := stream
      have own : m.request = { m.head.request with data } := by
        rw [Message.request, framed, silent]
      rw [own]
      exact serve_handled lc reads ms (doRead_silent here (same.trans length))
  | some value =>
      rw [length] at met framed
      dsimp only at met framed
      obtain ⟨some_value, digits, announcedLength⟩ := framed
      have converted := lc.digits value some_value digits
      rw [met] at converted
      have lengths : rest.length = m.body.length := by
        split at converted
        · have := Option.some.inj converted
          omega
        · cases converted
      obtain ⟨rfl, rfl⟩ := List.append_inj stream lengths
      have fits := r.fits
      have offset : r.bytes.length - m.body.length = after.length := by
        rw [bytes, List.length_append]
        omega
      have whole_fits : r.bytes.length - m.body.length + m.body.length ≤ bufferSize := by
        rw [offset, ← List.length_append, ← bytes]
        exact fits
      have filled := filled_body s.connection.buffer r bytes
      rw [← offset] at filled
      exact serve_handled lc reads ms (doRead_filled here (same.trans length) met whole_fits filled)

/-- One read hands over the message it ends, if it ends one. -/
theorem serve_step (lc : LexicalCast) {s : Session} {r : Read} (reads : s.reads = true)
    (awaiting : Awaiting s msgs (r.bytes ++ remaining)) (met : EndsWithBody lc s r) :
    ∃ t done later, msgs = done ++ later ∧ step lc .persistentConnection s r = some t ∧
      t.reads = true ∧ t.handled = s.handled ++ done.map Message.request ∧
      Awaiting t later remaining := by
  cases msgs with
  | nil => exact absurd (List.append_eq_nil_iff.mp awaiting).1 r.some_bytes
  | cons m ms =>
      obtain ⟨before, after, held, cut, some_after, stream, parsed, data, request, kept⟩ := awaiting
      have finish : ∀ rest, r.bytes = after ++ rest →
          m.body ++ ms.flatMap Message.render = rest ++ remaining →
          ∃ t done later, m :: ms = done ++ later ∧ step lc .persistentConnection s r = some t ∧
            t.reads = true ∧ t.handled = s.handled ++ done.map Message.request ∧
            Awaiting t later remaining := by
        intro rest bytes follows
        obtain ⟨t, taken, still, handled, fresh⟩ :=
          serve_last lc reads cut bytes follows.symm parsed request kept met
        exact ⟨t, [m], ms, rfl, taken, still, handled, fresh⟩
      rcases List.append_eq_append_iff.mp stream with ⟨as, split, rfl⟩ | ⟨bs, bytes, follows⟩
      · by_cases missing : as = []
        · subst missing
          rw [List.append_nil] at split
          exact finish [] (by rw [split, List.append_nil]) rfl
        · rw [split, ← List.append_assoc] at cut
          obtain ⟨t, taken, still, handled, waiting⟩ :=
            serve_inside lc reads cut missing parsed request kept met
          exact ⟨t, [], m :: ms, rfl, taken, still, by simpa using handled, waiting⟩
      · exact finish bs bytes follows

theorem serve_run (lc : LexicalCast) {s : Session} {reads : List Read} (isReading : s.reads = true)
    (awaiting : Awaiting s msgs (reads.flatMap Read.bytes))
    (met : Along (step lc .persistentConnection) (EndsWithBody lc) s reads) :
    ∃ u, exec (step lc .persistentConnection) s reads = some u ∧
      u.handled = s.handled ++ msgs.map Message.request := by
  induction reads generalizing s msgs with
  | nil =>
      cases msgs with
      | nil => exact ⟨s, rfl, by simp⟩
      | cons m ms =>
          obtain ⟨before, after, held, -, some_after, stream, -⟩ := awaiting
          exact absurd (List.append_eq_nil_iff.mp stream.symm).1 some_after
  | cons r rest ih =>
      rw [List.flatMap_cons] at awaiting
      obtain ⟨t, done, later, rfl, taken, still, handled, waiting⟩ :=
        serve_step lc isReading awaiting met.1
      obtain ⟨u, run, all⟩ := ih still waiting (met.2 t taken)
      refine ⟨u, exec_cons.mpr ⟨t, taken, run⟩, ?_⟩
      rw [all, handled, List.map_append, List.append_assoc]

section Pipelined

def plainHead : RequestHead where
  method := ascii "GET"
  uri := ascii "/"
  versionMajor := ascii "1"
  versionMinor := ascii "0"
  lines := []
  method_some := by decide
  method_token := by decide +kernel
  uri_plain := by decide +kernel
  major_some := by decide
  major_digits := by decide +kernel
  minor_some := by decide
  minor_digits := by decide +kernel

def plainMessage : Message := ⟨plainHead, [], rfl⟩

def lengthLine : HeaderLine where
  name := ascii "Content-Length"
  value := ascii "2"
  continuations := []
  name_some := by decide
  name_token := by decide +kernel
  value_plain := by decide +kernel

def bodyHead : RequestHead := { plainHead with lines := [lengthLine] }

theorem bodyHead_length : contentLength bodyHead.request = some (ascii "2") := by decide

def bodyMessage : Message where
  head := bodyHead
  body := ascii "hi"
  framed := by
    rw [bodyHead_length]
    exact ⟨by decide, by decide +kernel, by decide⟩

def bodyRead : Read where
  bytes := bodyMessage.render
  some_bytes := by decide
  fits := by decide

/-- Two requests in one read. -/
def pipelinedRead : Read where
  bytes := plainMessage.render ++ plainMessage.render
  some_bytes := by decide
  fits := by decide

end Pipelined

end VanillaRtb.Http
