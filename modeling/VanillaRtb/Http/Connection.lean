import VanillaRtb.Http.Grammar
import VanillaRtb.Lib.Transition

/-! # Read completions of a connection

Both kinds of connection share one read callback. After every read it looks for a
Content-Length among the headers parsed so far, converts the value and copies that many
bytes from where the parser stopped, whether the header block is complete or not. A
callback ends well exactly when the value there is at that point, if any, converts to a
length that the bytes left of the read can fill.
-/

namespace VanillaRtb.Http

open RequestParser
open Lib.Transition (exec Along exec_cons)

/-- `boost::lexical_cast<long>`, nothing where it throws. -/
structure LexicalCast where
  cast : StdString → Option Int
  empty : cast [] = none
  digits : ∀ ds : StdString, ds ≠ [] → (∀ c ∈ ds, isDigit c = true) →
    cast ds = if decimal ds < 2 ^ 63 then some (decimal ds) else none

def bufferSize : Nat := 8192

/-- `buffer_`, which keeps its bytes from one read to the next. -/
structure Buffer where
  bytes : StdString
  size : bytes.length = bufferSize

/-- The bytes that one read transfers. -/
structure Read where
  bytes : StdString
  some_bytes : bytes ≠ []
  fits : bytes.length ≤ bufferSize

def Buffer.fill (b : Buffer) (r : Read) : Buffer where
  bytes := r.bytes ++ b.bytes.drop r.bytes.length
  size := by
    have := b.size
    have := r.fits
    rw [List.length_append, List.length_drop]
    omega

structure ConnectionState where
  buffer : Buffer
  request : Request := {}
  parser : State := .methodStart

/-- How a read completion ends. -/
inductive Ending where
  /-- The handler is called with this request, then the reply is written. -/
  | handled (request : Request)
  /-- The stock reply 400 is written. -/
  | badRequest
  /-- Another read is started. -/
  | reading
  /-- An exception leaves the callback. -/
  | escaped
  /-- Bytes beyond the buffer are read, which has no defined result. -/
  | overrun
  deriving DecidableEq

structure Completion where
  ending : Ending
  /-- How many bytes `request.data` was built from, where it was. -/
  built : Option Nat
  /-- How many bytes of the read the parser has left. -/
  remaining : Nat
  deriving DecidableEq

/-- The value of the first header of that name, as far as it has been parsed. -/
def contentLength (req : Request) : Option StdString :=
  (req.headers.find? fun h => h.name = ascii "content-length").map Header.value

def endingOf (result : ResultType) (request : Request) : Ending :=
  match result with
  | .good => .handled request
  | .bad => .badRequest
  | .indeterminate => .reading

/-- The callback of `do_read` for a completion without an error. -/
def doRead (lc : LexicalCast) (c : ConnectionState) (r : Read) : Completion × ConnectionState :=
  let buffer := c.buffer.fill r
  let (result, parser, request, rest) := parse c.parser c.request r.bytes
  match contentLength request with
  | none => (⟨endingOf result request, none, rest.length⟩, { buffer, request, parser })
  | some value =>
      match lc.cast value with
      | none => (⟨.escaped, none, rest.length⟩, { buffer, request, parser })
      | some n =>
          -- the length of a string is unsigned, so a negative one exceeds `max_size`
          if n < 0 then (⟨.escaped, none, rest.length⟩, { buffer, request, parser })
          else
            let offset := r.bytes.length - rest.length
            if offset + n.toNat ≤ bufferSize then
              let request := { request with data := (buffer.bytes.drop offset).take n.toNat }
              (⟨endingOf result request, some n.toNat, rest.length⟩, { buffer, request, parser })
            else (⟨.overrun, some n.toNat, rest.length⟩, { buffer, request, parser })

/-- The two classes that share the callback. -/
inductive Kind where
  | connection
  | persistentConnection
  deriving DecidableEq

/-- A connection with the completions there have been and whether it still reads. -/
structure Session where
  connection : ConnectionState
  reads : Bool := true
  log : List Completion := []

def start (buffer : Buffer) : Session := { connection := { buffer } }

/-- What `do_write` leads to once the reply is written: `connection` shuts down, and
    `persistent_connection` starts over, whatever the outcome of the write. -/
def Kind.doWrite (kind : Kind) (s : Session) : Session :=
  match kind with
  | .connection => { s with reads := false }
  | .persistentConnection =>
      { s with connection := { buffer := s.connection.buffer } }

def step (lc : LexicalCast) (kind : Kind) (s : Session) (r : Read) : Option Session :=
  if !s.reads then none
  else
    let (completion, connection) := doRead lc s.connection r
    let s := { s with connection, log := s.log ++ [completion] }
    match completion.ending with
    | .handled _ => some (kind.doWrite s)
    | .badRequest => some (kind.doWrite s)
    | .reading => some s
    | .escaped => some { s with reads := false }
    | .overrun => some { s with reads := false }

/-- A completion ends in a handler call, a stock reply or another read, and builds the
    body from no more bytes than remain of the read. -/
def Completion.Safe (c : Completion) : Prop :=
  c.ending ≠ .escaped ∧ c.ending ≠ .overrun ∧ ∀ n ∈ c.built, n ≤ c.remaining

/-- A Content-Length parsed by the end of this read converts to a length that the bytes
    left of the read can fill. -/
def LengthFits (lc : LexicalCast) (s : Session) (r : Read) : Prop :=
  let (_, _, request, rest) := parse s.connection.parser s.connection.request r.bytes
  ∀ value ∈ contentLength request,
    ∃ n : Nat, lc.cast value = some (n : Int) ∧ n ≤ rest.length

section DoRead

variable {lc : LexicalCast} {c : ConnectionState} {r : Read} {request : Request}

/-- Without a Content-Length so far, the body is left as it is. -/
theorem doRead_silent (parsed : parse c.parser c.request r.bytes = (result, parser, request, rest))
    (silent : contentLength request = none) :
    doRead lc c r = (⟨endingOf result request, none, rest.length⟩,
      { buffer := c.buffer.fill r, request, parser }) := by
  unfold doRead
  rw [parsed]
  dsimp only
  rw [silent]

/-- A length that fits the buffer is filled from where the parser stopped. -/
theorem doRead_filled (parsed : parse c.parser c.request r.bytes = (result, parser, request, rest))
    (found : contentLength request = some value) {n : Nat}
    (converted : lc.cast value = some (n : Int))
    (fits : r.bytes.length - rest.length + n ≤ bufferSize)
    (data : ((c.buffer.fill r).bytes.drop (r.bytes.length - rest.length)).take n = body) :
    doRead lc c r = (⟨endingOf result { request with data := body }, some n, rest.length⟩,
      { buffer := c.buffer.fill r, request := { request with data := body }, parser }) := by
  subst data
  unfold doRead
  rw [parsed]
  dsimp only
  rw [found]
  dsimp only
  rw [converted]
  dsimp only
  rw [if_neg (by omega), if_pos (by simpa using fits), Int.toNat_natCast]

end DoRead

theorem endingOf_safe (result : ResultType) (request : Request) :
    endingOf result request ≠ .escaped ∧ endingOf result request ≠ .overrun := by
  cases result <;> simp [endingOf]

theorem doRead_safe_iff (lc : LexicalCast) (s : Session) (r : Read) :
    (doRead lc s.connection r).1.Safe ↔ LengthFits lc s r := by
  unfold doRead LengthFits Completion.Safe
  have consumed := (parse_suffix s.connection.parser s.connection.request r.bytes).length_le
  have fits := r.fits
  cases parsed : parse s.connection.parser s.connection.request r.bytes with | mk result more =>
  obtain ⟨parser, request, rest⟩ := more
  rw [parsed] at consumed
  dsimp only at consumed ⊢
  cases contentLength request with
  | none => simp [endingOf_safe]
  | some value =>
      dsimp only
      cases hn : lc.cast value with
      | none => simp [hn]
      | some n =>
          dsimp only
          by_cases negative : n < 0
          · rw [if_pos negative]
            simp only [Option.mem_def, Option.some.injEq, hn, forall_eq']
            constructor
            · rintro ⟨escaped, -⟩
              exact absurd rfl escaped
            · rintro ⟨m, same, -⟩
              omega
          · rw [if_neg negative]
            split
            · simp only [endingOf_safe, ne_eq, not_false_eq_true, true_and, Option.mem_def,
                Option.some.injEq, hn, forall_eq']
              constructor
              · intro few
                exact ⟨n.toNat, by omega, few⟩
              · rintro ⟨m, same, few⟩
                omega
            · rename_i beyond
              simp only [Option.mem_def, Option.some.injEq, hn, forall_eq']
              constructor
              · rintro ⟨-, overrun, -⟩
                exact absurd rfl overrun
              · rintro ⟨m, same, few⟩
                omega

/-- A step is the callback and what it leads to. -/
theorem step_eq {lc : LexicalCast} (kind : Kind) {s : Session} {r : Read} (reads : s.reads = true)
    (read : doRead lc s.connection r = (completion, connection)) :
    step lc kind s r =
      let s := { s with connection, log := s.log ++ [completion] }
      match completion.ending with
      | .handled _ => some (kind.doWrite s)
      | .badRequest => some (kind.doWrite s)
      | .reading => some s
      | .escaped => some { s with reads := false }
      | .overrun => some { s with reads := false } := by
  unfold step
  rw [reads, read]
  rfl

theorem step_some (lc : LexicalCast) (kind : Kind) {s : Session} (r : Read)
    (reads : s.reads = true) : ∃ t, step lc kind s r = some t := by
  rw [step_eq kind reads rfl]
  dsimp only
  split <;> exact ⟨_, rfl⟩

/-- A step logs the completion of its read. -/
theorem step_log {lc : LexicalCast} {kind : Kind} {s t : Session} {r : Read}
    (taken : step lc kind s r = some t) :
    t.log = s.log ++ [(doRead lc s.connection r).1] := by
  cases reads : s.reads with
  | false => simp [step, reads] at taken
  | true =>
      rw [step_eq kind reads rfl] at taken
      dsimp only at taken
      split at taken
      all_goals
        obtain rfl := Option.some.inj taken
        cases kind <;> rfl

theorem run_safe_iff (lc : LexicalCast) (kind : Kind) {s u : Session} {reads : List Read}
    (run : exec (step lc kind) s reads = some u) :
    (∀ c ∈ u.log, c.Safe) ↔
      (∀ c ∈ s.log, c.Safe) ∧ Along (step lc kind) (LengthFits lc) s reads := by
  induction reads generalizing s with
  | nil =>
      obtain rfl := Option.some.inj run
      simp [Along]
  | cons r rest ih =>
      obtain ⟨t, taken, later⟩ := exec_cons.mp run
      have logged := step_log taken
      rw [ih later, logged]
      simp only [List.mem_append, List.mem_singleton, Along, taken, Option.some.injEq,
        forall_eq', or_imp, forall_and, forall_eq, doRead_safe_iff, and_assoc]

section Digits

def magnitude (ds : StdString) : Option Int :=
  if ds = [] || !ds.all isDigit then none else some (decimal ds)

/-- A decimal number with an optional sign that fits 64 bits. -/
def castDecimal (s : StdString) : Option Int :=
  let value :=
    if s.head? = some (byte '+') then magnitude s.tail
    else if s.head? = some (byte '-') then (magnitude s.tail).map fun n => -n
    else magnitude s
  value.filter fun n => -2 ^ 63 ≤ n ∧ n < 2 ^ 63

theorem digits_nonneg {ds : StdString} (v : Int) (nonneg : 0 ≤ v)
    (digits : ∀ c ∈ ds, isDigit c = true) : 0 ≤ ds.foldl appendDigit v := by
  induction ds generalizing v with
  | nil => exact nonneg
  | cons c cs ih =>
      have here := digits c List.mem_cons_self
      simp only [isDigit, Bool.and_eq_true, decide_eq_true_eq, UInt8.le_iff_toNat_le] at here
      have zero : (byte '0').toNat = 48 := rfl
      apply ih (appendDigit v c) ?_ fun b hb => digits b (List.mem_cons_of_mem _ hb)
      unfold appendDigit
      omega

def lexicalCast : LexicalCast where
  cast := castDecimal
  empty := rfl
  digits ds some_digit digits := by
    have nonneg : 0 ≤ decimal ds := digits_nonneg 0 (by omega) digits
    have unsigned : ∀ sign, isDigit sign = false → ds.head? ≠ some sign := by
      intro sign notDigit first
      have := digits sign (List.mem_of_mem_head? (Option.mem_def.mpr first))
      simp [notDigit] at this
    have whole : magnitude ds = some (decimal ds) := by
      simp [magnitude, some_digit, List.all_eq_true.mpr digits]
    unfold castDecimal
    rw [if_neg (unsigned _ (by decide)), if_neg (unsigned _ (by decide)), whole]
    by_cases small : decimal ds < 2 ^ 63
    · rw [if_pos small, Option.filter_some_pos]
      exact decide_eq_true ⟨by omega, small⟩
    · rw [if_neg small, Option.filter_some_neg]
      exact decide_eq_false fun range => small range.2

end Digits

section Lengths

def zeros : Buffer := ⟨List.replicate bufferSize 0, List.length_replicate⟩

/-- A whole request without a body. -/
def plainRead : Read where
  bytes := ascii "GET / HTTP/1.0\r\n\r\n"
  some_bytes := by decide
  fits := by decide

/-- A request whose Content-Length is no number. -/
def letterRead : Read where
  bytes := ascii "GET / HTTP/1.0\r\nContent-Length: x\r\n\r\n"
  some_bytes := by decide
  fits := by decide

end Lengths

end VanillaRtb.Http
