import VanillaRtb.StdString

/-! # Receive loops of a communicator

A receive hands its bytes to the callback that decodes them, and only then looks at the
error code and arms the next receive. A loop survives exactly those completions that
carry no error and a datagram whose transferred part decodes.
-/

namespace VanillaRtb.Messaging

/-- `MAX_DATA_SIZE`. -/
def maxDataSize : Nat := 4 * 1024

/-- `in_data_`, which every receive of a socket writes to. -/
structure InData where
  bytes : StdString
  size : bytes.length = maxDataSize

def InData.zeros : InData := ⟨List.replicate maxDataSize 0, List.length_replicate⟩

/-- What does not fit is cut off. -/
def transferred (datagram : StdString) : StdString := datagram.take maxDataSize

theorem transferred_length_le (datagram : StdString) :
    (transferred datagram).length ≤ maxDataSize := List.length_take_le ..

def InData.write (b : InData) (datagram : StdString) : InData where
  bytes := transferred datagram ++ b.bytes.drop (transferred datagram).length
  size := by
    have := b.size
    have := transferred_length_le datagram
    rw [List.length_append, List.length_drop]
    omega

/-- `std::string(in_data_.data(), bytes_recvd)`. -/
def InData.read (b : InData) (bytesRecvd : Nat) : StdString := b.bytes.take bytesRecvd

@[simp] theorem InData.read_write (b : InData) (datagram : StdString) :
    (b.write datagram).read (transferred datagram).length = transferred datagram :=
  List.take_left

@[simp] theorem InData.read_zero (b : InData) : b.read 0 = [] := rfl

/-- How a receive completes. -/
inductive Completion (E : Type) where
  | received (endpoint : E) (datagram : StdString)
  /-- An error code, and no bytes. -/
  | failed

/-- What the callbacks of a loop have done: the values the user handler was called with,
    and the responses that were sent. -/
structure Calls (E T : Type) where
  values : List T := []
  sent : List (E × StdString) := []

/-- A socket with its receive loop. -/
structure Receiver (E T : Type) where
  inData : InData
  fromEndpoint : E
  armed : Bool := false
  calls : Calls E T := {}
  /-- An exception has left `run`. -/
  escaped : Bool := false

/-- The callback given to `receive_async`; `none` is an exception. -/
abbrev OnData (E T : Type) := E → StdString → Calls E T → Option (Calls E T)

variable {E T R : Type}

def Receiver.receiveAsync (r : Receiver E T) : Receiver E T := { r with armed := true }

def Receiver.handleReceiveFrom (r : Receiver E T) (error : Bool) : Receiver E T :=
  if !error then { r with armed := true } else r

/-- A completion of the outstanding receive, if there is one. -/
def Receiver.complete (onData : OnData E T) (r : Receiver E T) (c : Completion E) :
    Receiver E T :=
  if !r.armed then r
  else
    let r := { r with armed := false }
    let (r, error, bytesRecvd) :=
      match c with
      | .received endpoint datagram =>
          ({ r with inData := r.inData.write datagram, fromEndpoint := endpoint }, false,
            (transferred datagram).length)
      | .failed => (r, true, 0)
    match onData r.fromEndpoint (r.inData.read bytesRecvd) r.calls with
    | none => { r with escaped := true }
    | some calls => { r with calls }.handleReceiveFrom error

/-- The callback that every member function installs: it decodes, then acts. -/
def decoding (decode : StdString → Option T) (act : E → T → Calls E T → Calls E T) :
    OnData E T :=
  fun endpoint data calls => (decode data).map fun value => act endpoint value calls

/-- `communicator::process`. -/
def process (decode : StdString → Option T) (handler : E → T → R) (serialize : R → StdString) :
    OnData E T :=
  decoding decode fun endpoint value calls =>
    { values := calls.values ++ [value],
      sent := calls.sent ++ [(endpoint, serialize (handler endpoint value))] }

/-- `communicator::consume`. -/
def consume (decode : StdString → Option T) : OnData E T :=
  decoding decode fun _ value calls => { calls with values := calls.values ++ [value] }

/-- The receive loop of `communicator::collect`. Whether the handler calls `done` makes
    no difference to the loop. -/
def collect (decode : StdString → Option T) : OnData E T :=
  decoding decode fun _ value calls => { calls with values := calls.values ++ [value] }

/-- The member functions that install a receive loop. -/
inductive Owner (E T R : Type) where
  | process (handler : E → T → R) (serialize : R → StdString)
  | consume
  | collect

def Owner.onData (decode : StdString → Option T) : Owner E T R → OnData E T
  | .process handler serialize => Messaging.process decode handler serialize
  | .consume => Messaging.consume decode
  | .collect => Messaging.collect decode

/-- The value of a completion that carries a well-formed datagram. -/
def Completion.wellFormed (decode : StdString → Option T) : Completion E → Option T
  | .received _ datagram => decode datagram
  | .failed => none

/-- The value that the callback decodes. -/
def Completion.decoded (decode : StdString → Option T) : Completion E → Option T
  | .received _ datagram => decode (transferred datagram)
  | .failed => none

/-- Every well-formed datagram reaches the user handler once, in order, nothing else does,
    and the loop is still armed. -/
def HandsOver (decode : StdString → Option T) (onData : OnData E T) (r : Receiver E T)
    (completions : List (Completion E)) : Prop :=
  let u := completions.foldl (Receiver.complete onData) r.receiveAsync
  u.calls.values = r.calls.values ++ completions.filterMap (Completion.wellFormed decode) ∧
    u.armed = true ∧ u.escaped = r.escaped

section Loop

variable {decode : StdString → Option T} {act : E → T → Calls E T → Calls E T}

theorem complete_disarmed {onData : OnData E T} {r : Receiver E T} (idle : r.armed = false)
    (completions : List (Completion E)) :
    completions.foldl (Receiver.complete onData) r = r := by
  induction completions with
  | nil => rfl
  | cons c cs ih =>
      have same : r.complete onData c = r := by simp [Receiver.complete, idle]
      rw [List.foldl_cons, same, ih]

/-- A datagram that decodes is handed over and the next receive is armed. -/
theorem complete_decoded (acts : ∀ e v calls, (act e v calls).values = calls.values ++ [v])
    {r : Receiver E T} (armed : r.armed = true) {c : Completion E}
    (decodes : c.decoded decode = some v) :
    (r.complete (decoding decode act) c).armed = true ∧
      (r.complete (decoding decode act) c).escaped = r.escaped ∧
      (r.complete (decoding decode act) c).calls.values = r.calls.values ++ [v] := by
  cases c with
  | failed => cases decodes
  | received endpoint datagram =>
      unfold Completion.decoded at decodes
      simp [Receiver.complete, armed, decoding, decodes, Receiver.handleReceiveFrom, acts]

/-- Any other completion leaves no receive behind. -/
theorem complete_undecoded {r : Receiver E T} {c : Completion E} (decodes : c.decoded decode = none) :
    (r.complete (decoding decode act) c).armed = false := by
  unfold Receiver.complete
  cases armed : r.armed with
  | false => simpa using armed
  | true =>
      cases c with
      | received endpoint datagram =>
          unfold Completion.decoded at decodes
          simp [decoding, decodes]
      | failed =>
          cases empty : decode [] <;>
            simp [decoding, empty, Receiver.handleReceiveFrom]

/-- The loop is armed in the end exactly when every completion decoded. -/
theorem loop_armed_iff (acts : ∀ e v calls, (act e v calls).values = calls.values ++ [v])
    {r : Receiver E T} (armed : r.armed = true) (completions : List (Completion E)) :
    (completions.foldl (Receiver.complete (decoding decode act)) r).armed = true ↔
      ∀ c ∈ completions, ∃ v, c.decoded decode = some v := by
  induction completions generalizing r with
  | nil => simpa using armed
  | cons c cs ih =>
      rw [List.foldl_cons, List.forall_mem_cons]
      cases decodes : c.decoded decode with
      | none =>
          have stopped : (r.complete (decoding decode act) c).armed = false :=
            complete_undecoded decodes
          rw [complete_disarmed stopped, stopped]
          simp
      | some v =>
          rw [ih (complete_decoded acts armed decodes).1]
          simp

theorem loop_values (acts : ∀ e v calls, (act e v calls).values = calls.values ++ [v])
    {r : Receiver E T} (armed : r.armed = true) {completions : List (Completion E)}
    (decodes : ∀ c ∈ completions, ∃ v, c.decoded decode = some v) :
    let u := completions.foldl (Receiver.complete (decoding decode act)) r
    u.calls.values = r.calls.values ++ completions.filterMap (Completion.decoded decode) ∧
      u.escaped = r.escaped := by
  induction completions generalizing r with
  | nil => simp
  | cons c cs ih =>
      obtain ⟨⟨v, here⟩, later⟩ := List.forall_mem_cons.mp decodes
      obtain ⟨still, escaped, values⟩ := complete_decoded acts armed here
      obtain ⟨all, escapes⟩ := ih still later
      rw [List.foldl_cons, List.filterMap_cons, here]
      exact ⟨by rw [all, values, List.append_assoc, List.singleton_append],
        escapes.trans escaped⟩

/-- Where nothing is filtered out on one side, equal results come from equal functions. -/
theorem filterMap_eq_filterMap_iff {f g : α → Option β} {as : List α}
    (kept : ∀ a ∈ as, ∃ b, f a = some b) :
    as.filterMap f = as.filterMap g ↔ ∀ a ∈ as, g a = f a := by
  constructor
  · intro same
    induction as with
    | nil => simp
    | cons a as ih =>
        obtain ⟨⟨b, here⟩, later⟩ := List.forall_mem_cons.mp kept
        have few : (as.filterMap g).length ≤ as.length := List.length_filterMap_le g as
        have all : (as.filterMap f).length = as.length :=
          List.filterMap_length_eq_length.mpr fun a ha => Option.isSome_iff_exists.mpr (later a ha)
        cases there : g a with
        | none =>
            rw [List.filterMap_cons_some here, List.filterMap_cons_none there] at same
            have lengths := congrArg List.length same
            rw [List.length_cons] at lengths
            omega
        | some b' =>
            rw [List.filterMap_cons_some here, List.filterMap_cons_some there] at same
            obtain ⟨rfl, rest⟩ := List.cons.inj same
            exact List.forall_mem_cons.mpr ⟨there.trans here.symm, ih later rest⟩
  · intro same
    exact List.filterMap_congr fun a ha => (same a ha).symm

theorem loop_iff (acts : ∀ e v calls, (act e v calls).values = calls.values ++ [v])
    (r : Receiver E T) (completions : List (Completion E)) :
    HandsOver decode (decoding decode act) r completions ↔
      ∀ c ∈ completions, ∃ v, c.decoded decode = some v ∧ c.wellFormed decode = some v := by
  unfold HandsOver
  dsimp only
  have armed : r.receiveAsync.armed = true := rfl
  rw [loop_armed_iff acts armed]
  constructor
  · rintro ⟨values, decodes, -⟩ c hc
    obtain ⟨all, -⟩ := loop_values acts armed decodes
    have same := List.append_cancel_left (all.symm.trans values)
    obtain ⟨v, here⟩ := decodes c hc
    exact ⟨v, here, ((filterMap_eq_filterMap_iff decodes).mp same c hc).trans here⟩
  · intro usable
    have decodes : ∀ c ∈ completions, ∃ v, c.decoded decode = some v :=
      fun c hc => (usable c hc).imp fun _ both => both.1
    obtain ⟨all, escaped⟩ := loop_values acts armed decodes
    refine ⟨?_, decodes, escaped⟩
    rw [all]
    congr 1
    apply (filterMap_eq_filterMap_iff decodes).mpr
    intro c hc
    obtain ⟨v, here, there⟩ := usable c hc
    exact there.trans here.symm

end Loop

/-- The datagram of a usable completion is well-formed and not cut into something else. -/
def Usable (decode : StdString → Option T) : Completion E → Prop
  | .received _ datagram =>
      ∃ v, decode (transferred datagram) = some v ∧ decode datagram = some v
  | .failed => False

/-- Each loop hands every well-formed datagram over, and only those, and stays armed,
    exactly when no receive fails and every datagram is well-formed and still decodes to
    its value once cut to the size of the buffer. -/
theorem datagrams_handed_iff (decode : StdString → Option T) (owner : Owner E T R)
    (r : Receiver E T) (completions : List (Completion E)) :
    HandsOver decode (owner.onData decode) r completions ↔
      ∀ c ∈ completions, Usable decode c := by
  have usable : ∀ c : Completion E, Usable decode c ↔
      ∃ v, c.decoded decode = some v ∧ c.wellFormed decode = some v := by
    intro c
    cases c with
    | received endpoint datagram => rfl
    | failed => simp [Usable, Completion.decoded]
  simp only [usable]
  cases owner with
  | process handler serialize => exact loop_iff (fun _ _ _ => rfl) r completions
  | consume => exact loop_iff (fun _ _ _ => rfl) r completions
  | collect => exact loop_iff (fun _ _ _ => rfl) r completions

section EmptyDatagram

/-- A decoder that, as an archive does, finds nothing to read in no bytes. -/
def nonEmpty (data : StdString) : Option StdString := if data = [] then none else some data

def freshReceiver : Receiver Unit StdString := { inData := .zeros, fromEndpoint := () }

/-- A datagram without bytes ends the loop of `collect`, and the next one is not read. -/
theorem empty_datagram_ends_loop :
    ¬ HandsOver nonEmpty (collect nonEmpty) freshReceiver
        [.received () [], .received () (ascii "bid")] := by
  intro hands
  have usable := (loop_iff (fun _ _ _ => rfl) freshReceiver _).mp hands
  obtain ⟨v, decodes, -⟩ := usable _ List.mem_cons_self
  cases decodes

end EmptyDatagram

end VanillaRtb.Messaging
