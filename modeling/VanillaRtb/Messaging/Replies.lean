import VanillaRtb.Messaging.Communicator
import VanillaRtb.Lib.Transition

/-! # Replies of a communicator

All replies leave through one string and one endpoint of the receiver. A pending send has
its own copy of the endpoint but only refers to the string, and the next reply assigns to
that string whether or not the send has completed.
-/

namespace VanillaRtb.Messaging

open Lib.Transition

/-- A send whose completion handler has not run: the copied endpoint, and what the memory
    behind its buffer holds. -/
structure PendingSend (E : Type) where
  endpoint : E
  shows : StdString

def PendingSend.reply (p : PendingSend E) : E × StdString := (p.endpoint, p.shows)

/-- A receiver with its replies. -/
structure Replier (E T : Type) where
  receiver : Receiver E T
  toEndpoint : E
  outData : StdString
  pending : List (PendingSend E) := []
  /-- The reply datagrams that were sent. -/
  delivered : List (E × StdString) := []

/-- What can happen while `process` runs. -/
inductive ReplyAction (E R : Type) where
  /-- The receive completes, and the handler, if it is called, returns `response`. An
      assignment to `out_data_` leaves `left i` in the memory of the `i`-th pending send. -/
  | receive (c : Completion E) (response : R) (left : Nat → StdString)
  | sendCompleted (i : Nat) (error : Bool)

variable {E T R : Type}

/-- What the pending sends refer to after `out_data_` is assigned to. -/
def Replier.reassigned (s : Replier E T) (left : Nat → StdString) : List (PendingSend E) :=
  s.pending.mapIdx fun i p => { p with shows := left i }

/-- `receiver::send_async`, with the data already serialized. -/
def Replier.sendAsync (left : Nat → StdString) (s : Replier E T) (data : StdString)
    (endpoint : E) : Replier E T :=
  let s := { s with toEndpoint := endpoint }
  let s := { s with outData := data, pending := s.reassigned left }
  { s with pending := s.pending ++ [⟨s.toEndpoint, s.outData⟩] }

/-- The callback of `process` sends through `send_async`. -/
def Replier.receive (decode : StdString → Option T) (serialize : R → StdString)
    (s : Replier E T) (c : Completion E) (response : R) (left : Nat → StdString) :
    Replier E T :=
  let receiver := s.receiver.complete (process decode (fun _ _ => response) serialize) c
  let sent := receiver.calls.sent.drop s.receiver.calls.sent.length
  sent.foldl (fun s reply => s.sendAsync left reply.2 reply.1) { s with receiver }

/-- The handler of a send ignores the error. -/
def Replier.sendCompleted (s : Replier E T) (i : Nat) (error : Bool) : Option (Replier E T) :=
  s.pending[i]?.map fun p =>
    { s with
      pending := s.pending.eraseIdx i
      delivered := if error then s.delivered else s.delivered ++ [p.reply] }

def Replier.step (decode : StdString → Option T) (serialize : R → StdString)
    (s : Replier E T) : ReplyAction E R → Option (Replier E T)
  | .receive c response left => some (s.receive decode serialize c response left)
  | .sendCompleted i error => s.sendCompleted i error

/-- `communicator::process` on an idle receiver. -/
def Replier.start (r : Receiver E T) (toEndpoint : E) (outData : StdString) : Replier E T :=
  { receiver := r.receiveAsync, toEndpoint, outData }

/-- Who has sent a request: a datagram that is one, as it was sent. -/
def Completion.requester (decode : StdString → Option T) : Completion E → Option E
  | .received endpoint datagram => (decode datagram).map fun _ => endpoint
  | .failed => none

/-- `from_endpoint_` as the callback finds it. -/
def Completion.origin (last : E) : Completion E → E
  | .received endpoint _ => endpoint
  | .failed => last

/-- The bytes that the callback is given; a failed receive comes with none. -/
def Completion.handed : Completion E → StdString
  | .received _ datagram => transferred datagram
  | .failed => []

/-- Whom the callback replies to. -/
def Receiver.repliesTo (decode : StdString → Option T) (r : Receiver E T)
    (c : Completion E) : Option E :=
  if r.armed then (decode c.handed).map fun _ => c.origin r.fromEndpoint else none

/-- The answer that each request of a run is owed: what the handler returns for it. -/
def owed (decode : StdString → Option T) (serialize : R → StdString) (_ : Replier E T) :
    ReplyAction E R → Replier E T → List (E × StdString)
  | .receive c response _, _ =>
      (c.requester decode).toList.map fun endpoint => (endpoint, serialize response)
  | .sendCompleted _ _, _ => []

/-- The replies that were sent and the ones still pending are the answers to the requests,
    one for each. -/
def Answered (s : Replier E T) (requests : List (E × StdString)) : Prop :=
  (s.delivered ++ s.pending.map PendingSend.reply).Perm requests

/-- In every state of the run, what is sent and what is pending answers what has arrived. -/
def EachAnswered (decode : StdString → Option T) (serialize : R → StdString)
    (start : Replier E T) (as : List (ReplyAction E R)) : Prop :=
  ∀ before after t, as = before ++ after →
    exec (Replier.step decode serialize) start before = some t →
    Answered t (observe (Replier.step decode serialize) (owed decode serialize) start before)

/-- The receive loop runs and the callback can decode what it is given exactly if a request
    has arrived, and then the assignment to `out_data_` does not change what the pending
    sends show. A send does not fail. -/
def Undisturbed (decode : StdString → Option T) (s : Replier E T) : ReplyAction E R → Prop
  | .receive c _ left =>
      (s.receiver.armed = true ∧ (decode c.handed).isSome ↔ (c.requester decode).isSome) ∧
        ((c.requester decode).isSome →
          ((s.reassigned left).map PendingSend.reply).Perm (s.pending.map PendingSend.reply))
  | .sendCompleted i error => i < s.pending.length → error = false

section Steps

variable {decode : StdString → Option T} {serialize : R → StdString} {s : Replier E T}

theorem complete_sent (r : Receiver E T) (c : Completion E) (response : R) :
    (r.complete (process decode (fun _ _ => response) serialize) c).calls.sent =
      r.calls.sent ++
        (r.repliesTo decode c).toList.map fun endpoint => (endpoint, serialize response) := by
  unfold Receiver.complete Receiver.repliesTo
  cases r.armed with
  | false => simp
  | true =>
      cases c with
      | received endpoint datagram =>
          cases decodes : decode (transferred datagram) <;>
            simp [process, decoding, decodes, Completion.handed, Completion.origin,
              Receiver.handleReceiveFrom]
      | failed =>
          cases empty : decode [] <;>
            simp [process, decoding, empty, Completion.handed, Completion.origin,
              Receiver.handleReceiveFrom]

/-- A receive that is not replied to leaves the sends alone. -/
theorem receive_silent {c : Completion E} (silent : s.receiver.repliesTo decode c = none)
    (response : R) (left : Nat → StdString) :
    (s.receive decode serialize c response left).delivered = s.delivered ∧
      (s.receive decode serialize c response left).pending = s.pending := by
  simp [Replier.receive, complete_sent, silent]

/-- Any other one starts a send, at the expense of those still pending. -/
theorem receive_replies {c : Completion E}
    (replies : s.receiver.repliesTo decode c = some endpoint) (response : R)
    (left : Nat → StdString) :
    (s.receive decode serialize c response left).delivered = s.delivered ∧
      (s.receive decode serialize c response left).pending =
        s.reassigned left ++ [⟨endpoint, serialize response⟩] := by
  simp [Replier.receive, complete_sent, replies, Replier.sendAsync, Replier.reassigned]

theorem repliesTo_isSome (r : Receiver E T) (c : Completion E) :
    (r.repliesTo decode c).isSome ↔ r.armed = true ∧ (decode c.handed).isSome := by
  cases armed : r.armed <;> simp [Receiver.repliesTo, armed]

/-- Where a request is replied to, the reply goes to the one who sent it. -/
theorem repliesTo_eq_requester {c : Completion E}
    (replies : s.receiver.repliesTo decode c = some endpoint)
    (requests : c.requester decode = some endpoint') : endpoint = endpoint' := by
  cases c with
  | failed => cases requests
  | received sender datagram =>
      simp only [Receiver.repliesTo, Completion.requester, Completion.origin,
        Option.ite_none_right_eq_some, Option.map_eq_some_iff] at replies requests
      obtain ⟨-, -, -, rfl⟩ := replies
      obtain ⟨-, -, rfl⟩ := requests
      rfl

/-- There are as many replies as requests. -/
theorem Answered.length_eq (answered : Answered s h) :
    s.delivered.length + s.pending.length = h.length := by
  have lengths := List.Perm.length_eq answered
  simpa using lengths

/-- A receive keeps replies and requests together exactly if it is undisturbed. -/
theorem answered_receive_iff (answered : Answered s h) (c : Completion E) (response : R)
    (left : Nat → StdString) :
    Answered (s.receive decode serialize c response left)
        (h ++ owed decode serialize s (.receive c response left)
          (s.receive decode serialize c response left)) ↔
      Undisturbed (R := R) decode s (.receive c response left) := by
  have before := answered.length_eq
  cases replies : s.receiver.repliesTo decode c with
  | none =>
      obtain ⟨delivered, pending⟩ :=
        @receive_silent _ _ _ decode serialize s c replies response left
      cases requests : c.requester decode with
      | none =>
          refine iff_of_true ?_ (by simp [Undisturbed, ← repliesTo_isSome, replies, requests])
          simpa [Answered, delivered, pending, owed, requests] using answered
      | some endpoint =>
          refine iff_of_false ?_ (by simp [Undisturbed, ← repliesTo_isSome, replies, requests])
          intro after
          have lengths := after.length_eq
          simp [delivered, pending, owed, requests] at lengths
          omega
  | some endpoint =>
      obtain ⟨delivered, pending⟩ :=
        @receive_replies _ _ _ decode serialize s endpoint c replies response left
      cases requests : c.requester decode with
      | none =>
          refine iff_of_false ?_ (by simp [Undisturbed, ← repliesTo_isSome, replies, requests])
          intro after
          have lengths := after.length_eq
          simp [delivered, pending, owed, requests, Replier.reassigned] at lengths
          omega
      | some endpoint' =>
          obtain rfl := repliesTo_eq_requester replies requests
          have same : Undisturbed (R := R) decode s (.receive c response left) ↔
              ((s.reassigned left).map PendingSend.reply).Perm
                (s.pending.map PendingSend.reply) := by
            simp [Undisturbed, ← repliesTo_isSome, replies, requests]
          rw [same, ← List.perm_append_left_iff s.delivered]
          have after : Answered (s.receive decode serialize c response left)
              (h ++ owed decode serialize s (.receive c response left)
                (s.receive decode serialize c response left)) ↔
              (s.delivered ++ (s.reassigned left).map PendingSend.reply).Perm h := by
            simp [Answered, delivered, pending, owed, requests, PendingSend.reply,
              ← List.append_assoc, List.perm_append_right_iff]
          rw [after]
          exact ⟨fun kept => kept.trans answered.symm, fun kept => kept.trans answered⟩

/-- The completion of a send keeps them together exactly if the send has not failed. -/
theorem answered_sendCompleted_iff (answered : Answered s h)
    (completes : s.sendCompleted i error = some t) : Answered t h ↔ error = false := by
  obtain ⟨p, here, rfl⟩ := Option.map_eq_some_iff.mp completes
  obtain ⟨inside, rfl⟩ := List.getElem?_eq_some_iff.mp here
  cases error with
  | true =>
      refine iff_of_false ?_ (by simp)
      intro after
      have before := answered.length_eq
      have lengths := after.length_eq
      simp only [if_true, List.length_eraseIdx_of_lt inside] at lengths
      omega
  | false =>
      refine iff_of_true ?_ rfl
      have moved := (List.getElem_cons_eraseIdx_perm inside).map PendingSend.reply
      have all := (moved.append_left s.delivered).trans answered
      simpa [Answered] using all

theorem answered_step_iff (answered : Answered s h)
    (step : s.step decode serialize a = some t) :
    Answered t (h ++ owed decode serialize s a t) ↔ Undisturbed decode s a := by
  cases a with
  | receive c response left =>
      obtain rfl := Option.some.inj step
      exact answered_receive_iff answered c response left
  | sendCompleted i error =>
      have sharp := answered_sendCompleted_iff answered step
      obtain ⟨p, here, -⟩ := Option.map_eq_some_iff.mp step
      obtain ⟨inside, -⟩ := List.getElem?_eq_some_iff.mp here
      simpa [owed, Undisturbed, inside] using sharp

end Steps

/-- In every state of a run the replies answer the requests, one each, exactly if every
    receive of the run that is replied to brings a request and the other way round, no
    assignment to `out_data_` changes what the pending sends show, and no send fails. -/
theorem replies_answer_iff (decode : StdString → Option T) (serialize : R → StdString)
    (r : Receiver E T) (toEndpoint : E) (outData : StdString) (as : List (ReplyAction E R)) :
    EachAnswered decode serialize (.start r toEndpoint outData) as ↔
      Along (Replier.step decode serialize) (Undisturbed decode)
        (.start r toEndpoint outData) as := by
  have none_ : Answered (Replier.start r toEndpoint outData) [] := List.Perm.nil
  refine observe_always_iff Answered ?_ ?_ none_
  · intro s h a t answered step
    exact answered_step_iff answered step
  · intro s a stuck
    cases a with
    | receive c response left => cases stuck
    | sendCompleted i error =>
        intro inside
        simp [Replier.step, Replier.sendCompleted, inside] at stuck

section CrossedReplies

def textReceiver : Receiver Nat StdString := { inData := .zeros, fromEndpoint := 0 }

/-- Two clients ask before the first reply has left; a short string is assigned in place. -/
def crossedReplies : List (ReplyAction Nat StdString) :=
  [.receive (.received 1 (ascii "x")) (ascii "a") fun _ => [],
    .receive (.received 2 (ascii "y")) (ascii "b") fun _ => ascii "b",
    .sendCompleted 0 false]

/-- The first client is sent the response to the second. -/
theorem reply_replaced :
    ¬ EachAnswered some id (.start textReceiver 0 []) crossedReplies ∧
      (exec (Replier.step some id) (.start textReceiver 0 []) crossedReplies).map
        Replier.delivered = some [(1, ascii "b")] := by
  have sent : (exec (Replier.step some id) (.start textReceiver 0 []) crossedReplies).map
      Replier.delivered = some [(1, ascii "b")] := by decide +kernel
  refine ⟨?_, sent⟩
  intro answered
  obtain ⟨t, reach, delivered⟩ := Option.map_eq_some_iff.mp sent
  have all := answered crossedReplies [] t (List.append_nil _).symm reach
  have owes : (1, ascii "b") ∈ observe (Replier.step some id) (owed some id)
      (.start textReceiver 0 []) crossedReplies := by
    apply all.subset
    simp [delivered]
  exact absurd owes (by decide +kernel)

end CrossedReplies

end VanillaRtb.Messaging
