import VanillaRtb.Exchange.Collector
import VanillaRtb.Lib.IoService
import VanillaRtb.Lib.Records
import VanillaRtb.Lib.Transition
import VanillaRtb.Messaging.Communicator

/-! # Calls on one multibidder communicator

Every call arms a receive of its own and leaves it behind, and the timer wait of a call
that its collector ended is still pending when the next one starts. What a call finds of
earlier ones decides whether their handlers run in it.
-/

namespace VanillaRtb.Exchange

open Lib OpenRtb Messaging
open Lib.Transition (exec Along exec_invariant_along)

/-- A receive that has completed: the call whose handler it carries, and the bytes of
    `in_data_` that are its own. -/
structure Receive where
  call : Nat
  bytesRecvd : Nat

inductive CallEnding where
  /-- The collector of that call is done. -/
  | done (call : Nat)
  /-- The timer wait of that call has expired. -/
  | expired (call : Nat)
  /-- An exception has left `collect`. -/
  | escaped
  deriving DecidableEq

/-- A call of `process`, with what happened while it was running. -/
structure Call where
  collector : Collector
  /-- The responses the collector came with. -/
  given : List (BidResponse StdString)
  received : List StdString := []
  /-- The calls whose handlers ran. -/
  ran : List Nat := []
  ending : Option CallEnding := none

/-- The send handler of `distribute` does nothing and is left out. -/
structure MultibidderCommunicator where
  io : IoService Receive Nat := {}
  /-- The calls whose receives are outstanding, oldest first. -/
  receives : List Nat := []
  inData : InData
  calls : List Call := []
  running : Option Nat := none

namespace MultibidderCommunicator

def modifyCall (s : MultibidderCommunicator) (k : Nat) (f : Call → Call) :
    MultibidderCommunicator :=
  { s with calls := s.calls.modify k f }

/-- `run` returns at once when a handler stops the service or lets an exception through.
    It never runs out of work, as the wait of the running call is outstanding. -/
def endCall (s : MultibidderCommunicator) (k : Nat) (ending : CallEnding) :
    MultibidderCommunicator :=
  { s.modifyCall k (fun c => { c with ending := some ending }) with running := none }

/-- `process` as far as the start of `run`. -/
def process (s : MultibidderCommunicator) (collector : Collector) : MultibidderCommunicator :=
  let k := s.calls.length
  { s with
    receives := s.receives ++ [k]
    io := s.io.expiresFromNow.asyncWait k
    calls := s.calls ++ [{ collector, given := collector.responses }]
    running := some k }

/-- A datagram counts as received by the call that is running. -/
def record (s : MultibidderCommunicator) (datagram : StdString) : MultibidderCommunicator :=
  match s.running with
  | none => s
  | some k => s.modifyCall k fun c => { c with received := c.received ++ [datagram] }

/-- The oldest outstanding receive completes. -/
def receive (s : MultibidderCommunicator) (datagram : StdString) :
    Option MultibidderCommunicator :=
  match s.receives with
  | [] => none
  | j :: rest =>
      let s := { s with
        receives := rest
        inData := s.inData.write datagram
        io := s.io.post ⟨j, (transferred datagram).length⟩ }
      some (s.record datagram)

variable (decode : StdString → Option (BidResponse StdString))

/-- The handler of a receive, run by call `k`: the response goes to the collector the
    handler was made with, and the receive is armed again. -/
def handle (s : MultibidderCommunicator) (k : Nat) (r : Receive) : MultibidderCommunicator :=
  match decode (s.inData.read r.bytesRecvd) with
  | none => s.endCall k .escaped
  | some bid =>
      let s := s.modifyCall r.call fun c => { c with collector := c.collector.add bid }
      let s := { s with receives := s.receives ++ [r.call] }
      if (s.calls[r.call]?).any fun c => c.collector.done then s.endCall k (.done r.call) else s

/-- What one completion does in call `k`. -/
def complete (s : MultibidderCommunicator) (k : Nat) (c : Completed Receive Nat) :
    MultibidderCommunicator :=
  let s := s.modifyCall k fun call => { call with ran := call.ran ++ [c.owner Receive.call] }
  match c with
  | .handler r => s.handle decode k r
  | .wait j false => s.endCall k (.expired j)
  | .wait _ true => s

def runOne (s : MultibidderCommunicator) : Option MultibidderCommunicator :=
  match s.running, s.io.runOne with
  | some k, some (c, io) => some ({ s with io }.complete decode k c)
  | _, _ => none

end MultibidderCommunicator

/-- What the caller, the network and the clock do, and the loop's next handler. -/
inductive CommunicatorAction where
  | process (collector : Collector)
  | receive (datagram : StdString)
  | expire
  | run

namespace MultibidderCommunicator

variable (decode : StdString → Option (BidResponse StdString))

def step (s : MultibidderCommunicator) : CommunicatorAction → Option MultibidderCommunicator
  | .process collector => if s.running.isNone then some (s.process collector) else none
  | .receive datagram => s.receive datagram
  | .expire => some { s with io := s.io.expire }
  | .run => s.runOne decode

/-- A call starts when nothing of an earlier one is queued or pending. A datagram that
    arrives during a call finds that call's receive first in line, and decodes as a whole
    and as transferred. No received datagram is queued behind the expiry that ends a call. -/
def Clean (s : MultibidderCommunicator) : CommunicatorAction → Prop
  | .process _ => s.io.queue = [] ∧ s.io.waiting = []
  | .receive datagram => ∀ k, s.running = some k → s.receives.head? = some k ∧
      ∃ bid, decode (transferred datagram) = some bid ∧ decode datagram = some bid
  | .expire => True
  | .run => ∀ j rest, s.io.queue = .wait j false :: rest → s.io.handlers = []

end MultibidderCommunicator

/-- Only the call's own handlers ran in it, it ended with its own collector done or with
    its own expiry, and its collector has got the replies that came while it ran. -/
structure Call.Isolated (decode : StdString → Option (BidResponse StdString)) (k : Nat)
    (c : Call) : Prop where
  own_handlers : ∀ j ∈ c.ran, j = k
  own_ending : ∀ e ∈ c.ending, (e = .done k ∧ c.collector.done = true) ∨ e = .expired k
  own_replies : c.collector.responses.map some <+: c.given.map some ++ c.received.map decode
  all_replies : c.ending ≠ none →
    c.collector.responses.map some = c.given.map some ++ c.received.map decode

/-- While a call is running it need not have got every reply yet. -/
theorem Call.isolated_running {decode : StdString → Option (BidResponse StdString)} {c : Call}
    (own : ∀ j ∈ c.ran, j = k) (unended : c.ending = none)
    (replies : c.collector.responses.map some <+: c.given.map some ++ c.received.map decode) :
    c.Isolated decode k where
  own_handlers := own
  own_ending := by simp [unended]
  own_replies := replies
  all_replies ended := absurd unended ended

namespace MultibidderCommunicator

variable {decode : StdString → Option (BidResponse StdString)} {s t u : MultibidderCommunicator}
  {c : Call}

theorem receive_some (taken : s.receive datagram = some t) : ∃ j rest, s.receives = j :: rest ∧
    t = { s with
      receives := rest
      inData := s.inData.write datagram
      io := s.io.post ⟨j, (transferred datagram).length⟩ }.record datagram := by
  unfold receive at taken
  split at taken
  · cases taken
  · rename_i j rest outstanding
    exact ⟨j, rest, outstanding, (Option.some.inj taken).symm⟩

/-- A handler runs in some call, on the next completion. -/
theorem runOne_some (taken : s.runOne decode = some t) : ∃ k c io, s.running = some k ∧
    s.io.runOne = some (c, io) ∧ t = { s with io }.complete decode k c := by
  unfold runOne at taken
  split at taken
  · rename_i k c io running next
    exact ⟨k, c, io, running, next, (Option.some.inj taken).symm⟩
  · cases taken

section Tracked

/-- What holds in every state of every run: only the running call has not ended, and
    whatever is outstanding, pending or queued belongs to a call there has been. -/
structure Tracked (s : MultibidderCommunicator) : Prop where
  known : ∀ k, s.running = some k → k < s.calls.length
  returned : Each (fun k c => c.ending = none → s.running = some k) s.calls
  started : ∀ j ∈ s.receives, j < s.calls.length
  owned : ∀ j ∈ s.io.owners Receive.call, j < s.calls.length

theorem Tracked.modifyCall (tracked : Tracked s) (k : Nat) {f : Call → Call}
    (same : ∀ c : Call, (f c).ending = c.ending) : Tracked (s.modifyCall k f) := by
  constructor
  · simpa [MultibidderCommunicator.modifyCall] using tracked.known
  · exact tracked.returned.modify fun c here => (same c).symm ▸ tracked.returned k c here
  · simpa [MultibidderCommunicator.modifyCall] using tracked.started
  · simpa [MultibidderCommunicator.modifyCall] using tracked.owned

theorem Tracked.endCall (tracked : Tracked s) (running : s.running = some k)
    (ending : CallEnding) : Tracked (s.endCall k ending) := by
  constructor
  · intro j running
    cases running
  · intro j c here unended
    exfalso
    by_cases same : k = j
    · subst same
      simp only [MultibidderCommunicator.endCall, MultibidderCommunicator.modifyCall,
        List.getElem?_modify_eq, Option.map_eq_map, Option.map_eq_some_iff] at here
      obtain ⟨c, -, rfl⟩ := here
      cases unended
    · have before := tracked.returned j c ((modify_other same _).symm.trans here) unended
      exact same (Option.some.inj (running.symm.trans before))
  · simpa [MultibidderCommunicator.endCall, MultibidderCommunicator.modifyCall]
      using tracked.started
  · simpa [MultibidderCommunicator.endCall, MultibidderCommunicator.modifyCall]
      using tracked.owned

theorem Tracked.handle (tracked : Tracked s) (running : s.running = some k) {r : Receive}
    (known : r.call < s.calls.length) : Tracked (s.handle decode k r) := by
  unfold MultibidderCommunicator.handle
  split
  · exact tracked.endCall running .escaped
  · rename_i bid _
    have added := tracked.modifyCall r.call
      (f := fun c => { c with collector := c.collector.add bid }) fun _ => rfl
    have armed : Tracked { s.modifyCall r.call (fun c =>
        { c with collector := c.collector.add bid }) with receives := s.receives ++ [r.call] } := by
      refine ⟨added.known, added.returned, ?_, added.owned⟩
      intro j hj
      rcases List.mem_append.mp hj with before | new
      · exact added.started j before
      · obtain rfl := List.mem_singleton.mp new
        simpa [MultibidderCommunicator.modifyCall] using known
    dsimp only
    split
    · exact armed.endCall running _
    · exact armed

theorem Tracked.complete (tracked : Tracked s) (running : s.running = some k)
    {completed : Completed Receive Nat} (known : completed.owner Receive.call < s.calls.length) :
    Tracked (s.complete decode k completed) := by
  have ran := tracked.modifyCall k
    (f := fun call => { call with ran := call.ran ++ [completed.owner Receive.call] }) fun _ => rfl
  unfold MultibidderCommunicator.complete
  cases completed with
  | handler r =>
      apply ran.handle running
      simpa [MultibidderCommunicator.modifyCall, Completed.owner] using known
  | wait j aborted =>
      cases aborted with
      | true => exact ran
      | false => exact ran.endCall running _

theorem step_tracked {a : CommunicatorAction} (tracked : Tracked s)
    (taken : step decode s a = some t) : Tracked t := by
  cases a with
  | process collector =>
      simp only [step] at taken
      split at taken
      · rename_i idle
        obtain rfl := Option.some.inj taken
        have ended : Each (fun k c => c.ending = none → some s.calls.length = some k) s.calls := by
          intro k c here unended
          have running := tracked.returned k c here unended
          simp [running] at idle
        refine ⟨?_, ended.concat fun _ => rfl, ?_, ?_⟩
        · intro k running
          obtain rfl := Option.some.inj running
          simp [process]
        · intro j hj
          simp only [process, List.mem_append, List.mem_singleton, List.length_append,
            List.length_singleton] at hj ⊢
          rcases hj with before | rfl
          · have := tracked.started j before
            omega
          · omega
        · intro j hj
          simp only [process, IoService.mem_owners_asyncWait, IoService.owners_expiresFromNow,
            List.length_append, List.length_singleton] at hj ⊢
          rcases hj with before | rfl
          · have := tracked.owned j before
            omega
          · omega
      · cases taken
  | receive datagram =>
      obtain ⟨j, rest, outstanding, rfl⟩ := receive_some taken
      have started := tracked.started
      rw [outstanding, List.forall_mem_cons] at started
      have received : Tracked { s with
          receives := rest
          inData := s.inData.write datagram
          io := s.io.post ⟨j, (transferred datagram).length⟩ } := by
        refine ⟨tracked.known, tracked.returned, started.2, ?_⟩
        intro i hi
        rcases IoService.mem_owners_post.mp hi with before | rfl
        · exact tracked.owned i before
        · exact started.1
      unfold record
      split
      · exact received
      · exact received.modifyCall _ fun _ => rfl
  | expire =>
      obtain rfl := Option.some.inj taken
      exact ⟨tracked.known, tracked.returned, tracked.started, by simpa using tracked.owned⟩
  | run =>
      obtain ⟨k, completed, io, running, next, rfl⟩ := runOne_some taken
      have owned := tracked.owned
      rw [IoService.owners_runOne next, List.forall_mem_cons] at owned
      exact Tracked.complete (s := { s with io })
        ⟨tracked.known, tracked.returned, tracked.started, owned.2⟩ running owned.1

end Tracked

section Calls

/-- The collector has got everything received so far. -/
def Settled (decode : StdString → Option (BidResponse StdString)) (c : Call) : Prop :=
  c.collector.responses.map some = c.given.map some ++ c.received.map decode

/-- Where the running call stands: its receive is outstanding and everything received is
    collected, or one datagram waits in `in_data_` for its handler. -/
def Awaited (decode : StdString → Option (BidResponse StdString)) (s : MultibidderCommunicator)
    (k : Nat) (c : Call) : List Receive → Prop
  | [] => Settled decode c ∧ s.receives.count k ≤ 1
  | [r] => s.receives.count k = 0 ∧ ∃ before datagram bid,
      c.received = before ++ [datagram] ∧ Settled decode { c with received := before } ∧
      decode datagram = some bid ∧ decode (s.inData.read r.bytesRecvd) = some bid
  | _ => False

structure Busy (decode : StdString → Option (BidResponse StdString))
    (s : MultibidderCommunicator) (k : Nat) (c : Call) : Prop where
  here : s.calls[k]? = some c
  unended : c.ending = none
  own : ∀ j ∈ s.io.owners Receive.call, j = k
  awaited : Awaited decode s k c s.io.handlers

/-- What every step of a clean run preserves. -/
structure Consistent (decode : StdString → Option (BidResponse StdString))
    (s : MultibidderCommunicator) : Prop where
  isolated : Each (Call.Isolated decode) s.calls
  busy : ∀ k, s.running = some k → ∃ c, Busy decode s k c

/-- The record of one call changes. -/
theorem isolated_modify {calls : List Call} (isolated : Each (Call.Isolated decode) calls)
    (here : calls[k]? = some c) {f : Call → Call} (changed : (f c).Isolated decode k) :
    Each (Call.Isolated decode) (calls.modify k f) := by
  apply isolated.modify
  intro c' here'
  obtain rfl := Option.some.inj (here.symm.trans here')
  exact changed

/-- While a receive of the call is outstanding, none of its datagrams waits for a handler. -/
theorem Awaited.settled {handlers : List Receive} (awaited : Awaited decode s k c handlers)
    (outstanding : s.receives.count k ≠ 0) :
    handlers = [] ∧ Settled decode c ∧ s.receives.count k ≤ 1 := by
  cases handlers with
  | nil => exact ⟨rfl, awaited⟩
  | cons r more =>
      cases more with
      | nil => exact absurd awaited.1 outstanding
      | cons r' more => exact awaited.elim

/-- Collecting the datagram that waits settles the call. -/
theorem settled_add {before : List StdString} (received : c.received = before ++ [datagram])
    (settled : Settled decode { c with received := before }) (whole : decode datagram = some bid) :
    Settled decode { c with collector := c.collector.add bid } := by
  unfold Settled at settled ⊢
  dsimp only at settled ⊢
  rw [Collector.add_responses, List.map_append, settled, received, List.map_append,
    List.append_assoc]
  simp [whole]

/-- A call that starts where nothing is left over has only its own receive and wait. -/
theorem process_consistent (consistent : Consistent decode s) (tracked : Tracked s)
    (collector : Collector) (queue : s.io.queue = []) (waiting : s.io.waiting = []) :
    Consistent decode (s.process collector) := by
  have fresh : s.receives.count s.calls.length = 0 := by
    apply List.count_eq_zero.mpr
    intro inside
    exact absurd (tracked.started _ inside) (by omega)
  constructor
  · exact consistent.isolated.concat ⟨by simp, by simp, by simp, by simp⟩
  · intro k running
    obtain rfl : s.calls.length = k := Option.some.inj running
    refine ⟨{ collector, given := collector.responses }, by simp [process], rfl, ?_, ?_⟩
    · simp [process, IoService.owners, IoService.expiresFromNow, IoService.complete,
        IoService.asyncWait, queue, waiting]
    · simp [process, IoService.handlers, IoService.expiresFromNow, IoService.complete,
        IoService.asyncWait, queue, waiting, Awaited, Settled, fresh]

/-- A datagram that arrives during a call is the only one on its way. -/
theorem receive_consistent (consistent : Consistent decode s)
    (clean : Clean decode s (.receive datagram)) (taken : s.receive datagram = some t) :
    Consistent decode t := by
  obtain ⟨j, rest, outstanding, rfl⟩ := receive_some taken
  unfold record
  cases running : s.running with
  | none =>
      refine ⟨consistent.isolated, ?_⟩
      intro k here
      cases here
  | some k =>
      obtain ⟨first, bid, cut, whole⟩ := clean k running
      obtain ⟨c, busy⟩ := consistent.busy k running
      obtain rfl : j = k := by simpa [outstanding] using first
      obtain ⟨none_queued, settled, single⟩ := busy.awaited.settled (by simp [outstanding])
      have replies : c.collector.responses.map some <+:
          c.given.map some ++ (c.received ++ [datagram]).map decode := by
        rw [settled, List.map_append, ← List.append_assoc]
        exact List.prefix_append _ _
      constructor
      · exact isolated_modify consistent.isolated busy.here (Call.isolated_running
          (consistent.isolated j c busy.here).own_handlers busy.unended replies)
      · intro k' here
        obtain rfl : j = k' := Option.some.inj here
        refine ⟨_, modify_here busy.here _, busy.unended, ?_, ?_⟩
        · intro i hi
          rcases IoService.mem_owners_post.mp hi with before | rfl
          · exact busy.own i before
          · rfl
        · simp only [modifyCall, IoService.handlers_post, none_queued, List.nil_append]
          rw [outstanding, List.count_cons_self] at single
          have free : rest.count j = 0 := by omega
          refine ⟨free, c.received, datagram, bid, rfl, settled, whole, ?_⟩
          rw [InData.read_write, cut]

theorem expire_consistent (consistent : Consistent decode s) :
    Consistent decode { s with io := s.io.expire } := by
  refine ⟨consistent.isolated, ?_⟩
  intro k running
  obtain ⟨c, busy⟩ := consistent.busy k running
  refine ⟨c, busy.here, busy.unended, by simpa using busy.own, ?_⟩
  simpa [Awaited] using busy.awaited

/-- A call ends well once everything received is collected. -/
theorem endCall_consistent (isolated : Each (Call.Isolated decode) s.calls)
    (here : s.calls[k]? = some c) (settled : Settled decode c)
    (own : (ending = .done k ∧ c.collector.done = true) ∨ ending = .expired k) :
    Consistent decode (s.endCall k ending) := by
  constructor
  · have ended : ({ c with ending := some ending } : Call).Isolated decode k := by
      refine ⟨(isolated k c here).own_handlers, ?_, settled ▸ List.prefix_refl _,
        fun _ => settled⟩
      intro e he
      obtain rfl := Option.some.inj he
      exact own
    exact isolated_modify isolated (f := fun c => { c with ending := some ending }) here ended
  · intro k running
    cases running

/-- The handler of the call's own receive settles the call and arms the receive again. -/
theorem handle_consistent {r : Receive} (isolated : Each (Call.Isolated decode) s.calls)
    (running : s.running = some r.call) (here : s.calls[r.call]? = some c)
    (unended : c.ending = none) (own : ∀ j ∈ s.io.owners Receive.call, j = r.call)
    (awaited : Awaited decode s r.call c (r :: s.io.handlers)) :
    Consistent decode (s.handle decode r.call r) := by
  cases queued : s.io.handlers with
  | cons r' more =>
      rw [queued] at awaited
      exact awaited.elim
  | nil =>
      rw [queued] at awaited
      obtain ⟨free, before, datagram, bid, received, settled, whole, read⟩ := awaited
      have collected := settled_add received settled whole
      have added := modify_here here fun c => { c with collector := c.collector.add bid }
      have still : Each (Call.Isolated decode) (s.calls.modify r.call fun c =>
          { c with collector := c.collector.add bid }) :=
        isolated_modify isolated here (Call.isolated_running
          (isolated _ c here).own_handlers unended (collected ▸ List.prefix_refl _))
      unfold handle
      rw [read]
      dsimp only [modifyCall]
      rw [added]
      split
      · rename_i isDone
        exact endCall_consistent still added collected
          (.inl ⟨rfl, by simpa using isDone⟩)
      · refine ⟨still, ?_⟩
        intro k here'
        obtain rfl := Option.some.inj (running.symm.trans here')
        refine ⟨_, added, unended, own, ?_⟩
        rw [queued]
        exact ⟨collected, by simp [free]⟩

theorem runOne_consistent (consistent : Consistent decode s) (clean : Clean decode s .run)
    (taken : s.runOne decode = some t) : Consistent decode t := by
  obtain ⟨k, completed, io, running, next, rfl⟩ := runOne_some taken
  obtain ⟨c, busy⟩ := consistent.busy k running
  have own := busy.own
  rw [IoService.owners_runOne next, List.forall_mem_cons] at own
  obtain ⟨mine, own⟩ := own
  have awaited := busy.awaited
  rw [IoService.handlers_runOne next] at awaited
  have old := consistent.isolated k c busy.here
  have isolated : ({ c with ran := c.ran ++ [k] } : Call).Isolated decode k := by
    refine Call.isolated_running ?_ busy.unended old.own_replies
    intro j hj
    rcases List.mem_append.mp hj with before | new
    · exact old.own_handlers j before
    · exact List.mem_singleton.mp new
  have ran := modify_here busy.here fun call => { call with ran := call.ran ++ [k] }
  have recorded : Each (Call.Isolated decode) (s.calls.modify k fun call =>
      { call with ran := call.ran ++ [k] }) :=
    isolated_modify consistent.isolated busy.here isolated
  unfold complete
  rw [mine]
  cases completed with
  | handler r =>
      obtain rfl : r.call = k := mine
      exact handle_consistent recorded running ran busy.unended own awaited
  | wait j aborted =>
      obtain rfl : j = k := mine
      cases aborted with
      | true =>
          refine ⟨recorded, ?_⟩
          intro k here
          obtain rfl := Option.some.inj (running.symm.trans here)
          exact ⟨_, ran, busy.unended, own, awaited⟩
      | false =>
          have silent := clean j io.queue (IoService.runOne_some.mp next).1
          rw [IoService.handlers_runOne next] at silent
          rw [silent] at awaited
          exact endCall_consistent recorded ran awaited.1 (.inr rfl)

theorem step_consistent {a : CommunicatorAction} (consistent : Consistent decode s)
    (tracked : Tracked s) (clean : Clean decode s a) (taken : step decode s a = some t) : Consistent decode t := by
  cases a with
  | process collector =>
      simp only [step] at taken
      split at taken
      · obtain rfl := Option.some.inj taken
        exact process_consistent consistent tracked collector clean.1 clean.2
      · cases taken
  | receive datagram => exact receive_consistent consistent clean taken
  | expire =>
      obtain rfl := Option.some.inj taken
      exact expire_consistent consistent
  | run => exact runOne_consistent consistent clean taken

end Calls

theorem start_tracked (inData : InData) : Tracked { inData } where
  known k running := by cases running
  returned := each_nil
  started j outstanding := by cases outstanding
  owned j queued := by cases queued

theorem start_consistent (inData : InData) : Consistent decode { inData } where
  isolated := each_nil
  busy k running := by cases running

/-- In every state that a clean run reaches, every call is isolated from the others. -/
theorem exec_consistent {inData : InData}
    (clean : Along (step decode) (Clean decode) { inData } actions)
    (run : exec (step decode) { inData } actions = some u) : Tracked u ∧ Consistent decode u :=
  exec_invariant_along (fun s => Tracked s ∧ Consistent decode s)
    (fun _ _ _ ⟨tracked, consistent⟩ met taken =>
      ⟨step_tracked tracked taken, step_consistent consistent tracked met taken⟩)
    ⟨start_tracked inData, start_consistent inData⟩ clean run

end MultibidderCommunicator

end VanillaRtb.Exchange
