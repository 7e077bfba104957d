import VanillaRtb.Lib.IoService
import VanillaRtb.Lib.Records
import VanillaRtb.Lib.Transition

/-! # Auctions on one thread's io_service

Every asynchronous auction of a thread posts its handler to the same io_service and waits
on the same timer. A handler is always run by the call that posted it, unless the expiry
of an earlier call is still in the queue: it stops the call, and every later call runs
what the one before has left.
-/

namespace VanillaRtb.Exchange

open Lib
open Lib.Transition (exec Along exec_cons exec_invariant exec_invariant_along exec_first_break)

variable {Req Resp Body : Type}

/-- The handlers of an `exchange_handler` that an asynchronous auction calls. -/
structure ExchangeHandler (Req Resp Body : Type) where
  auctionAsyncHandler : Req → Resp
  ifResponseHandler : Option (Resp → Option Body) := none
  createResponse : Resp → Body

/-- The body of the reply to a response: a custom one, if there is one. -/
def ExchangeHandler.answer (h : ExchangeHandler Req Resp Body) (response : Resp) : Body :=
  match h.ifResponseHandler with
  | none => h.createResponse response
  | some custom => (custom response).getD (h.createResponse response)

inductive AuctionReply (Body : Type) where
  | response (body : Body)
  /-- The reply with nothing but its content type. -/
  | noBid

/-- What made `run` return. -/
inductive AuctionStop where
  /-- The auction handler that this call posted. -/
  | submitted (call : Nat)
  /-- The expiry of the wait that this call started. -/
  | expired (call : Nat)

/-- A call of `handle_auction_async`. -/
structure Auction (Req Resp Body : Type) where
  handler : ExchangeHandler Req Resp Body
  bidRequest : Req
  auctionResponse : Option Resp := none
  /-- The calls during which the posted handler ran. -/
  ran : List Nat := []
  stoppedBy : Option AuctionStop := none
  reply : Option (AuctionReply Body) := none

/-- The `thread_local` io_service and timer, and the calls there have been on the thread. -/
structure ExchangeThread (Req Resp Body : Type) where
  io : IoService Nat Nat := {}
  auctions : List (Auction Req Resp Body) := []
  running : Option Nat := none

inductive ThreadAction (Req Resp Body : Type) where
  | handleAuctionAsync (handler : ExchangeHandler Req Resp Body) (bidRequest : Req)
  | expire
  /-- The next completion runs. If it stops the service, `inTime` says whether the timer
      has any time left when the call looks at it. -/
  | run (inTime : Bool)

namespace ExchangeThread

/-- `handle_auction_async` as far as the start of `run`. -/
def handleAuctionAsync (s : ExchangeThread Req Resp Body) (handler : ExchangeHandler Req Resp Body)
    (bidRequest : Req) : ExchangeThread Req Resp Body :=
  let k := s.auctions.length
  { io := (s.io.post k).expiresFromNow.asyncWait k
    auctions := s.auctions ++ [{ handler, bidRequest }]
    running := some k }

/-- `submit_async` of call `j`, run by call `k`. -/
def submitAsync (s : ExchangeThread Req Resp Body) (j k : Nat) : ExchangeThread Req Resp Body :=
  { s with auctions := s.auctions.modify j fun a =>
      { a with
        auctionResponse := some (a.handler.auctionAsyncHandler a.bidRequest)
        ran := a.ran ++ [k] } }

/-- `run` has returned, and the call writes its reply. -/
def finish (s : ExchangeThread Req Resp Body) (k : Nat) (stop : AuctionStop) (inTime : Bool) :
    ExchangeThread Req Resp Body :=
  { s with
    auctions := s.auctions.modify k fun a =>
      { a with
        stoppedBy := some stop
        reply := match a.auctionResponse, inTime with
          | some response, true => some (.response (a.handler.answer response))
          | _, _ => some .noBid }
    running := none }

/-- What one completion does in call `k`. -/
def complete (s : ExchangeThread Req Resp Body) (k : Nat) (inTime : Bool) :
    Completed Nat Nat → ExchangeThread Req Resp Body
  | .handler j => (s.submitAsync j k).finish k (.submitted j) inTime
  | .wait j false => s.finish k (.expired j) inTime
  | .wait _ true => s

def runOne (s : ExchangeThread Req Resp Body) (inTime : Bool) :
    Option (ExchangeThread Req Resp Body) :=
  match s.running, s.io.runOne with
  | some k, some (c, io) => some ({ s with io }.complete k inTime c)
  | _, _ => none

def step (s : ExchangeThread Req Resp Body) :
    ThreadAction Req Resp Body → Option (ExchangeThread Req Resp Body)
  | .handleAuctionAsync handler bidRequest =>
      if s.running.isNone then some (s.handleAuctionAsync handler bidRequest) else none
  | .expire => some { s with io := s.io.expire }
  | .run inTime => s.runOne inTime

/-- A call starts when no expiry of an earlier call is queued. -/
def Clean (s : ExchangeThread Req Resp Body) : ThreadAction Req Resp Body → Prop
  | .handleAuctionAsync _ _ => ∀ w, .wait w false ∉ s.io.queue
  | _ => True

end ExchangeThread

/-- The reply of a call is its own answer or no bid, its handler ran at most once and in
    the call itself, and nothing that another call has left behind stopped it. -/
structure Auction.Own (k : Nat) (a : Auction Req Resp Body) : Prop where
  own_reply : ∀ reply ∈ a.reply, reply = .noBid ∨
    reply = .response (a.handler.answer (a.handler.auctionAsyncHandler a.bidRequest))
  own_run : a.ran = [] ∨ a.ran = [k]
  own_stop : ∀ stop ∈ a.stoppedBy, stop = .submitted k ∨ stop = .expired k

namespace ExchangeThread

section Calls

variable {s t : ExchangeThread Req Resp Body}

/-- The running call has done nothing yet, and its handler has only cancelled waits
    before it in the queue. -/
structure Pending (s : ExchangeThread Req Resp Body) (k : Nat)
    (a : Auction Req Resp Body) : Prop where
  here : s.auctions[k]? = some a
  untouched : a.ran = []
  queued : ∃ before after, s.io.queue = before ++ .handler k :: after ∧
    (∀ c ∈ before, ∃ w, c = .wait w true) ∧ after.filterMap Completed.handler? = []

/-- A handler runs in some call, on the next completion. -/
theorem runOne_some (taken : s.runOne inTime = some t) : ∃ k c io, s.running = some k ∧
    s.io.runOne = some (c, io) ∧ t = { s with io }.complete k inTime c := by
  unfold runOne at taken
  split at taken
  · rename_i k c io running next
    exact ⟨k, c, io, running, next, (Option.some.inj taken).symm⟩
  · cases taken

/-- What every step of a clean run preserves. -/
structure Consistent (s : ExchangeThread Req Resp Body) : Prop where
  own : Each Auction.Own s.auctions
  started : ∀ w ∈ s.io.owners id, w < s.auctions.length
  idle : s.running = none → s.io.handlers = []
  pending : ∀ k, s.running = some k → ∃ a, Pending s k a

/-- Without handlers and expiries only cancelled waits are queued. -/
theorem cancelled_only {queue : List (Completed Nat Nat)}
    (handlers : queue.filterMap Completed.handler? = []) (unexpired : ∀ w, .wait w false ∉ queue) :
    ∀ c ∈ queue, ∃ w, c = .wait w true := by
  intro c inside
  cases c with
  | handler j =>
      have := List.filterMap_eq_nil_iff.mp handlers _ inside
      cases this
  | wait w aborted =>
      cases aborted with
      | true => exact ⟨w, rfl⟩
      | false => exact absurd inside (unexpired w)

theorem waits_have_no_handlers (waiting : List Nat) (aborted : Bool) :
    (waiting.map fun w => (.wait w aborted : Completed Nat Nat)).filterMap
      Completed.handler? = [] := by
  simp [List.filterMap_map, Completed.handler?, Function.comp_def]

theorem handleAuctionAsync_consistent (consistent : Consistent s)
    (handler : ExchangeHandler Req Resp Body) (bidRequest : Req) (returned : s.running = none)
    (unexpired : ∀ w, .wait w false ∉ s.io.queue) :
    Consistent (s.handleAuctionAsync handler bidRequest) := by
  constructor
  · exact consistent.own.concat ⟨by simp, .inl rfl, by simp⟩
  · intro w hw
    simp only [handleAuctionAsync, IoService.mem_owners_asyncWait, IoService.owners_expiresFromNow,
      IoService.mem_owners_post, id_eq, List.length_append, List.length_singleton] at hw ⊢
    rcases hw with (before | rfl) | rfl
    · have := consistent.started w before
      omega
    · omega
    · omega
  · intro running
    cases running
  · intro k running
    obtain rfl : s.auctions.length = k := Option.some.inj running
    refine ⟨{ handler, bidRequest }, by simp [handleAuctionAsync], rfl, s.io.queue, _, ?_,
      cancelled_only (consistent.idle returned) unexpired, waits_have_no_handlers s.io.waiting true⟩
    simp [handleAuctionAsync, IoService.asyncWait, IoService.expiresFromNow, IoService.complete,
      IoService.post]

theorem expire_consistent (consistent : Consistent s) :
    Consistent { s with io := s.io.expire } := by
  refine ⟨consistent.own, by simpa using consistent.started, by simpa using consistent.idle, ?_⟩
  intro k running
  obtain ⟨a, here, untouched, before, after, queue, cancelled, silent⟩ :=
    consistent.pending k running
  refine ⟨a, here, untouched, before, after ++ s.io.waiting.map fun w => .wait w false, ?_,
    cancelled, ?_⟩
  · simp [IoService.expire, IoService.complete, queue]
  · rw [List.filterMap_append, silent, waits_have_no_handlers, List.append_nil]

/-- The handler that the running call has posted answers it. -/
theorem submitted_own (own : Each Auction.Own s.auctions) {a : Auction Req Resp Body}
    (here : s.auctions[k]? = some a) (untouched : a.ran = []) (inTime : Bool) :
    Each Auction.Own ((s.submitAsync k k).finish k (.submitted k) inTime).auctions := by
  unfold finish submitAsync
  dsimp only
  rw [List.modify_modify_eq]
  apply own.modify
  intro a' here'
  obtain rfl := Option.some.inj (here.symm.trans here')
  constructor
  · cases inTime <;> simp
  · right
    simp [untouched]
  · simp

theorem runOne_consistent (consistent : Consistent s) (taken : s.runOne inTime = some t) :
    Consistent t := by
  obtain ⟨k, c, io, running, next, rfl⟩ := runOne_some taken
  obtain ⟨a, here, untouched, before, after, queue, cancelled, silent⟩ :=
    consistent.pending k running
  have started := consistent.started
  rw [IoService.owners_runOne next, List.forall_mem_cons] at started
  have first := (IoService.runOne_some.mp next).1
  rw [queue] at first
  cases before with
  | nil =>
      obtain ⟨rfl, rest⟩ := List.cons.inj first
      refine ⟨submitted_own consistent.own here untouched inTime, ?_, ?_, ?_⟩
      · simpa [complete, finish, submitAsync] using started.2
      · intro _
        change io.queue.filterMap Completed.handler? = []
        rw [← rest]
        exact silent
      · intro k' running'
        cases running'
  | cons c' before =>
      obtain ⟨rfl, rest⟩ := List.cons.inj first
      obtain ⟨w, rfl⟩ := cancelled c' List.mem_cons_self
      refine ⟨consistent.own, started.2, ?_, ?_⟩
      · intro returned
        cases running.symm.trans returned
      · intro k' running'
        obtain rfl := Option.some.inj (running.symm.trans running')
        exact ⟨a, here, untouched, before, after, rest.symm,
          fun c hc => cancelled c (List.mem_cons_of_mem _ hc), silent⟩

theorem step_consistent {a : ThreadAction Req Resp Body} (consistent : Consistent s)
    (clean : Clean s a) (taken : step s a = some t) : Consistent t := by
  cases a with
  | handleAuctionAsync handler bidRequest =>
      simp only [step] at taken
      split at taken
      · rename_i returned
        obtain rfl := Option.some.inj taken
        exact handleAuctionAsync_consistent consistent handler bidRequest
          (Option.isNone_iff_eq_none.mp returned) clean
      · cases taken
  | expire =>
      obtain rfl := Option.some.inj taken
      exact expire_consistent consistent
  | run inTime => exact runOne_consistent consistent taken

theorem start_consistent : Consistent ({} : ExchangeThread Req Resp Body) := by
  constructor
  · exact each_nil
  · intro w queued
    cases queued
  · intro _
    rfl
  · intro k running
    cases running

end Calls

section Stopped

variable {s t u : ExchangeThread Req Resp Body}

/-- The call is running, and the expiry of another call is the next completion that is
    not a cancelled wait. -/
def Doomed (s : ExchangeThread Req Resp Body) (k w : Nat) : Prop :=
  s.running = some k ∧ k < s.auctions.length ∧ ∃ before after,
    s.io.queue = before ++ .wait w false :: after ∧ ∀ c ∈ before, ∃ v, c = .wait v true

/-- The call has returned, stopped by that expiry. -/
def StoppedBy (s : ExchangeThread Req Resp Body) (k w : Nat) : Prop :=
  s.running ≠ some k ∧ ∃ a, s.auctions[k]? = some a ∧ a.stoppedBy = some (.expired w)

theorem doomed_step {a : ThreadAction Req Resp Body} (doomed : Doomed s k w)
    (taken : step s a = some t) : Doomed t k w ∨ StoppedBy t k w := by
  obtain ⟨running, known, before, after, queue, cancelled⟩ := doomed
  cases a with
  | handleAuctionAsync handler bidRequest => simp [step, running] at taken
  | expire =>
      obtain rfl := Option.some.inj taken
      refine .inl ⟨running, known, before, after ++ s.io.waiting.map fun w => .wait w false, ?_,
        cancelled⟩
      simp [IoService.expire, IoService.complete, queue]
  | run inTime =>
      obtain ⟨k', c, io, running', next, rfl⟩ := runOne_some taken
      obtain rfl := Option.some.inj (running.symm.trans running')
      have first := (IoService.runOne_some.mp next).1
      rw [queue] at first
      cases before with
      | nil =>
          obtain ⟨rfl, -⟩ := List.cons.inj first
          right
          obtain ⟨a, here⟩ : ∃ a, s.auctions[k]? = some a :=
            ⟨_, List.getElem?_eq_getElem known⟩
          exact ⟨by simp [complete, finish], _, modify_here here _, rfl⟩
      | cons c' before =>
          obtain ⟨rfl, rest⟩ := List.cons.inj first
          obtain ⟨v, rfl⟩ := cancelled c' List.mem_cons_self
          exact .inl ⟨running, known, before, after, rest.symm,
            fun c hc => cancelled c (List.mem_cons_of_mem _ hc)⟩

/-- A call that returns leaves the record of what stopped another one. -/
theorem finish_stoppedBy {k' : Nat} (other : k' ≠ k) (here : s.auctions[k]? = some a)
    (by_expiry : a.stoppedBy = some (.expired w)) :
    StoppedBy (s.finish k' stop inTime) k w := by
  refine ⟨by simp [finish], a, ?_, by_expiry⟩
  simp only [finish, modify_other other]
  exact here

theorem submitAsync_stoppedBy {k : Nat} {a : Auction Req Resp Body} (j k' : Nat)
    (here : s.auctions[k]? = some a) (by_expiry : a.stoppedBy = some (.expired w)) :
    ∃ a' : Auction Req Resp Body, (s.submitAsync j k').auctions[k]? = some a' ∧
      a'.stoppedBy = some (.expired w) := by
  unfold submitAsync
  by_cases same : j = k
  · subst same
    exact ⟨_, modify_here here _, by_expiry⟩
  · exact ⟨a, (modify_other same _).trans here, by_expiry⟩

/-- What stopped a call that has returned stays on record. -/
theorem stoppedBy_step {action : ThreadAction Req Resp Body} (stopped : StoppedBy s k w)
    (taken : step s action = some t) : StoppedBy t k w := by
  obtain ⟨returned, a, here, by_expiry⟩ := stopped
  have known : k < s.auctions.length := (List.getElem?_eq_some_iff.mp here).1
  cases action with
  | handleAuctionAsync handler bidRequest =>
      simp only [step] at taken
      split at taken
      · obtain rfl := Option.some.inj taken
        refine ⟨?_, a, ?_, by_expiry⟩
        · simp only [handleAuctionAsync, ne_eq, Option.some.injEq]
          omega
        · simp [handleAuctionAsync, List.getElem?_append_left known, here]
      · cases taken
  | expire =>
      obtain rfl := Option.some.inj taken
      exact ⟨returned, a, here, by_expiry⟩
  | run inTime =>
      obtain ⟨k', c, io, running, next, rfl⟩ := runOne_some taken
      have other : k' ≠ k := by
        intro same
        exact returned (same ▸ running)
      cases c with
      | handler j =>
          obtain ⟨a', here', by_expiry'⟩ :=
            submitAsync_stoppedBy (s := { s with io }) j k' here by_expiry
          exact finish_stoppedBy other here' by_expiry'
      | wait v aborted =>
          cases aborted with
          | true => exact ⟨returned, a, here, by_expiry⟩
          | false => exact finish_stoppedBy (s := { s with io }) other here by_expiry

/-- Without handlers, an expiry in the queue has only cancelled waits before the first one. -/
theorem first_expiry {queue : List (Completed Nat Nat)}
    (handlers : queue.filterMap Completed.handler? = []) (leftover : .wait w false ∈ queue) :
    ∃ before v after, queue = before ++ .wait v false :: after ∧
      ∀ c ∈ before, ∃ v, c = .wait v true := by
  induction queue with
  | nil => cases leftover
  | cons c rest ih =>
      cases c with
      | handler j => simp [Completed.handler?] at handlers
      | wait v aborted =>
          cases aborted with
          | false => exact ⟨[], v, rest, rfl, by simp⟩
          | true =>
              have later : .wait w false ∈ rest := by simpa using leftover
              obtain ⟨before, v', after, rfl, cancelled⟩ := ih handlers later
              exact ⟨.wait v true :: before, v', after, rfl,
                List.forall_mem_cons.mpr ⟨⟨v, rfl⟩, cancelled⟩⟩

/-- A call that starts behind the expiry of an earlier one is stopped by an earlier one. -/
theorem stopped_by_earlier (consistent : Consistent s) (handler : ExchangeHandler Req Resp Body)
    (bidRequest : Req) (returned : s.running = none) (leftover : .wait w false ∈ s.io.queue)
    (run : exec step (s.handleAuctionAsync handler bidRequest) actions = some u)
    (idle : u.running = none) : ∃ v, v < s.auctions.length ∧ StoppedBy u s.auctions.length v := by
  obtain ⟨before, v, after, queue, cancelled⟩ := first_expiry (consistent.idle returned) leftover
  have earlier : v < s.auctions.length := by
    apply consistent.started
    simp [IoService.owners, queue, Completed.owner]
  have doomed : Doomed (s.handleAuctionAsync handler bidRequest) s.auctions.length v := by
    refine ⟨rfl, by simp [handleAuctionAsync], before, after ++ .handler s.auctions.length ::
      s.io.waiting.map fun w => .wait w true, ?_, cancelled⟩
    simp [handleAuctionAsync, IoService.asyncWait, IoService.expiresFromNow, IoService.complete,
      IoService.post, queue]
  refine ⟨v, earlier, ?_⟩
  have reached := exec_invariant
    (fun s' => Doomed s' s.auctions.length v ∨ StoppedBy s' s.auctions.length v)
    (fun _ _ _ before taken => before.elim (doomed_step · taken)
      fun stopped => .inr (stoppedBy_step stopped taken)) (.inl doomed) run
  refine reached.resolve_left fun still => ?_
  cases idle.symm.trans still.1

end Stopped

/-- In every state that a run reaches whose calls all start without a queued expiry, every
    call is its own; and a run in whose last state all calls have returned and every call
    is its own has no call that starts with a queued expiry. -/
theorem auctions_own_iff (actions : List (ThreadAction Req Resp Body))
    (run : exec step {} actions = some u) :
    (Along step Clean {} actions → Each Auction.Own u.auctions) ∧
      (u.running = none → Each Auction.Own u.auctions → Along step Clean {} actions) := by
  constructor
  · intro clean
    exact (exec_invariant_along Consistent
      (fun _ _ _ consistent met taken => step_consistent consistent met taken) start_consistent
      clean run).own
  · intro idle own
    by_contra unclean
    obtain ⟨before, a, after, m, t, rfl, reach, clean, broken, taken, later⟩ :=
      exec_first_break unclean run
    have consistent := exec_invariant_along Consistent
      (fun _ _ _ consistent met taken => step_consistent consistent met taken) start_consistent
      clean reach
    cases a with
    | expire => exact broken trivial
    | run inTime => exact broken trivial
    | handleAuctionAsync handler bidRequest =>
        simp only [Clean, not_forall, not_not] at broken
        obtain ⟨w, leftover⟩ := broken
        simp only [step] at taken
        split at taken
        · rename_i returned
          obtain rfl := Option.some.inj taken
          obtain ⟨v, earlier, -, a, here, by_expiry⟩ := stopped_by_earlier consistent handler
            bidRequest (Option.isNone_iff_eq_none.mp returned) leftover later idle
          rcases (own _ a here).own_stop _ by_expiry with other | mine
          · cases other
          · have := AuctionStop.expired.inj mine
            omega
        · cases taken

section Leftover

/-- A handler that answers each request with itself. -/
def echo : ExchangeHandler Nat Nat Nat where
  auctionAsyncHandler request := request
  createResponse response := response

def oneAuction : List (ThreadAction Nat Nat Nat) := [.handleAuctionAsync echo 7, .run true]

theorem one_auction_own : ∃ u, exec step {} oneAuction = some u ∧ Each Auction.Own u.auctions := by
  refine ⟨_, rfl, ?_⟩
  apply (auctions_own_iff oneAuction rfl).1
  refine ⟨?_, fun _ _ => ⟨trivial, fun _ _ => trivial⟩⟩
  intro w queued
  cases queued

/-- The timer of the first call expires while its handler is running. -/
def lateExpiry : List (ThreadAction Nat Nat Nat) :=
  [.handleAuctionAsync echo 7, .expire, .run true, .handleAuctionAsync echo 8, .run true]

/-- The expiry of the first call stops the second one. -/
theorem late_expiry_stops_next :
    ¬ ∀ u, exec step {} lateExpiry = some u → Each Auction.Own u.auctions := by
  intro own
  have second := (own _ rfl 1 _ rfl).own_stop (.expired 0) rfl
  rcases second with other | mine
  · cases other
  · cases mine

end Leftover

end ExchangeThread

end VanillaRtb.Exchange
