import VanillaRtb.Http.Server

/-! # The server on several threads

Each thread of the exchange server runs the service of one server, and no lock is held while a
handler is run. Until a signal stops the server, a connection is nevertheless in the hands of one
thread at most, since it has one operation at a time. Stopping does not wait for the other
threads: they may be in a handler of a connection that is let go, or about to start a connection
that nobody will stop.
-/

namespace VanillaRtb.Exchange

open Http Http.Server Http.Server.CompletionHandler
open Http.RequestParser (ResultType)
open Lib.Transition

/-- `running` are the handlers that threads have taken and that have done nothing yet, and `met`
    those of `do_accept` that have found the acceptor open. -/
structure ExchangeServer where
  server : Server := {}
  running : List CompletionHandler := []
  met : List ErrorCode := []

namespace ExchangeServer

/-- The handler of `do_accept` behind its check. An accept of a closed acceptor fails. -/
def proceed (s : Server) (ec : ErrorCode) : Server :=
  let s := if ec = .success then s.startConnection else s
  if s.acceptorOpen then { s with accepting := true }
  else { s with queue := s.queue ++ [.accept .failed] }

/-- What a connection's clients and signals do, and what the threads do. -/
inductive Turn where
  | event (a : Action)
  | take
  | finish (i : Nat) (result : ResultType)
  | proceed (i : Nat)

/-- An idle thread takes a completion, or a thread does what its handler does; that of
    `do_accept` does it in two turns. -/
def step (threads : Nat) (s : ExchangeServer) (turn : Turn) : Option ExchangeServer :=
  if s.server.dangling then none
  else
    match turn with
    | .event (.run _) => none
    | .event a =>
        (s.server.step .persistentConnection a).map fun server => { s with server := server }
    | .take =>
        match s.server.queue with
        | [] => none
        | completion :: rest =>
            if s.running.length + s.met.length < threads then
              some { s with
                server := { s.server with queue := rest }
                running := s.running ++ [completion] }
            else none
    | .finish i result =>
        match s.running[i]? with
        | none => none
        | some (.accept ec) =>
            some { s with
              running := s.running.eraseIdx i
              met := if s.server.acceptorOpen then s.met ++ [ec] else s.met }
        | some completion =>
            some { s with
              server := s.server.handle .persistentConnection result completion
              running := s.running.eraseIdx i }
    | .proceed i =>
        match s.met[i]? with
        | none => none
        | some ec => some { s with server := proceed s.server ec, met := s.met.eraseIdx i }

/-- What a turn can do. -/
inductive Step (threads : Nat) (s : ExchangeServer) : Turn → ExchangeServer → Prop where
  | event {server : Server} (taken : s.server.step .persistentConnection a = some server)
      (other : ∀ result, a ≠ .run result) : Step threads s (.event a) { s with server := server }
  | take {completion : CompletionHandler} {rest : List CompletionHandler}
      (first : s.server.queue = completion :: rest)
      (idle : s.running.length + s.met.length < threads) :
      Step threads s .take { s with
        server := { s.server with queue := rest }
        running := s.running ++ [completion] }
  | check (found : s.running[i]? = some (.accept ec)) :
      Step threads s (.finish i result) { s with
        running := s.running.eraseIdx i
        met := if s.server.acceptorOpen then s.met ++ [ec] else s.met }
  | finish {completion : CompletionHandler} (found : s.running[i]? = some completion)
      (other : completion.isAccept = false) :
      Step threads s (.finish i result) { s with
        server := s.server.handle .persistentConnection result completion
        running := s.running.eraseIdx i }
  | proceed (found : s.met[i]? = some ec) :
      Step threads s (.proceed i) { s with
        server := ExchangeServer.proceed s.server ec
        met := s.met.eraseIdx i }

section Turns

variable {threads : Nat} {s t : ExchangeServer} {turn : Turn}

theorem step_cases (taken : s.step threads turn = some t) :
    s.server.dangling = false ∧ Step threads s turn t := by
  unfold step at taken
  split at taken
  next => cases taken
  next sound =>
    refine ⟨by simpa using sound, ?_⟩
    cases turn with
    | event a =>
        cases a with
        | run result => cases taken
        | complete c ec =>
            obtain ⟨server, next, rfl⟩ := Option.map_eq_some_iff.mp taken
            exact .event next (by intro result same; cases same)
        | connect ec =>
            obtain ⟨server, next, rfl⟩ := Option.map_eq_some_iff.mp taken
            exact .event next (by intro result same; cases same)
        | signal =>
            obtain ⟨server, next, rfl⟩ := Option.map_eq_some_iff.mp taken
            exact .event next (by intro result same; cases same)
    | take =>
        cases first : s.server.queue with
        | nil => simp [first] at taken
        | cons completion rest =>
            simp only [first] at taken
            split at taken
            next idle =>
              cases taken
              exact .take first idle
            next => cases taken
    | finish i result =>
        cases found : s.running[i]? with
        | none => simp [found] at taken
        | some completion =>
            cases completion with
            | accept ec =>
                simp only [found, Option.some.injEq] at taken
                exact taken ▸ .check found
            | operation c op ec =>
                simp only [found, Option.some.injEq] at taken
                exact taken ▸ .finish found rfl
            | stop =>
                simp only [found, Option.some.injEq] at taken
                exact taken ▸ .finish found rfl
    | proceed i =>
        cases found : s.met[i]? with
        | none => simp [found] at taken
        | some ec =>
            simp only [found, Option.some.injEq] at taken
            exact taken ▸ .proceed found

end Turns

/-- The server with what the threads are at back in front of its queue. -/
def merged (s : ExchangeServer) : Server :=
  { s.server with queue := s.running ++ (s.met.map .accept ++ s.server.queue) }

section Attending

variable {threads : Nat} {s t : ExchangeServer} {turn : Turn} {server next : Server}
  {completion : CompletionHandler} {rest queue : List CompletionHandler}

/-- The order of the queue does not matter. -/
theorem attended_perm (attended : Server.Attended { server with queue := rest })
    (same : queue.Perm rest) : Server.Attended { server with queue := queue } := by
  refine ⟨attended.serves, attended.sound, attended.made, ?_, ?_, ?_, ?_⟩
  · intro c
    have busy := attended.busy c
    rw [operations] at busy ⊢
    rw [← busy]
    exact congrArg _ (same.countP_eq _)
  · have listens := attended.listens
    rw [accepts] at listens ⊢
    simpa only [same.countP_eq] using listens
  · rw [← attended.awaits]
    exact same.count_eq _
  · intro later inside
    exact attended.completed later (same.mem_iff.mp inside)

/-- What happens outside is queued behind whatever is there. -/
theorem step_front {a : Action} (taken : server.step .persistentConnection a = some next)
    (other : ∀ result, a ≠ .run result) (front : List CompletionHandler) :
    Server.step .persistentConnection { server with queue := front ++ server.queue } a =
      some { next with queue := front ++ next.queue } := by
  obtain ⟨sound, how⟩ := Server.step_cases taken
  cases how with
  | complete begun unaborted => simp [Server.step, sound, begun, unaborted]
  | connect listening unaborted => simp [Server.step, sound, listening, unaborted]
  | signal awaiting => simp [Server.step, sound, awaiting]
  | @run result completion rest first => exact absurd rfl (other result)

/-- A handler of an idle connection leaves the queue as it is. -/
theorem handle_queue {c : Nat} {op : Operation} {ec : ErrorCode} {result : ResultType}
    (idle : server.outstanding c = none) (queue : List CompletionHandler) :
    Server.handle .persistentConnection result { server with queue := queue }
        (.operation c op ec) =
      { server.handle .persistentConnection result (.operation c op ec) with queue := queue } ∧
    (server.handle .persistentConnection result (.operation c op ec)).queue = server.queue := by
  cases managed : server.connections c with
  | false =>
      cases op with
      | read => cases ec <;> simp [Server.handle, using_, managed]
      | write => simp [Server.handle, using_, managed]
  | true =>
      cases op with
      | read =>
          cases ec with
          | success => cases result <;> simp [Server.handle, using_, managed, begin]
          | failed => simp [Server.handle, using_, managed, stopConnection, close, idle]
          | aborted => simp [Server.handle]
      | write => simp [Server.handle, using_, managed, begin]

/-- Nothing is stopped any more. -/
structure Shut (s : ExchangeServer) : Prop where
  closed : s.server.acceptorOpen = false
  awaiting : s.server.awaiting = false
  once : .stop ∉ s.running ++ s.server.queue

theorem perm_behind (front between : List CompletionHandler) (completion : CompletionHandler)
    (rest : List CompletionHandler) :
    (front ++ (between ++ completion :: rest)).Perm (completion :: (front ++ (between ++ rest))) := by
  rw [← List.append_assoc, ← List.append_assoc]
  exact List.perm_middle

theorem perm_eraseIdx {i : Nat} (found : s.running[i]? = some completion) :
    (completion :: (s.running.eraseIdx i ++ (s.met.map .accept ++ s.server.queue))).Perm
      s.merged.queue := by
  obtain ⟨below, here⟩ := List.getElem?_eq_some_iff.mp found
  have split := List.getElem_cons_eraseIdx_perm below
  rw [here] at split
  exact split.append_right _

theorem perm_eraseIdx_met {i : Nat} {ec : ErrorCode} (found : s.met[i]? = some ec) :
    (.accept ec :: (s.running ++ ((s.met.eraseIdx i).map .accept ++ s.server.queue))).Perm
      s.merged.queue := by
  obtain ⟨below, here⟩ := List.getElem?_eq_some_iff.mp found
  have split := (List.getElem_cons_eraseIdx_perm below).map CompletionHandler.accept
  rw [here] at split
  have inside := (split.append_right s.server.queue).append_left s.running
  exact (perm_behind s.running [] _ _).symm.trans inside

/-- What stopping makes of a server. -/
theorem handle_stop (server : Server) (result : ResultType) :
    server.handle .persistentConnection result .stop =
      { server with
        acceptorOpen := false
        accepting := false
        connections := fun _ => false
        outstanding := fun c =>
          if c ∈ (List.range server.made).filter server.connections then none
          else server.outstanding c
        queue := server.left server.queue } := by
  have distinct : ((List.range server.made).filter server.connections).Nodup :=
    List.nodup_range.filter _
  simp only [Server.handle, stopAll, closeAcceptor, foldl_close distinct, left]
  cases server.accepting <;> simp

theorem stop_left : .stop ∈ server.left rest ↔ .stop ∈ rest := by
  rw [left, List.mem_append, List.mem_append, or_assoc]
  apply or_iff_left
  rintro (accepted | closed)
  · split at accepted
    · cases List.mem_singleton.mp accepted
    · cases accepted
  · obtain ⟨c, -, aborted⟩ := List.mem_filterMap.mp closed
    obtain ⟨op, -, same⟩ := Option.map_eq_some_iff.mp aborted
    cases same

theorem attended_step (attended : s.merged.Attended) (taken : s.step threads turn = some t) :
    t.merged.Attended ∨ Shut t := by
  obtain ⟨sound, how⟩ := step_cases taken
  cases how with
  | @event a server next other =>
      left
      have front := step_front next other (s.running ++ s.met.map .accept)
      simp only [List.append_assoc] at front
      exact attended.step front fun result rest same => absurd same (other result)
  | @take completion rest first idle =>
      left
      apply attended_perm attended
      rw [first]
      simpa using (perm_behind [] (s.met.map .accept) completion rest).symm.append_left s.running
  | @check i result ec found =>
      left
      have serves : s.server.acceptorOpen = true := attended.serves
      apply attended_perm (attended_perm attended (perm_eraseIdx found))
      simpa [serves] using perm_behind (s.running.eraseIdx i) (s.met.map .accept) (.accept ec)
        s.server.queue
  | @finish i result completion found other =>
      let rest := s.running.eraseIdx i ++ (s.met.map .accept ++ s.server.queue)
      have here : Server.Taken { s.merged with queue := completion :: rest } completion rest :=
        ⟨attended_perm attended (perm_eraseIdx found), rfl⟩
      cases completion with
      | accept ec => cases other
      | operation c op ec =>
          left
          obtain ⟨moved, kept⟩ := @handle_queue s.server c op ec result here.owned.2.1 rest
          have after := @Server.Attended.operation .persistentConnection _ rest c result op ec here
          rw [merged, kept, ← moved]
          exact after
      | stop =>
          right
          have awaits := here.awaits
          have waited : s.server.awaiting = false := by
            cases waiting : s.server.awaiting with
            | false => rfl
            | true => simp [merged, waiting] at awaits
          have once : .stop ∉ rest := by
            rw [← List.count_eq_zero]
            simpa [merged, waited] using awaits
          rw [handle_stop]
          refine ⟨rfl, waited, ?_⟩
          rw [List.mem_append, List.mem_append, not_or, not_or] at once
          rw [List.mem_append, not_or]
          exact ⟨once.1, mt stop_left.mp once.2.2⟩
  | @proceed i ec found =>
      left
      have serves : s.server.acceptorOpen = true := attended.serves
      let rest := s.running ++ ((s.met.eraseIdx i).map .accept ++ s.server.queue)
      have here : Server.Taken { s.merged with queue := .accept ec :: rest } (.accept ec) rest :=
        ⟨attended_perm attended (perm_eraseIdx_met found), rfl⟩
      have after := @Server.Attended.accept .persistentConnection _ rest .good ec here
      by_cases success : ec = .success
      · simpa [Server.handle, proceed, merged, startConnection, begin, serves, success, rest]
          using after
      · simpa [Server.handle, proceed, merged, serves, success, rest] using after

/-- A handler of a connection neither closes the acceptor nor stops the server. -/
theorem handle_operation {c : Nat} {op : Operation} {ec : ErrorCode} {result : ResultType} :
    (server.handle .persistentConnection result (.operation c op ec)).acceptorOpen =
        server.acceptorOpen ∧
      (server.handle .persistentConnection result (.operation c op ec)).awaiting =
        server.awaiting ∧
      (.stop ∈ (server.handle .persistentConnection result (.operation c op ec)).queue ↔
        .stop ∈ server.queue) := by
  cases managed : server.connections c with
  | false =>
      cases op with
      | read => cases ec <;> simp [Server.handle, using_, managed]
      | write => simp [Server.handle, using_, managed]
  | true =>
      cases op with
      | read =>
          cases ec with
          | success => cases result <;> simp [Server.handle, using_, managed, begin]
          | failed =>
              cases begun : server.outstanding c <;>
                simp [Server.handle, using_, managed, stopConnection, close, begun]
          | aborted => simp [Server.handle]
      | write => simp [Server.handle, using_, managed, begin]

theorem Shut.step (shut : Shut s) (taken : s.step threads turn = some t) : Shut t := by
  obtain ⟨sound, how⟩ := step_cases taken
  obtain ⟨closed, awaiting, once⟩ := shut
  rw [List.mem_append, not_or] at once
  cases how with
  | @event a next server other =>
      cases (Server.step_cases server).2 with
      | complete begun unaborted => exact ⟨closed, awaiting, by simp [once]⟩
      | connect listening unaborted => exact ⟨closed, awaiting, by simp [once]⟩
      | signal waiting => simp [awaiting] at waiting
      | @run result completion rest first => exact absurd rfl (other result)
  | @take completion rest first idle =>
      rw [first] at once
      exact ⟨closed, awaiting, by simpa [or_assoc] using once⟩
  | @check i result ec found =>
      refine ⟨closed, awaiting, ?_⟩
      rw [List.mem_append, not_or]
      exact ⟨mt List.mem_of_mem_eraseIdx once.1, once.2⟩
  | @finish i result completion found other =>
      cases completion with
      | accept ec => cases other
      | stop => exact absurd (List.mem_of_getElem? found) once.1
      | operation c op ec =>
          obtain ⟨acceptor, signals, queue⟩ := @handle_operation s.server c op ec result
          refine ⟨acceptor.trans closed, signals.trans awaiting, ?_⟩
          rw [List.mem_append, not_or]
          exact ⟨mt List.mem_of_mem_eraseIdx once.1, mt queue.mp once.2⟩
  | @proceed i ec found =>
      by_cases success : ec = .success
      · refine ⟨?_, ?_, ?_⟩ <;>
          simp [ExchangeServer.proceed, success, startConnection, begin, closed, awaiting, once]
      · refine ⟨?_, ?_, ?_⟩ <;> simp [ExchangeServer.proceed, success, closed, awaiting, once]

theorem attended_or_shut (run : exec (step threads) {} turns = some s) :
    s.merged.Attended ∨ Shut s := by
  apply exec_invariant (fun s => s.merged.Attended ∨ Shut s) _ (.inl attended_start) run
  intro s turn t known taken
  cases known with
  | inl attended => exact attended_step attended taken
  | inr shut => exact .inr (shut.step taken)

end Attending

/-- Nobody has a handler of a connection twice, or of one that is gone. -/
structure Exclusive (s : ExchangeServer) : Prop where
  sound : s.server.dangling = false
  owned : ∀ i c op ec, s.running[i]? = some (.operation c op ec) →
    s.server.connections c = true ∧ s.server.outstanding c = none ∧
      (∀ completion ∈ s.running.eraseIdx i ++ s.server.queue, completion.isOf c = false)
  accepts : (if s.server.accepting then 1 else 0) +
    (s.running.countP isAccept + s.met.length + s.server.queue.countP isAccept) = 1

/-- However many threads there are and however their turns fall: until the server is stopped, a
    handler that a thread has of a connection is the only one there is, and the connection waits
    for nothing else. -/
theorem exclusive_of_open {threads : Nat} {turns : List Turn} {s : ExchangeServer}
    (run : exec (step threads) {} turns = some s) (serves : s.server.acceptorOpen = true) :
    Exclusive s := by
  have attended : s.merged.Attended := by
    apply (attended_or_shut run).resolve_right
    intro shut
    exact absurd (shut.closed.symm.trans serves) Bool.false_ne_true
  refine ⟨attended.sound, ?_, ?_⟩
  · intro i c op ec found
    have here : Server.Taken { s.merged with
        queue := .operation c op ec ::
          (s.running.eraseIdx i ++ (s.met.map .accept ++ s.server.queue)) }
        (.operation c op ec) (s.running.eraseIdx i ++ (s.met.map .accept ++ s.server.queue)) :=
      ⟨attended_perm attended (perm_eraseIdx found), rfl⟩
    obtain ⟨managed, idle, alone⟩ := here.owned
    refine ⟨managed, idle, ?_⟩
    intro completion inside
    rw [List.countP_eq_zero] at alone
    rw [← Bool.not_eq_true]
    apply alone completion
    rw [List.mem_append] at inside
    rw [List.mem_append, List.mem_append]
    exact inside.imp_right .inr
  · have listens := attended.listens
    have met : (s.met.map CompletionHandler.accept).countP isAccept = s.met.length := by
      rw [List.countP_map, List.countP_eq_length]
      intro ec inside
      rfl
    rw [accepts, merged, List.countP_append, List.countP_append, met] at listens
    dsimp only at listens
    omega

/-- One thread has read a request while another has met a second client. -/
def twoClients : List Turn :=
  [.event (.connect .success), .take, .finish 0 .good, .proceed 0,
    .event (.complete 0 .success), .event (.connect .success), .take, .take, .finish 1 .good]

theorem exclusive_of_open_two :
    ∃ s, exec (step 2) {} twoClients = some s ∧
      s.running = [.operation 0 .read .success] ∧ s.met = [.success] ∧ Exclusive s := by
  obtain ⟨s, run, running, met, serves⟩ :
      ∃ s, exec (step 2) {} twoClients = some s ∧
        s.running = [.operation 0 .read .success] ∧ s.met = [.success] ∧
        s.server.acceptorOpen = true := ⟨_, rfl, rfl, rfl, rfl⟩
  exact ⟨s, run, running, met, exclusive_of_open run serves⟩

section Stopping

variable {threads : Nat} {s t : ExchangeServer} {turn : Turn} {turns : List Turn}
  {server : Server} {completion : CompletionHandler} {rest queue : List CompletionHandler}

theorem stopped_sub (stopped : Stopped { server with queue := rest }) (sub : queue ⊆ rest) :
    Stopped { server with queue := queue } :=
  ⟨stopped.closed, stopped.accepting, stopped.awaiting, stopped.connections, stopped.outstanding,
    fun inside => stopped.once (sub inside)⟩

/-- Once the server has stopped, a handler does nothing but look at its connection. -/
theorem handle_gone (stopped : s.merged.Stopped) (running : completion ∈ s.running)
    (result : ResultType) :
    s.server.handle .persistentConnection result completion =
      { s.server with
        dangling := s.server.dangling || completion.uses .persistentConnection } := by
  have here : Stopped { s.server with queue := completion :: s.server.queue } := by
    apply stopped_sub stopped
    intro other inside
    rw [List.mem_append, List.mem_append]
    cases List.mem_cons.mp inside with
    | inl same => exact .inl (same ▸ running)
    | inr queued => exact .inr (.inr queued)
  exact here.handle rfl

/-- The handler that stops the server is one that a thread has. -/
structure Stops (s : ExchangeServer) (i : Nat) (t : ExchangeServer) : Prop where
  attended : s.merged.Attended
  found : s.running[i]? = some .stop
  stopped : t.merged.Stopped
  sound : t.server.dangling = false
  queue : t.merged.queue =
    s.merged.left (s.running.eraseIdx i ++ (s.met.map .accept ++ s.server.queue))
  met : t.met = s.met
  running : t.running = s.running.eraseIdx i

theorem stops_of_run {i : Nat} {result : ResultType}
    (run : exec (step threads) {} turns = some s) (found : s.running[i]? = some .stop)
    (taken : s.step threads (.finish i result) = some t) : Stops s i t := by
  have attended : s.merged.Attended := by
    apply (attended_or_shut run).resolve_right
    intro shut
    exact shut.once (List.mem_append_left _ (List.mem_of_getElem? found))
  have here : Server.Attended { s.merged with
      queue := .stop :: (s.running.eraseIdx i ++ (s.met.map .accept ++ s.server.queue)) } :=
    attended_perm attended (perm_eraseIdx found)
  have sound : s.server.dangling = false := attended.sound
  have shape : t = { s with
      server := s.server.handle .persistentConnection result .stop
      running := s.running.eraseIdx i } := by
    simp only [step, sound, found, Bool.false_eq_true, if_false, Option.some.injEq] at taken
    exact taken.symm
  have next : Server.step .persistentConnection { s.merged with
      queue := .stop :: (s.running.eraseIdx i ++ (s.met.map .accept ++ s.server.queue)) }
      (.run result) = some t.merged := by
    rw [shape, merged]
    simp [Server.step, merged, sound, handle_stop, left]
  obtain ⟨stopped, fine, queue⟩ := here.stop rfl next
  exact ⟨attended, found, stopped, fine, queue, by rw [shape], by rw [shape]⟩

theorem threads_le (run : exec (step threads) {} turns = some s) :
    s.running.length + s.met.length ≤ threads := by
  apply exec_invariant (fun s => s.running.length + s.met.length ≤ threads) _
    (Nat.zero_le threads) run
  intro s turn t below taken
  cases (step_cases taken).2 with
  | event next other => exact below
  | take first idle =>
      simp only [List.length_append, List.length_singleton]
      omega
  | @check i result ec found =>
      have erased := List.length_eraseIdx_add_one (List.getElem?_eq_some_iff.mp found).1
      dsimp only
      split
      · simp only [List.length_append, List.length_singleton]
        omega
      · omega
  | @finish i result completion found other =>
      have erased := List.length_eraseIdx_add_one (List.getElem?_eq_some_iff.mp found).1
      dsimp only
      omega
  | @proceed i ec found =>
      have erased := List.length_eraseIdx_add_one (List.getElem?_eq_some_iff.mp found).1
      dsimp only
      omega

/-- The server has stopped, and what is left to do uses no connection and starts none. -/
structure Settled (s : ExchangeServer) : Prop where
  stopped : s.merged.Stopped
  sound : s.server.dangling = false
  unused : ∀ completion ∈ s.merged.queue, completion.uses .persistentConnection = false
  starts : .success ∉ s.met

/-- A handler is taken and then run, and one of `do_accept` may go on to wait for another
    completion, which is that of a closed acceptor. -/
def weight (s : ExchangeServer) : Nat :=
  2 * s.server.queue.length + s.running.length + 3 * s.met.length

/-- No handler is new but one of a closed acceptor. -/
theorem Settled.change (settled : Settled s)
    (same : t.server = { s.server with queue := t.server.queue })
    (queue : ∀ completion ∈ t.merged.queue,
      completion ∈ s.merged.queue ∨ completion = .accept .failed)
    (met : t.met ⊆ s.met) : Settled t := by
  have stopped := settled.stopped
  have shape : t.merged = { s.merged with queue := t.merged.queue } := by
    rw [merged, same, merged]
  refine ⟨?_, by rw [same]; exact settled.sound, ?_, fun inside => settled.starts (met inside)⟩
  · rw [shape]
    refine ⟨stopped.closed, stopped.accepting, stopped.awaiting, stopped.connections,
      stopped.outstanding, ?_⟩
    intro inside
    cases queue _ inside with
    | inl before => exact stopped.once before
    | inr new => cases new
  · intro completion inside
    cases queue completion inside with
    | inl before => exact settled.unused completion before
    | inr new => exact new ▸ rfl

theorem Settled.step (settled : Settled s) (taken : s.step threads turn = some t) :
    Settled t ∧ t.weight < s.weight := by
  have outstanding (c : Nat) : s.server.outstanding c = none := settled.stopped.outstanding c
  have accepting : s.server.accepting = false := settled.stopped.accepting
  have awaiting : s.server.awaiting = false := settled.stopped.awaiting
  have closed : s.server.acceptorOpen = false := settled.stopped.closed
  cases (step_cases taken).2 with
  | @event a server next other =>
      cases (Server.step_cases next).2 with
      | @complete c op ec begun unaborted => simp [outstanding c] at begun
      | connect listening unaborted => simp [accepting] at listening
      | signal waiting => simp [awaiting] at waiting
      | @run result completion rest first => exact absurd rfl (other result)
  | @take completion rest first idle =>
      constructor
      · refine settled.change rfl ?_ (List.Subset.refl _)
        intro later inside
        left
        simp only [merged, first, List.mem_append, List.mem_cons, List.not_mem_nil] at inside ⊢
        grind
      · simp only [weight, first, List.length_cons, List.length_append, List.length_nil]
        omega
  | @check i result ec found =>
      have erased := List.length_eraseIdx_add_one (List.getElem?_eq_some_iff.mp found).1
      simp only [closed, Bool.false_eq_true, if_false]
      constructor
      · refine settled.change rfl ?_ (List.Subset.refl _)
        intro later inside
        exact .inl ((List.mem_append.mp inside).elim
          (fun others => List.mem_append_left _ (List.mem_of_mem_eraseIdx others))
          (List.mem_append_right _))
      · simp only [weight]
        omega
  | @finish i result completion found other =>
      have erased := List.length_eraseIdx_add_one (List.getElem?_eq_some_iff.mp found).1
      have inside := List.mem_of_getElem? found
      have unused := settled.unused completion (List.mem_append_left _ inside)
      rw [handle_gone settled.stopped inside, unused, Bool.or_false]
      constructor
      · refine settled.change rfl ?_ (List.Subset.refl _)
        intro later inside
        exact .inl ((List.mem_append.mp inside).elim
          (fun others => List.mem_append_left _ (List.mem_of_mem_eraseIdx others))
          (List.mem_append_right _))
      · simp only [weight]
        omega
  | @proceed i ec found =>
      have erased := List.length_eraseIdx_add_one (List.getElem?_eq_some_iff.mp found).1
      have failed : ec ≠ .success := by
        rintro rfl
        exact settled.starts (List.mem_of_getElem? found)
      simp only [ExchangeServer.proceed, failed, closed, Bool.false_eq_true, if_false]
      constructor
      · refine settled.change (by simp only [closed]) ?_ List.eraseIdx_subset
        intro later inside
        have fewer : (s.met.eraseIdx i).map CompletionHandler.accept ⊆ s.met.map .accept :=
          List.map_subset _ List.eraseIdx_subset
        simp only [merged, List.mem_append, List.mem_singleton] at inside ⊢
        grind
      · simp only [weight, List.length_append, List.length_singleton]
        omega

theorem Settled.run (settled : Settled s)
    (run : exec (ExchangeServer.step threads) s turns = some t) :
    Settled t ∧ turns.length + t.weight ≤ s.weight := by
  induction turns generalizing s with
  | nil =>
      cases run
      exact ⟨settled, (Nat.zero_add _).le⟩
  | cons turn turns ih =>
      obtain ⟨u, taken, later⟩ := exec_cons.mp run
      obtain ⟨next, less⟩ := settled.step taken
      obtain ⟨last, bound⟩ := ih next later
      refine ⟨last, ?_⟩
      rw [List.length_cons]
      omega

/-- An idle thread takes the first handler of the queue and runs it. -/
theorem runs_first (stopped : s.merged.Stopped) (sound : s.server.dangling = false)
    (idle : s.running.length + s.met.length < threads) (first : s.server.queue = completion :: rest) :
    exec (step threads) s [.take, .finish s.running.length .good] = some { s with
      server := { s.server with
        queue := rest
        dangling := completion.uses .persistentConnection } } := by
  let t : ExchangeServer := { s with
    server := { s.server with queue := rest }
    running := s.running ++ [completion] }
  have taken : s.step threads .take = some t := by
    simp [step, sound, first, idle, t]
  have found : t.running[s.running.length]? = some completion := List.getElem?_concat_length
  have others : t.running.eraseIdx s.running.length = s.running := by
    rw [List.eraseIdx_append_of_length_le le_rfl, Nat.sub_self]
    exact List.append_nil _
  have closed : t.server.acceptorOpen = false := stopped.closed
  have next : t.merged.Stopped := by
    apply stopped_sub stopped
    intro later inside
    simp only [t, first, List.mem_append, List.mem_cons, List.not_mem_nil] at inside ⊢
    grind
  refine exec_cons.mpr ⟨t, taken, exec_cons.mpr ⟨_, ?_, rfl⟩⟩
  have sound' : t.server.dangling = false := sound
  cases completion with
  | accept ec =>
      simp only [step, sound', found, others, closed, Bool.false_eq_true, if_false]
      simp [t, sound, uses]
  | stop => exact absurd (List.mem_append_right _ (List.mem_append_right _
      (first ▸ List.mem_cons_self))) stopped.once
  | operation c op ec =>
      have gone := handle_gone next (List.mem_of_getElem? found) .good
      simp only [step, sound', found, others, gone, Bool.false_eq_true, if_false]
      simp [t]

/-- A thread that is idle can take what is queued and run it, up to a handler that finds its
    connection gone. -/
theorem dangles_of_queued (stopped : s.merged.Stopped) (sound : s.server.dangling = false)
    (idle : s.running.length + s.met.length < threads) (inside : completion ∈ s.server.queue)
    (uses : completion.uses .persistentConnection = true) :
    ∃ turns u, exec (step threads) s turns = some u ∧ u.server.dangling = true := by
  obtain ⟨before, after, split⟩ := List.append_of_mem inside
  induction before generalizing s with
  | nil => exact ⟨_, _, runs_first stopped sound idle split, uses⟩
  | cons earlier before ih =>
      have first := runs_first stopped sound idle split
      cases early : earlier.uses .persistentConnection with
      | true => exact ⟨_, _, first, early⟩
      | false =>
          rw [early] at first
          have next : Stopped { s.server with
              queue := s.running ++ (s.met.map .accept ++ (before ++ completion :: after)) } := by
            apply stopped_sub stopped
            intro later inside
            simp only [split, List.mem_append, List.mem_cons] at inside ⊢
            grind
          obtain ⟨turns, u, later, dangles⟩ := @ih { s with
            server := { s.server with
              queue := before ++ completion :: after
              dangling := false } } (sound ▸ next) rfl idle (by simp) rfl
          exact ⟨_ ++ turns, u, exec_append.mpr ⟨_, first, later⟩, dangles⟩

/-- No thread has a handler of a connection or is about to start one, none is queued, and nothing
    is being written. -/
def Still (s : ExchangeServer) : Prop :=
  s.merged.Quiet .persistentConnection ∧ .success ∉ s.met

/-- What stopping leaves does not use a connection if no handler of one is left, and nothing was
    being written. -/
theorem Stops.unused_iff {i : Nat} (stops : Stops s i t) :
    (∀ completion ∈ t.merged.queue, completion.uses .persistentConnection = false) ↔
      s.merged.Quiet .persistentConnection := by
  let rest := s.running.eraseIdx i ++ (s.met.map .accept ++ s.server.queue)
  have here : Server.Attended { s.merged with queue := .stop :: rest } :=
    attended_perm stops.attended (perm_eraseIdx stops.found)
  have left := @Server.Attended.left_uses_iff .persistentConnection _ rest here rfl
  rw [stops.queue]
  refine left.trans ?_
  simp only [Quiet]
  apply and_congr_left'
  exact forall_congr' fun completion =>
    imp_congr_left (perm_eraseIdx stops.found).mem_iff

end Stopping

/-- One thread has met a client when another stops the server. -/
def clientAtStop : List Turn :=
  [.event (.connect .success), .take, .finish 0 .good, .event .signal, .take]

end ExchangeServer

end VanillaRtb.Exchange
