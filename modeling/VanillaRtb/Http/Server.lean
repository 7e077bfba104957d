import VanillaRtb.Http.Connection

/-! # The server and its connections

A connection object lives as long as the manager has it, and its handlers hold nothing but its
address. While the server accepts, each connection that is managed waits for one operation, and
there are operations of no other. Stopping destroys all of them at once, which is well as long as
the completions still to come do not look at their connection.
-/

namespace VanillaRtb.Http

open RequestParser
open Lib.Transition

namespace Server

inductive Operation where
  | read
  | write
  deriving DecidableEq

inductive ErrorCode where
  | success
  | failed
  | aborted
  deriving DecidableEq

/-- The completion handlers, with their argument: of `do_accept`, of `do_read` and `do_write` of a
    connection, and of `do_await_stop`. -/
inductive CompletionHandler where
  | accept (ec : ErrorCode)
  | operation (c : Nat) (op : Operation) (ec : ErrorCode)
  | stop
  deriving DecidableEq

end Server

open Server

/-- Connections are numbered as they are made. Those in `connections` are the objects that there
    are. `outstanding` are the operations that have not completed, `queue` the completions whose
    handlers the service has not run, and `dangling` is set by a handler that uses an object that
    is no more. -/
structure Server where
  acceptorOpen : Bool := true
  accepting : Bool := true
  awaiting : Bool := true
  made : Nat := 0
  connections : Nat → Bool := fun _ => false
  outstanding : Nat → Option Operation := fun _ => none
  queue : List CompletionHandler := []
  dangling : Bool := false

namespace Server

/-- `do_read` and `do_write`. -/
def begin (s : Server) (c : Nat) (op : Operation) : Server :=
  { s with outstanding := Function.update s.outstanding c (some op) }

/-- `connection_manager::start` of a new connection. -/
def startConnection (s : Server) : Server :=
  { s with
    made := s.made + 1
    connections := Function.update s.connections s.made true }.begin s.made .read

/-- `close` of a socket. -/
def close (s : Server) (c : Nat) : Server :=
  match s.outstanding c with
  | some op =>
      { s with
        outstanding := Function.update s.outstanding c none
        queue := s.queue ++ [.operation c op .aborted] }
  | none => s

/-- `connection_manager::stop` -/
def stopConnection (s : Server) (c : Nat) : Server :=
  { s with connections := Function.update s.connections c false }.close c

/-- `connection_manager::stop_all` -/
def stopAll (s : Server) : Server :=
  let managed := (List.range s.made).filter s.connections
  { managed.foldl close s with connections := fun _ => false }

/-- `close` of the acceptor. -/
def closeAcceptor (s : Server) : Server :=
  { s with
    acceptorOpen := false
    accepting := false
    queue := if s.accepting then s.queue ++ [.accept .aborted] else s.queue }

/-- A handler that uses its connection. -/
def using_ (s : Server) (c : Nat) (next : Server) : Server :=
  if s.connections c then next else { s with dangling := true }

/-- A handler is run. What a completed read has parsed, with what was read before, is `result`. -/
def handle (kind : Kind) (result : ResultType) (s : Server) : CompletionHandler → Server
  | .accept ec =>
      if s.acceptorOpen then
        if ec = .success then { s.startConnection with accepting := true }
        else { s with accepting := true }
      else s
  | .stop => s.closeAcceptor.stopAll
  | .operation c .read .success =>
      s.using_ c
        (match result with
        | .good => s.begin c .write
        | .bad => s.begin c .write
        | .indeterminate => s.begin c .read)
  | .operation c .read .failed => s.using_ c (s.stopConnection c)
  | .operation _ .read .aborted => s
  | .operation c .write ec =>
      match kind with
      | .connection => if ec = .aborted then s else s.using_ c (s.stopConnection c)
      | .persistentConnection => s.using_ c (s.begin c .read)

inductive Action where
  | complete (c : Nat) (ec : ErrorCode)
  | connect (ec : ErrorCode)
  | signal
  | run (result : ResultType)

/-- An operation completes, a client connects, a signal comes, or the service runs the next
    handler. Only closing aborts an operation. -/
def step (kind : Kind) (s : Server) (a : Action) : Option Server :=
  if s.dangling then none
  else
    match a with
    | .complete c ec =>
        match s.outstanding c with
        | some op =>
            if ec = .aborted then none
            else some { s with
              outstanding := Function.update s.outstanding c none
              queue := s.queue ++ [.operation c op ec] }
        | none => none
    | .connect ec =>
        if s.accepting ∧ ec ≠ .aborted then
          some { s with accepting := false, queue := s.queue ++ [.accept ec] }
        else none
    | .signal =>
        if s.awaiting then some { s with awaiting := false, queue := s.queue ++ [.stop] }
        else none
    | .run result =>
        match s.queue with
        | [] => none
        | completion :: rest => some ({ s with queue := rest }.handle kind result completion)

/-- A server that has been constructed. -/
def start : Server := {}

end Server

namespace Server.CompletionHandler

def isOf (c : Nat) : CompletionHandler → Bool
  | .operation d _ _ => d = c
  | _ => false

def isAccept : CompletionHandler → Bool
  | .accept _ => true
  | _ => false

def isAborted : CompletionHandler → Bool
  | .accept ec => ec = .aborted
  | .operation _ _ ec => ec = .aborted
  | .stop => false

/-- The handler uses its connection. -/
def uses (kind : Kind) : CompletionHandler → Bool
  | .operation _ .read ec => ec ≠ .aborted
  | .operation _ .write ec => kind = .persistentConnection || ec ≠ .aborted
  | _ => false

end Server.CompletionHandler

namespace Server

open CompletionHandler

/-- How many operations of a connection have not completed, or have handlers still to be run. -/
def operations (s : Server) (c : Nat) : Nat :=
  (if (s.outstanding c).isSome then 1 else 0) + s.queue.countP (isOf c)

/-- The same of the acceptor. -/
def accepts (s : Server) : Nat := (if s.accepting then 1 else 0) + s.queue.countP isAccept

/-- The server accepts: it waits for a client and for a signal, or their handlers are queued, and
    each connection that is managed is busy with one operation. -/
structure Attended (s : Server) : Prop where
  serves : s.acceptorOpen = true
  sound : s.dangling = false
  made : ∀ c, s.made ≤ c → s.connections c = false
  busy : ∀ c, s.operations c = if s.connections c then 1 else 0
  listens : s.accepts = 1
  awaits : s.queue.count .stop = if s.awaiting then 0 else 1
  completed : ∀ completion ∈ s.queue, completion.isAborted = false

/-- The server has stopped: there are no connections, and nothing is waited for. -/
structure Stopped (s : Server) : Prop where
  closed : s.acceptorOpen = false
  accepting : s.accepting = false
  awaiting : s.awaiting = false
  connections : ∀ c, s.connections c = false
  outstanding : ∀ c, s.outstanding c = none
  once : .stop ∉ s.queue

section Steps

variable {kind : Kind} {s t : Server} {a : Action}

theorem attended_start : Attended start := by
  refine ⟨rfl, rfl, fun _ _ => rfl, fun _ => rfl, rfl, rfl, ?_⟩
  intro completion inside
  cases inside

/-- What a step can do. -/
inductive Step (kind : Kind) (s : Server) : Action → Server → Prop where
  | complete (begun : s.outstanding c = some op) (other : ec ≠ .aborted) :
      Step kind s (.complete c ec) { s with
        outstanding := Function.update s.outstanding c none
        queue := s.queue ++ [.operation c op ec] }
  | connect (listens : s.accepting = true) (other : ec ≠ .aborted) :
      Step kind s (.connect ec) { s with accepting := false, queue := s.queue ++ [.accept ec] }
  | signal (awaits : s.awaiting = true) :
      Step kind s .signal { s with awaiting := false, queue := s.queue ++ [.stop] }
  | run {completion : CompletionHandler} {rest : List CompletionHandler}
      (first : s.queue = completion :: rest) :
      Step kind s (.run result) ({ s with queue := rest }.handle kind result completion)

theorem step_cases (taken : s.step kind a = some t) : s.dangling = false ∧ Step kind s a t := by
  unfold step at taken
  split at taken
  next => cases taken
  next sound =>
    refine ⟨by simpa using sound, ?_⟩
    cases a with
    | complete c ec =>
        cases begun : s.outstanding c with
        | none => simp [begun] at taken
        | some op =>
            simp only [begun] at taken
            split at taken
            next => cases taken
            next other =>
              cases taken
              exact .complete begun other
    | connect ec =>
        dsimp only at taken
        split at taken
        next both =>
          cases taken
          exact .connect both.1 both.2
        next => cases taken
    | signal =>
        dsimp only at taken
        split at taken
        next awaits =>
          cases taken
          exact .signal awaits
        next => cases taken
    | run result =>
        cases queued : s.queue with
        | nil => simp [queued] at taken
        | cons completion rest =>
            simp only [queued, Option.some.injEq] at taken
            exact taken ▸ .run queued

/-- The first handler of the queue is taken out to be run. -/
structure Taken (s : Server) (completion : CompletionHandler) (rest : List CompletionHandler) :
    Prop where
  attended : s.Attended
  first : s.queue = completion :: rest

section Taken

variable {completion : CompletionHandler} {rest : List CompletionHandler}

theorem Taken.completed (taken : s.Taken completion rest) :
    completion.isAborted = false ∧ ∀ later ∈ rest, later.isAborted = false := by
  have all := taken.attended.completed
  rw [taken.first] at all
  exact ⟨all _ List.mem_cons_self, fun later inside => all later (List.mem_cons_of_mem _ inside)⟩

theorem Taken.busy (taken : s.Taken completion rest) (c : Nat) :
    (if (s.outstanding c).isSome then 1 else 0) + (rest.countP (isOf c) +
      if completion.isOf c then 1 else 0) = if s.connections c then 1 else 0 := by
  have busy := taken.attended.busy c
  rwa [operations, taken.first, List.countP_cons] at busy

theorem Taken.listens (taken : s.Taken completion rest) :
    (if s.accepting then 1 else 0) + (rest.countP isAccept +
      if completion.isAccept then 1 else 0) = 1 := by
  have listens := taken.attended.listens
  rwa [accepts, taken.first, List.countP_cons] at listens

theorem Taken.awaits (taken : s.Taken completion rest) :
    rest.count .stop + (if completion == .stop then 1 else 0) = if s.awaiting then 0 else 1 := by
  have awaits := taken.attended.awaits
  rwa [taken.first, List.count_cons] at awaits

theorem Attended.accept {ec : ErrorCode} (taken : s.Taken (.accept ec) rest) :
    Attended ({ s with queue := rest }.handle kind result (.accept ec)) := by
  have attended := taken.attended
  have listens := taken.listens
  have awaits := taken.awaits
  simp only [isAccept, if_true] at listens
  have single : rest.countP isAccept = 0 := by omega
  simp only [reduceCtorEq, beq_iff_eq, if_false, Nat.add_zero] at awaits
  have busy (c : Nat) := taken.busy c
  simp only [isOf, Bool.false_eq_true, if_false, Nat.add_zero] at busy
  by_cases success : ec = .success
  · simp only [handle, attended.serves, success, if_true]
    refine ⟨rfl, attended.sound, ?_, ?_, ?_, awaits, taken.completed.2⟩
    · intro c beyond
      have other : c ≠ s.made := by
        rintro rfl
        exact absurd beyond (Nat.not_succ_le_self _)
      simpa [startConnection, begin, other] using attended.made c (Nat.le_of_succ_le beyond)
    · intro c
      by_cases new : c = s.made
      · subst new
        have before := busy s.made
        rw [attended.made s.made le_rfl] at before
        simp only [operations, startConnection, begin, Function.update_self]
        simp at before ⊢
        exact before.2
      · simpa [operations, startConnection, begin, new] using busy c
    · simp [accepts, startConnection, begin, single]
  · simp only [handle, attended.serves, success, if_true, if_false]
    refine ⟨rfl, attended.sound, attended.made, busy, ?_, awaits, taken.completed.2⟩
    simp [accepts, single]

/-- A handler of a connection runs while the connection is managed and has nothing else to do. -/
theorem Taken.owned {op : Operation} {ec : ErrorCode} (taken : s.Taken (.operation c op ec) rest) :
    s.connections c = true ∧ s.outstanding c = none ∧ rest.countP (isOf c) = 0 := by
  have busy := taken.busy c
  simp only [isOf, decide_true, if_true] at busy
  cases managed : s.connections c with
  | false => simp [managed] at busy
  | true =>
      rw [managed] at busy
      cases begun : s.outstanding c with
      | some op =>
          simp [begun] at busy
      | none =>
          simp [begun] at busy
          simpa using busy

theorem Taken.begin {op : Operation} {ec : ErrorCode}
    (taken : s.Taken (.operation c op ec) rest) (next : Operation) :
    Attended ({ s with queue := rest }.begin c next) := by
  obtain ⟨managed, idle, alone⟩ := taken.owned
  have attended := taken.attended
  have listens := taken.listens
  have awaits := taken.awaits
  simp only [isAccept, Bool.false_eq_true, if_false, Nat.add_zero] at listens
  simp only [reduceCtorEq, beq_iff_eq, if_false, Nat.add_zero] at awaits
  refine ⟨attended.serves, attended.sound, attended.made, ?_, listens, awaits, taken.completed.2⟩
  intro d
  by_cases same : d = c
  · subst same
    simp [operations, Server.begin, managed, alone]
  · have busy := taken.busy d
    change _ = if s.connections d then 1 else 0
    simpa [operations, Server.begin, isOf, same, Ne.symm same] using busy

theorem Taken.stopped {op : Operation} {ec : ErrorCode}
    (taken : s.Taken (.operation c op ec) rest) :
    Attended ({ s with queue := rest }.stopConnection c) := by
  obtain ⟨managed, idle, alone⟩ := taken.owned
  have attended := taken.attended
  have listens := taken.listens
  have awaits := taken.awaits
  simp only [isAccept, Bool.false_eq_true, if_false, Nat.add_zero] at listens
  simp only [reduceCtorEq, beq_iff_eq, if_false, Nat.add_zero] at awaits
  simp only [stopConnection, close, idle]
  refine ⟨attended.serves, attended.sound, ?_, ?_, listens, awaits, taken.completed.2⟩
  · intro d beyond
    by_cases same : d = c
    · simp [same]
    · simpa [same] using attended.made d beyond
  · intro d
    by_cases same : d = c
    · subst same
      simp [operations, idle, alone]
    · have busy := taken.busy d
      simpa [operations, isOf, same, Ne.symm same] using busy

theorem Attended.operation {op : Operation} {ec : ErrorCode}
    (taken : s.Taken (.operation c op ec) rest) :
    Attended ({ s with queue := rest }.handle kind result (.operation c op ec)) := by
  have managed := taken.owned.1
  have other : ec ≠ .aborted := by
    simpa [isAborted] using taken.completed.1
  have uses (next : Server) : using_ { s with queue := rest } c next = next := by
    simp [using_, managed]
  cases op with
  | read =>
      cases ec with
      | success =>
          simp only [handle, uses]
          cases result with
          | good => exact taken.begin .write
          | bad => exact taken.begin .write
          | indeterminate => exact taken.begin .read
      | failed =>
          simp only [handle, uses]
          exact taken.stopped
      | aborted => exact absurd rfl other
  | write =>
      cases kind with
      | connection =>
          simp only [handle, other, if_false, uses]
          exact taken.stopped
      | persistentConnection =>
          simp only [handle, uses]
          exact taken.begin .read

end Taken

theorem Attended.queued {completion : CompletionHandler} {s' : Server} (attended : s.Attended)
    (queue : s'.queue = s.queue ++ [completion]) (other : completion.isAborted = false) :
    ∀ later ∈ s'.queue, later.isAborted = false := by
  intro later inside
  rw [queue] at inside
  cases List.mem_append.mp inside with
  | inl before => exact attended.completed later before
  | inr last => exact List.mem_singleton.mp last ▸ other

/-- A step other than the one that stops the server. -/
theorem Attended.step (attended : s.Attended) (taken : s.step kind a = some t)
    (other : ∀ result rest, a = .run result → s.queue ≠ .stop :: rest) : t.Attended := by
  cases (step_cases taken).2 with
  | @complete c op ec begun unaborted =>
      refine ⟨attended.serves, attended.sound, attended.made, ?_, ?_, ?_,
        attended.queued rfl (by simpa [isAborted] using unaborted)⟩
      · intro d
        have busy := attended.busy d
        change _ = if s.connections d then 1 else 0
        by_cases same : d = c
        · subst same
          simpa [operations, begun, isOf, Nat.add_comm] using busy
        · simpa [operations, isOf, same, Ne.symm same] using busy
      · simpa [accepts, isAccept] using attended.listens
      · simpa using attended.awaits
  | @connect ec listening unaborted =>
      refine ⟨attended.serves, attended.sound, attended.made, ?_, ?_, ?_,
        attended.queued rfl (by simpa [isAborted] using unaborted)⟩
      · intro d
        simpa [operations, isOf] using attended.busy d
      · have listens := attended.listens
        rw [accepts, listening, if_pos rfl] at listens
        have single : s.queue.countP isAccept = 0 := by omega
        rw [accepts, List.countP_append, single]
        rfl
      · simpa using attended.awaits
  | signal awaiting =>
      refine ⟨attended.serves, attended.sound, attended.made, ?_, ?_, ?_,
        attended.queued rfl rfl⟩
      · intro d
        simpa [operations, isOf] using attended.busy d
      · simpa [accepts, isAccept] using attended.listens
      · have awaits := attended.awaits
        simp [awaiting] at awaits
        simp [awaits]
  | @run result completion rest first =>
      have here : s.Taken completion rest := ⟨attended, first⟩
      cases completion with
      | accept ec => exact Attended.accept here
      | operation c op ec => exact Attended.operation here
      | stop => exact absurd first (other result rest rfl)

section Stopping

variable {completion : CompletionHandler} {rest : List CompletionHandler}

/-- What closing the sockets of some connections leaves. -/
theorem foldl_close {cs : List Nat} (distinct : cs.Nodup) (s : Server) : cs.foldl close s =
    { s with
      outstanding := fun c => if c ∈ cs then none else s.outstanding c
      queue := s.queue ++ cs.filterMap fun c =>
        (s.outstanding c).map fun op => .operation c op .aborted } := by
  induction cs generalizing s with
  | nil => simp
  | cons c cs ih =>
      obtain ⟨absent, distinct⟩ := List.nodup_cons.mp distinct
      rw [List.foldl_cons, ih distinct, close]
      cases begun : s.outstanding c with
      | none =>
          have same (d : Nat) : (if d = c ∨ d ∈ cs then none else s.outstanding d) =
              if d ∈ cs then none else s.outstanding d := by
            by_cases here : d = c
            · simp [here, begun]
            · simp [here]
          simp [begun, same]
      | some op =>
          have same (d : Nat) :
              (if d ∈ cs then none else Function.update s.outstanding c none d) =
                if d = c ∨ d ∈ cs then none else s.outstanding d := by
            by_cases here : d = c
            · simp [here]
            · simp [here]
          have later : (cs.filterMap fun d => (Function.update s.outstanding c none d).map
                fun op => CompletionHandler.operation d op .aborted) =
              cs.filterMap fun d => (s.outstanding d).map fun op => .operation d op .aborted := by
            apply List.filterMap_congr
            intro d inside
            have other : d ≠ c := by
              rintro rfl
              exact absent inside
            simp [other]
          simp [begun, same, later]

/-- Once it has stopped, the service runs the handlers that are left, and those of a connection
    find it gone. -/
theorem Stopped.handle (stopped : s.Stopped) (first : s.queue = completion :: rest) :
    Server.handle kind result { s with queue := rest } completion =
      { s with queue := rest, dangling := s.dangling || completion.uses kind } := by
  have gone (c : Nat) (next : Server) : using_ { s with queue := rest } c next =
      { s with queue := rest, dangling := true } := by
    simp [using_, stopped.connections c]
  cases completion with
  | accept ec => simp [Server.handle, stopped.closed, uses]
  | stop => exact absurd (first ▸ List.mem_cons_self) stopped.once
  | operation c op ec =>
      cases op with
      | read => cases ec <;> simp [Server.handle, gone, uses]
      | write =>
          cases kind with
          | connection => cases ec <;> simp [Server.handle, gone, uses]
          | persistentConnection => simp [Server.handle, gone, uses]

theorem Stopped.step (stopped : s.Stopped) (taken : s.step kind a = some t) :
    ∃ completion, s.queue = completion :: t.queue ∧ t.Stopped ∧
      t.dangling = completion.uses kind := by
  obtain ⟨sound, how⟩ := step_cases taken
  cases how with
  | @complete c op ec begun unaborted => simp [stopped.outstanding c] at begun
  | connect listening unaborted => simp [stopped.accepting] at listening
  | signal awaiting => simp [stopped.awaiting] at awaiting
  | @run result completion rest first =>
      rw [stopped.handle first]
      refine ⟨completion, first, ?_, by simp [sound]⟩
      have once := stopped.once
      rw [first, List.mem_cons, not_or] at once
      exact ⟨stopped.closed, stopped.accepting, stopped.awaiting, stopped.connections,
        stopped.outstanding, once.2⟩

/-- The handlers that stopping leaves to be run: those queued, and the operations aborted. -/
def left (s : Server) (rest : List CompletionHandler) : List CompletionHandler :=
  rest ++ (if s.accepting then [.accept .aborted] else []) ++
    ((List.range s.made).filter s.connections).filterMap fun c =>
      (s.outstanding c).map fun op => .operation c op .aborted

theorem Attended.managed (attended : s.Attended) (begun : s.outstanding c = some op) :
    s.connections c = true ∧ c < s.made := by
  have managed : s.connections c = true := by
    by_contra absent
    have busy := attended.busy c
    simp [operations, begun, absent] at busy
  refine ⟨managed, ?_⟩
  by_contra beyond
  rw [attended.made c (Nat.not_lt.mp beyond)] at managed
  cases managed

/-- The handler that stops the server. -/
theorem Attended.stop (attended : s.Attended) (first : s.queue = .stop :: rest)
    (taken : s.step kind (.run result) = some t) :
    t.Stopped ∧ t.dangling = false ∧ t.queue = s.left rest := by
  have awaits := attended.awaits
  rw [first, List.count_cons_self] at awaits
  have waited : s.awaiting = false := by
    cases waiting : s.awaiting with
    | false => rfl
    | true => simp [waiting] at awaits
  have once : .stop ∉ rest := by
    rw [← List.count_eq_zero]
    simpa [waited] using awaits
  have shape : t = { s with
      acceptorOpen := false
      accepting := false
      connections := fun _ => false
      outstanding := fun c =>
        if c ∈ (List.range s.made).filter s.connections then none else s.outstanding c
      queue := s.left rest } := by
    cases (step_cases taken).2 with
    | @run result completion rest' here =>
        obtain ⟨rfl, rfl⟩ := List.cons.inj (first.symm.trans here)
        have distinct : ((List.range s.made).filter s.connections).Nodup :=
          List.nodup_range.filter _
        simp only [Server.handle, stopAll, closeAcceptor, foldl_close distinct, left]
        cases s.accepting <;> simp
  subst shape
  refine ⟨⟨rfl, rfl, waited, fun _ => rfl, ?_, ?_⟩, attended.sound, rfl⟩
  · intro c
    cases begun : s.outstanding c with
    | none => simp [begun]
    | some op =>
        obtain ⟨managed, below⟩ := attended.managed begun
        simp [managed, below]
  · intro inside
    rcases List.mem_append.mp inside with early | closed
    · cases List.mem_append.mp early with
      | inl queued => exact once queued
      | inr accepted =>
          split at accepted
          · cases List.mem_singleton.mp accepted
          · cases accepted
    · obtain ⟨c, -, aborted⟩ := List.mem_filterMap.mp closed
      obtain ⟨op, -, same⟩ := Option.map_eq_some_iff.mp aborted
      cases same

/-- There is no handler queued of any connection, and nothing is being written where that is
    not looked at. -/
def Quiet (kind : Kind) (s : Server) : Prop :=
  (∀ completion ∈ s.queue, ∀ c, completion.isOf c = false) ∧
    (kind = .persistentConnection → ∀ c, s.outstanding c ≠ some .write)

/-- The handler of an operation uses its connection unless the operation was aborted. -/
theorem uses_eq_false_iff (unaborted : completion.isAborted = false) :
    completion.uses kind = false ↔ ∀ c, completion.isOf c = false := by
  cases completion with
  | accept ec => simp [uses, isOf]
  | stop => simp [uses, isOf]
  | operation c op ec =>
      have other : ec ≠ .aborted := by
        simpa [isAborted] using unaborted
      cases op <;> simp [uses, isOf, other]

/-- What stopping leaves does not use a connection exactly if all is quiet. -/
theorem Attended.left_uses_iff (attended : s.Attended) (first : s.queue = .stop :: rest) :
    (∀ completion ∈ s.left rest, completion.uses kind = false) ↔ s.Quiet kind := by
  have completed := attended.completed
  rw [first, List.forall_mem_cons] at completed
  have queued : (∀ completion ∈ rest, completion.uses kind = false) ↔
      ∀ completion ∈ s.queue, ∀ c, completion.isOf c = false := by
    have stop (c : Nat) : isOf c .stop = false := rfl
    rw [first, List.forall_mem_cons, and_iff_right stop]
    exact forall₂_congr fun completion inside => uses_eq_false_iff (completed.2 completion inside)
  have accepted : ∀ completion ∈ (if s.accepting then [CompletionHandler.accept .aborted] else []),
      completion.uses kind = false := by
    intro completion inside
    split at inside
    · rw [List.mem_singleton.mp inside]
      rfl
    · cases inside
  have closed : (∀ completion ∈ ((List.range s.made).filter s.connections).filterMap fun c =>
        (s.outstanding c).map fun op => CompletionHandler.operation c op .aborted,
        completion.uses kind = false) ↔
      (kind = .persistentConnection → ∀ c, s.outstanding c ≠ some .write) := by
    constructor
    · intro unused persistent c writes
      obtain ⟨managed, below⟩ := attended.managed writes
      have inside : CompletionHandler.operation c .write .aborted ∈
          ((List.range s.made).filter s.connections).filterMap fun c =>
            (s.outstanding c).map fun op => CompletionHandler.operation c op .aborted := by
        rw [List.mem_filterMap]
        exact ⟨c, List.mem_filter.mpr ⟨List.mem_range.mpr below, managed⟩, by rw [writes]; rfl⟩
      have := unused _ inside
      simp [uses, persistent] at this
    · intro silent completion inside
      obtain ⟨c, -, aborted⟩ := List.mem_filterMap.mp inside
      obtain ⟨op, begun, rfl⟩ := Option.map_eq_some_iff.mp aborted
      cases op with
      | read => simp [uses]
      | write =>
          cases kind with
          | connection => simp [uses]
          | persistentConnection => exact absurd begun (silent rfl c)
  rw [left, List.forall_mem_append, List.forall_mem_append, queued, closed, and_iff_left accepted]
  rfl

theorem Stopped.runs (stopped : s.Stopped) (sound : s.dangling = false)
    (first : s.queue = completion :: rest) :
    s.step kind (.run .good) = some { s with queue := rest, dangling := completion.uses kind } := by
  have handled : Server.handle kind .good { s with queue := rest } completion =
      { s with queue := rest, dangling := s.dangling || completion.uses kind } :=
    stopped.handle first
  simp [Server.step, sound, first] at handled ⊢
  exact handled

/-- A handler that uses its connection finds it gone. -/
theorem Stopped.dangles (stopped : s.Stopped) (sound : s.dangling = false)
    (inside : completion ∈ s.queue) (uses : completion.uses kind = true) :
    ∃ as u, exec (Server.step kind) s as = some u ∧ u.dangling = true := by
  obtain ⟨before, after, split⟩ := List.append_of_mem inside
  induction before generalizing s with
  | nil =>
      have next := @Stopped.runs kind _ _ _ stopped sound split
      exact ⟨[.run .good], _, exec_cons.mpr ⟨_, next, rfl⟩, uses⟩
  | cons earlier before ih =>
      have next := @Stopped.runs kind _ _ _ stopped sound split
      cases early : earlier.uses kind with
      | true => exact ⟨[.run .good], _, exec_cons.mpr ⟨_, next, rfl⟩, early⟩
      | false =>
          obtain ⟨-, -, stops, -⟩ := stopped.step next
          obtain ⟨as, u, later, dangles⟩ := ih stops early (by simp) rfl
          exact ⟨.run .good :: as, u, exec_cons.mpr ⟨_, next, later⟩, dangles⟩

theorem Stopped.run (stopped : s.Stopped) (sound : s.dangling = false)
    (unused : ∀ completion ∈ s.queue, completion.uses kind = false)
    (run : exec (Server.step kind) s as = some t) :
    t.Stopped ∧ t.dangling = false ∧ as.length + t.queue.length = s.queue.length := by
  induction as generalizing s with
  | nil =>
      cases run
      exact ⟨stopped, sound, Nat.zero_add _⟩
  | cons a as ih =>
      obtain ⟨u, taken, later⟩ := exec_cons.mp run
      obtain ⟨completion, first, next, dangles⟩ := stopped.step taken
      rw [first] at unused
      obtain ⟨here, others⟩ := List.forall_mem_cons.mp unused
      obtain ⟨end_, fine, count⟩ := ih next (dangles.trans here) others later
      refine ⟨end_, fine, ?_⟩
      rw [first, List.length_cons, List.length_cons]
      omega

end Stopping

theorem attended_or_stopped_step (known : s.Attended ∨ s.Stopped)
    (taken : s.step kind a = some t) : t.Attended ∨ t.Stopped := by
  cases known with
  | inl attended =>
      by_cases stops : ∃ result rest, a = .run result ∧ s.queue = .stop :: rest
      · obtain ⟨result, rest, rfl, first⟩ := stops
        exact .inr (attended.stop first taken).1
      · left
        apply attended.step taken
        intro result rest runs first
        exact stops ⟨result, rest, runs, first⟩
  | inr stopped =>
      obtain ⟨completion, first, next, uses⟩ := stopped.step taken
      exact .inr next

theorem attended_of_stop {rest : List CompletionHandler} (known : s.Attended ∨ s.Stopped)
    (first : s.queue = .stop :: rest) : s.Attended := by
  apply known.resolve_right
  intro stopped
  exact stopped.once (first ▸ List.mem_cons_self)

end Steps

/-- A client that has gone before its reply is written. -/
def servedClient : List Action :=
  [.connect .success, .run .good, .complete 0 .success, .run .good, .complete 0 .failed, .run .good]

/-- The handler that stops the server is run. -/
theorem stopped_of_run {kind : Kind} {s t : Server} (run : exec (step kind) start as = some s)
    (first : s.queue = .stop :: rest) (taken : s.step kind (.run result) = some t) :
    s.Attended ∧ t.Stopped ∧ t.dangling = false ∧ t.queue = s.left rest := by
  have known := exec_invariant (fun s => s.Attended ∨ s.Stopped)
    (fun _ _ _ => attended_or_stopped_step) (.inl attended_start) run
  have attended := attended_of_stop known first
  exact ⟨attended, attended.stop first taken⟩

/-- When the handler that stops the server is run, handlers that follow use connections that are
    gone, in some run, unless no handler of a connection is queued and, where the connections are
    persistent, none of them is writing. -/
theorem shutdown_iff {kind : Kind} {s t : Server} (run : exec (step kind) start as = some s)
    (first : s.queue = .stop :: rest) (taken : s.step kind (.run result) = some t) :
    (∀ bs u, exec (step kind) t bs = some u → u.dangling = false) ↔ s.Quiet kind := by
  obtain ⟨attended, stopped, sound, queue⟩ := stopped_of_run run first taken
  rw [← attended.left_uses_iff first, ← queue]
  constructor
  · intro safe completion inside
    cases uses : completion.uses kind with
    | false => rfl
    | true =>
        obtain ⟨bs, u, later, dangles⟩ := stopped.dangles sound inside uses
        exact absurd (dangles.symm.trans (safe bs u later)) (by decide)
  · intro unused bs u later
    exact (stopped.run sound unused later).2.1

/-- A client whose reply is being written when the signal comes. -/
def writingAtSignal : List Action :=
  [.connect .success, .run .good, .complete 0 .success, .run .good, .signal]

/-- The handler of the write, which starts over whatever has become of it, is run after the
    connection is gone. -/
theorem shutdown_iff_writing :
    ∃ s t, exec (step .persistentConnection) start writingAtSignal = some s ∧
      s.step .persistentConnection (.run .good) = some t ∧
      ∃ bs u, exec (step .persistentConnection) t bs = some u ∧ u.dangling = true := by
  obtain ⟨s, t, run, first, writes, taken⟩ :
      ∃ s t, exec (step .persistentConnection) start writingAtSignal = some s ∧
        s.queue = [.stop] ∧ s.outstanding 0 = some .write ∧
        s.step .persistentConnection (.run .good) = some t := ⟨_, _, rfl, rfl, rfl, rfl⟩
  refine ⟨s, t, run, taken, ?_⟩
  by_contra never
  have safe : ∀ bs u, exec (step .persistentConnection) t bs = some u → u.dangling = false := by
    intro bs u later
    by_contra dangles
    exact never ⟨bs, u, later, by simpa using dangles⟩
  exact ((shutdown_iff run first taken).mp safe).2 rfl 0 writes

/-- Otherwise each of the handlers that are left is run once, and then there is nothing more that
    the service waits for. -/
theorem shutdown_returns {kind : Kind} {s t : Server} (run : exec (step kind) start as = some s)
    (first : s.queue = .stop :: rest) (taken : s.step kind (.run result) = some t)
    (quiet : s.Quiet kind) (later : exec (step kind) t bs = some u) :
    u.Stopped ∧ u.dangling = false ∧ bs.length + u.queue.length = (s.left rest).length := by
  obtain ⟨attended, stopped, sound, queue⟩ := stopped_of_run run first taken
  have unused := (attended.left_uses_iff first).mpr quiet
  rw [← queue] at unused ⊢
  exact stopped.run sound unused later

/-- A client that has sent nothing when the signal comes. -/
def readingAtSignal : List Action := [.connect .success, .run .good, .signal]

theorem shutdown_returns_reading :
    ∃ s t u, exec (step .persistentConnection) start readingAtSignal = some s ∧
      s.step .persistentConnection (.run .good) = some t ∧
      exec (step .persistentConnection) t [.run .good, .run .good] = some u ∧
      u.Stopped ∧ u.dangling = false ∧ u.queue = [] := by
  obtain ⟨s, t, u, run, first, reads, taken, later, two⟩ :
      ∃ s t u, exec (step .persistentConnection) start readingAtSignal = some s ∧
        s.queue = [.stop] ∧ s.outstanding = Function.update (fun _ => none) 0 (some .read) ∧
        s.step .persistentConnection (.run .good) = some t ∧
        exec (step .persistentConnection) t [.run .good, .run .good] = some u ∧
        (s.left []).length = 2 := ⟨_, _, _, rfl, rfl, rfl, rfl, rfl, rfl⟩
  have quiet : s.Quiet .persistentConnection := by
    constructor
    · rw [first]
      simp [CompletionHandler.isOf]
    · intro _ c
      rw [reads]
      by_cases here : c = 0
      · simp [here]
      · simp [here]
  obtain ⟨stopped, sound, count⟩ := shutdown_returns run first taken quiet later
  refine ⟨s, t, u, run, taken, later, stopped, sound, ?_⟩
  rw [two] at count
  exact List.eq_nil_of_length_eq_zero (by simpa using count)

end Server

end VanillaRtb.Http
