import VanillaRtb.Exchange.MultibidderCommunicator

/-! # What a call finds of earlier ones

A step that is not clean cannot be made good: from then on a handler of another call has
run or is about to run, or a datagram is missing from the collector of the call that it
arrived in. So the clean runs are exactly those whose calls are all isolated in the end.
-/

namespace VanillaRtb.Exchange

open Lib OpenRtb Messaging
open Lib.Transition (exec Along exec_invariant exec_first_break)

/-- What is on record stays on record. -/
structure Call.Extends (c c' : Call) : Prop where
  given : c'.given = c.given
  responses : c.collector.responses <+: c'.collector.responses
  received : c.received <+: c'.received
  ran : c.ran <+: c'.ran

theorem Call.Extends.refl (c : Call) : c.Extends c :=
  ⟨rfl, List.prefix_refl _, List.prefix_refl _, List.prefix_refl _⟩

theorem Call.Extends.trans {a b c : Call} (first : a.Extends b) (second : b.Extends c) :
    a.Extends c where
  given := second.given.trans first.given
  responses := first.responses.trans second.responses
  received := first.received.trans second.received
  ran := first.ran.trans second.ran

/-- What running a completion does to a record: at most `n` responses are added. -/
structure Call.Collects (c c' : Call) (n : Nat) : Prop where
  given : c'.given = c.given
  received : c'.received = c.received
  ran : c.ran <+: c'.ran
  few : c'.collector.responses.length ≤ c.collector.responses.length + n

theorem Call.Collects.trans {a b c : Call} (first : a.Collects b n) (second : b.Collects c 0) :
    a.Collects c n where
  given := second.given.trans first.given
  received := second.received.trans first.received
  ran := first.ran.trans second.ran
  few := second.few.trans first.few

namespace MultibidderCommunicator

variable {decode : StdString → Option (BidResponse StdString)} {s t u : MultibidderCommunicator}
  {c : Call}

section Keeps

/-- Every record of the one log is extended in the other. -/
abbrev Keeps (before after : List Call) : Prop := Grows Call.Extends before after

theorem keeps_modify {calls : List Call} (k : Nat) {f : Call → Call}
    (grows : ∀ c : Call, c.Extends (f c)) : Keeps calls (calls.modify k f) :=
  grows_modify Call.Extends.refl k grows

theorem keeps_endCall (k : Nat) (ending : CallEnding) :
    Keeps s.calls (s.endCall k ending).calls :=
  keeps_modify k fun _ => ⟨rfl, List.prefix_refl _, List.prefix_refl _, List.prefix_refl _⟩

theorem keeps_handle (k : Nat) (r : Receive) : Keeps s.calls (s.handle decode k r).calls := by
  unfold handle
  split
  · exact keeps_endCall k .escaped
  · rename_i bid _
    have added : Keeps s.calls (s.modifyCall r.call fun c =>
        { c with collector := c.collector.add bid }).calls :=
      keeps_modify r.call fun c =>
        ⟨rfl, List.prefix_append .., List.prefix_refl _, List.prefix_refl _⟩
    dsimp only
    split
    · exact Grows.trans Call.Extends.trans added (keeps_endCall k _)
    · exact added

theorem keeps_complete (k : Nat) (completed : Completed Receive Nat) :
    Keeps s.calls (s.complete decode k completed).calls := by
  have ran : Keeps s.calls (s.modifyCall k fun call =>
      { call with ran := call.ran ++ [completed.owner Receive.call] }).calls :=
    keeps_modify k fun c =>
      ⟨rfl, List.prefix_refl _, List.prefix_refl _, List.prefix_append ..⟩
  unfold complete
  cases completed with
  | handler r => exact Grows.trans Call.Extends.trans ran (keeps_handle k r)
  | wait j aborted =>
      cases aborted with
      | true => exact ran
      | false => exact Grows.trans Call.Extends.trans ran (keeps_endCall k _)

theorem step_keeps {a : CommunicatorAction} (taken : step decode s a = some t) :
    Keeps s.calls t.calls := by
  cases a with
  | process collector =>
      simp only [step] at taken
      split at taken
      · obtain rfl := Option.some.inj taken
        exact grows_concat Call.Extends.refl _ _
      · cases taken
  | receive datagram =>
      obtain ⟨j, rest, -, rfl⟩ := receive_some taken
      unfold record
      split
      · exact .refl Call.Extends.refl s.calls
      · exact keeps_modify _ fun c =>
          ⟨rfl, List.prefix_refl _, List.prefix_append .., List.prefix_refl _⟩
  | expire =>
      obtain rfl := Option.some.inj taken
      exact .refl Call.Extends.refl s.calls
  | run =>
      obtain ⟨k, completed, io, -, -, rfl⟩ := runOne_some taken
      exact keeps_complete (s := { s with io }) k completed

end Keeps

section Spoiled

/-- The handlers of call `k` that its own `run` may still come to. -/
def underway (s : MultibidderCommunicator) (k : Nat) : Nat :=
  if s.running = some k then s.io.handlers.countP fun r => r.call = k else 0

/-- What no later step makes good. -/
inductive Spoiled (decode : StdString → Option (BidResponse StdString))
    (s : MultibidderCommunicator) : Prop where
  /-- A handler of another call has run. -/
  | foreign {k : Nat} {c : Call} (here : s.calls[k]? = some c) (ran : j ∈ c.ran) (other : j ≠ k)
  /-- A response was collected that is not the one that was received. -/
  | wrong {k i : Nat} {c : Call} (here : s.calls[k]? = some c)
      (response : c.collector.responses[c.given.length + i]? = some bid)
      (received : c.received[i]? = some datagram) (other : decode datagram ≠ some bid)
  /-- More was received than is collected or underway. -/
  | lagging {k : Nat} {c : Call} (here : s.calls[k]? = some c)
      (few : c.collector.responses.length + s.underway k < c.given.length + c.received.length)
  /-- The datagram on its way to the collector does not decode to what was received. -/
  | garbled {k : Nat} {c : Call} (running : s.running = some k) (here : s.calls[k]? = some c)
      (single : s.io.handlers = [r]) (own : r.call = k) (armed : s.receives.count k = 0)
      (received : c.received = before ++ [datagram])
      (collected : c.collector.responses.length = c.given.length + before.length)
      (different : ∀ bid, decode (s.inData.read r.bytesRecvd) = some bid →
        decode datagram ≠ some bid)
  /-- The next completion is another call's. -/
  | misled (running : s.running = some k) (next : s.io.queue.head? = some completed)
      (other : completed.owner Receive.call ≠ k)

variable {k i : Nat}

theorem Spoiled.of_foreign (keeps : Keeps s.calls t.calls) (here : s.calls[k]? = some c)
    (ran : j ∈ c.ran) (other : j ≠ k) : Spoiled decode t := by
  obtain ⟨c', here', extended⟩ := keeps k c here
  exact .foreign here' (extended.ran.subset ran) other

theorem entry_kept {as bs : List α} (prefixed : as <+: bs) (here : as[i]? = some a) :
    bs[i]? = some a := by
  obtain ⟨rest, rfl⟩ := prefixed
  exact (List.getElem?_append_left (List.getElem?_eq_some_iff.mp here).1).trans here

theorem Spoiled.of_wrong (keeps : Keeps s.calls t.calls) (here : s.calls[k]? = some c)
    (response : c.collector.responses[c.given.length + i]? = some bid)
    (received : c.received[i]? = some datagram) (other : decode datagram ≠ some bid) :
    Spoiled decode t := by
  obtain ⟨c', here', extended⟩ := keeps k c here
  refine .wrong here' ?_ (entry_kept extended.received received) other
  rw [extended.given]
  exact entry_kept extended.responses response

theorem endCall_record (here : s.calls[k]? = some c) (k' : Nat) (ending : CallEnding) :
    ∃ c', (s.endCall k' ending).calls[k]? = some c' ∧ c.Collects c' 0 := by
  refine ⟨_, modify_at here k' _, ?_⟩
  split
  · exact ⟨rfl, rfl, List.prefix_refl _, le_refl _⟩
  · exact ⟨rfl, rfl, List.prefix_refl _, le_refl _⟩

section

variable (decode)

theorem handle_record (here : s.calls[k]? = some c) (k' : Nat) (r : Receive) :
    ∃ c', (s.handle decode k' r).calls[k]? = some c' ∧
      c.Collects c' (if r.call = k then 1 else 0) := by
  unfold handle
  split
  · obtain ⟨c', here', collects⟩ := endCall_record here k' .escaped
    exact ⟨c', here', collects.given, collects.received, collects.ran,
      collects.few.trans (Nat.le_add_right _ _)⟩
  · rename_i bid _
    have added := modify_at here r.call fun c => { c with collector := c.collector.add bid }
    have collects : c.Collects
        (if r.call = k then { c with collector := c.collector.add bid } else c)
        (if r.call = k then 1 else 0) := by
      split
      · exact ⟨rfl, rfl, List.prefix_refl _, by simp⟩
      · exact ⟨rfl, rfl, List.prefix_refl _, le_refl _⟩
    dsimp only
    split
    · obtain ⟨c', here', ended⟩ := endCall_record (s := { s with
        receives := s.receives ++ [r.call]
        calls := s.calls.modify r.call fun c => { c with collector := c.collector.add bid } })
        added k' (.done r.call)
      exact ⟨c', here', collects.trans ended⟩
    · exact ⟨_, added, collects⟩

/-- A handler may add one response to its own call, and the call it runs in records it. -/
theorem complete_record (here : s.calls[k]? = some c) (k' : Nat)
    (completed : Completed Receive Nat) :
    ∃ c', (s.complete decode k' completed).calls[k]? = some c' ∧
      c.Collects c' (completed.handler?.toList.countP fun r => r.call = k) ∧
      (k' = k → completed.owner Receive.call ∈ c'.ran) := by
  have ran := modify_at here k' fun call =>
    { call with ran := call.ran ++ [completed.owner Receive.call] }
  have marked : c.Collects (if k' = k then
      { c with ran := c.ran ++ [completed.owner Receive.call] } else c) 0 := by
    split
    · exact ⟨rfl, rfl, List.prefix_append .., le_refl _⟩
    · exact ⟨rfl, rfl, List.prefix_refl _, le_refl _⟩
  have recorded : k' = k → completed.owner Receive.call ∈ (if k' = k then
      { c with ran := c.ran ++ [completed.owner Receive.call] } else c : Call).ran := by
    intro same
    simp [same]
  unfold complete
  cases completed with
  | handler r =>
      obtain ⟨c', here', collects⟩ := handle_record decode (s := s.modifyCall k' fun call =>
        { call with ran := call.ran ++ [Completed.owner Receive.call (.handler r)] }) ran k' r
      refine ⟨c', here', ?_, fun same => collects.ran.subset (recorded same)⟩
      have counted : ((Completed.handler r : Completed Receive Nat).handler?.toList.countP
          fun r => r.call = k) = if r.call = k then 1 else 0 := by
        simp [Completed.handler?, List.countP_cons]
      rw [counted]
      exact ⟨collects.given.trans marked.given, collects.received.trans marked.received,
        marked.ran.trans collects.ran, collects.few.trans (Nat.add_le_add_right marked.few _)⟩
  | wait j aborted =>
      cases aborted with
      | true => exact ⟨_, ran, marked, recorded⟩
      | false =>
          obtain ⟨c', here', collects⟩ := endCall_record (s := s.modifyCall k' fun call =>
            { call with ran := call.ran ++ [Completed.owner Receive.call (.wait j false)] })
            ran k' (.expired j)
          exact ⟨c', here', marked.trans collects,
            fun same => collects.ran.subset (recorded same)⟩

theorem complete_frame (s : MultibidderCommunicator) (k' : Nat) (completed : Completed Receive Nat) :
    (s.complete decode k' completed).io = s.io ∧
      ((s.complete decode k' completed).running = s.running ∨
        (s.complete decode k' completed).running = none) := by
  unfold complete
  cases completed with
  | handler r =>
      dsimp only
      unfold handle
      split
      · exact ⟨rfl, .inr rfl⟩
      · dsimp only
        split
        · exact ⟨rfl, .inr rfl⟩
        · exact ⟨rfl, .inl rfl⟩
  | wait j aborted =>
      cases aborted with
      | true => exact ⟨rfl, .inl rfl⟩
      | false => exact ⟨rfl, .inr rfl⟩

theorem underway_complete (s : MultibidderCommunicator) (k k' : Nat) (completed : Completed Receive Nat) :
    (s.complete decode k' completed).underway k ≤ s.underway k := by
  obtain ⟨queues, running⟩ := complete_frame decode s k' completed
  unfold underway
  rw [queues]
  rcases running with same | idle
  · rw [same]
  · simp [idle]

end

theorem underway_own (running : s.running = some k) :
    s.underway k = s.io.handlers.countP fun r => r.call = k := if_pos running

theorem underway_other (other : s.running ≠ some k) : s.underway k = 0 := if_neg other

/-- A completion that is the running call's own takes its handler from what is underway. -/
theorem underway_runOne {completed : Completed Receive Nat} {io : IoService Receive Nat}
    (running : s.running = some k') (next : s.io.runOne = some (completed, io))
    (own : completed.owner Receive.call = k') (k : Nat) :
    s.underway k = (completed.handler?.toList.countP fun r => r.call = k) +
      underway { s with io } k := by
  by_cases same : k' = k
  · subst same
    rw [underway_own running, underway_own (s := { s with io }) running,
      IoService.handlers_runOne next, List.countP_append]
  · have other : s.running ≠ some k := by
      rw [running]
      simpa using same
    rw [underway_other other, underway_other (s := { s with io }) other]
    cases completed with
    | handler r =>
        have foreign : r.call ≠ k := fun here => same (own.symm.trans here)
        simp [Completed.handler?, foreign]
    | wait j aborted => rfl

/-- The completion of another call's handler spoils the run. -/
theorem complete_foreign (known : k < s.calls.length)
    (other : completed.owner Receive.call ≠ k) :
    Spoiled decode (s.complete decode k completed) := by
  obtain ⟨c', here, -, ran⟩ := complete_record decode
    (List.getElem?_eq_getElem known) k completed
  exact .foreign here (ran rfl) other

theorem misled_step {a : CommunicatorAction} (tracked : Tracked s) (running : s.running = some k)
    (next : s.io.queue.head? = some completed) (other : completed.owner Receive.call ≠ k)
    (taken : step decode s a = some t) : Spoiled decode t := by
  cases a with
  | process collector => simp [step, running] at taken
  | receive datagram =>
      obtain ⟨j, outstanding, -, rfl⟩ := receive_some taken
      unfold record
      rw [running]
      refine .misled rfl ?_ other
      simp [modifyCall, IoService.post, List.head?_append, next]
  | expire =>
      obtain rfl := Option.some.inj taken
      refine .misled running ?_ other
      simp [IoService.expire, IoService.complete, List.head?_append, next]
  | run =>
      obtain ⟨k', completed', io, running', next', rfl⟩ := runOne_some taken
      obtain rfl := Option.some.inj (running.symm.trans running')
      rw [(IoService.runOne_some.mp next').1, List.head?_cons] at next
      obtain rfl := Option.some.inj next
      exact complete_foreign (s := { s with io }) (tracked.known k running) other

theorem lagging_step {a : CommunicatorAction} (tracked : Tracked s) (here : s.calls[k]? = some c)
    (few : c.collector.responses.length + s.underway k < c.given.length + c.received.length)
    (taken : step decode s a = some t) : Spoiled decode t := by
  have known := (List.getElem?_eq_some_iff.mp here).1
  cases a with
  | process collector =>
      simp only [step] at taken
      split at taken
      · obtain rfl := Option.some.inj taken
        refine .lagging ((List.getElem?_append_left known).trans here) ?_
        have later : (s.process collector).running ≠ some k := by
          intro same
          have := Option.some.inj same
          omega
        rw [underway_other later]
        omega
      · cases taken
  | receive datagram =>
      obtain ⟨j, rest, -, rfl⟩ := receive_some taken
      unfold record
      cases running : s.running with
      | none =>
          refine .lagging here ?_
          rw [underway_other (by simp)]
          omega
      | some k' =>
          refine .lagging (modify_at here k' _) ?_
          by_cases same : k' = k
          · subst same
            rw [underway_own running] at few
            rw [underway_own rfl]
            have one := List.countP_le_length (p := fun r : Receive => r.call = k')
              (l := [⟨j, (transferred datagram).length⟩])
            simp only [modifyCall, IoService.handlers_post, List.countP_append, if_true,
              List.length_append, List.length_singleton] at one ⊢
            omega
          · rw [underway_other (by simpa [modifyCall] using same), if_neg same]
            omega
  | expire =>
      obtain rfl := Option.some.inj taken
      refine .lagging here ?_
      simpa [underway] using few
  | run =>
      obtain ⟨k', completed, io, running, next, rfl⟩ := runOne_some taken
      by_cases own : completed.owner Receive.call = k'
      · obtain ⟨c', here', collects, -⟩ :=
          complete_record decode (s := { s with io }) here k' completed
        refine .lagging here' ?_
        have left := underway_complete decode { s with io } k k' completed
        have added := collects.few
        rw [underway_runOne running next own] at few
        rw [collects.given, collects.received]
        omega
      · exact complete_foreign (s := { s with io }) (tracked.known k' running) own

/-- An ended call that has not got every reply will not get them. -/
theorem lagging_endCall (here : s.calls[k]? = some c) (ending : CallEnding)
    (few : c.collector.responses.length < c.given.length + c.received.length) :
    Spoiled decode (s.endCall k ending) := by
  refine .lagging (modify_here here _) ?_
  rw [underway_other (by simp [endCall])]
  exact few

/-- A datagram that does not decode as received ends the call without it, or adds a
    response that is not its own. -/
theorem garbled_handle {r : Receive} (here : s.calls[k]? = some c) (own : r.call = k)
    (received : c.received = before ++ [datagram])
    (collected : c.collector.responses.length = c.given.length + before.length)
    (different : ∀ bid, decode (s.inData.read r.bytesRecvd) = some bid →
      decode datagram ≠ some bid) : Spoiled decode (s.handle decode k r) := by
  subst own
  unfold handle
  cases read : decode (s.inData.read r.bytesRecvd) with
  | none =>
      apply lagging_endCall here
      rw [collected, received, List.length_append, List.length_singleton]
      omega
  | some bid =>
      have added := modify_here here fun c => { c with collector := c.collector.add bid }
      have response : (c.collector.add bid).responses[c.given.length + before.length]? =
          some bid := by
        rw [Collector.add_responses, ← collected, List.getElem?_concat_length]
      have last : c.received[before.length]? = some datagram := by
        rw [received, List.getElem?_concat_length]
      dsimp only [modifyCall]
      rw [added]
      split
      · exact .of_wrong (keeps_endCall r.call _) added response last (different bid read)
      · exact .wrong added response last (different bid read)

theorem garbled_step {a : CommunicatorAction} {r : Receive} (tracked : Tracked s)
    (running : s.running = some k) (here : s.calls[k]? = some c) (single : s.io.handlers = [r])
    (own : r.call = k) (armed : s.receives.count k = 0)
    (received : c.received = before ++ [datagram])
    (collected : c.collector.responses.length = c.given.length + before.length)
    (different : ∀ bid, decode (s.inData.read r.bytesRecvd) = some bid →
      decode datagram ≠ some bid)
    (taken : step decode s a = some t) : Spoiled decode t := by
  cases a with
  | process collector => simp [step, running] at taken
  | receive later =>
      obtain ⟨j, rest, outstanding, rfl⟩ := receive_some taken
      have foreign : j ≠ k := by
        intro same
        rw [outstanding, same, List.count_cons_self] at armed
        omega
      unfold record
      rw [running]
      refine .lagging (modify_here here _) ?_
      rw [underway_own rfl]
      simp only [modifyCall, IoService.handlers_post, single, received, collected]
      simp [own, foreign]
      omega
  | expire =>
      obtain rfl := Option.some.inj taken
      exact .garbled running here (by simpa using single) own armed received collected different
  | run =>
      obtain ⟨k', completed, io, running', next, rfl⟩ := runOne_some taken
      obtain rfl := Option.some.inj (running.symm.trans running')
      have few : c.collector.responses.length < c.given.length + c.received.length := by
        rw [collected, received, List.length_append, List.length_singleton]
        omega
      rw [IoService.handlers_runOne next] at single
      by_cases mine : completed.owner Receive.call = k
      · have ran := modify_here here fun call =>
          { call with ran := call.ran ++ [completed.owner Receive.call] }
        unfold complete
        cases completed with
        | handler r' =>
            obtain ⟨rfl, -⟩ := List.cons.inj single
            exact garbled_handle ran own received collected different
        | wait j aborted =>
            cases aborted with
            | true => exact .garbled running ran single own armed received collected different
            | false =>
                apply lagging_endCall ran
                exact few
      · exact complete_foreign (s := { s with io }) (tracked.known k running) mine

/-- No step makes a spoiled run good again. -/
theorem step_spoiled {a : CommunicatorAction} (tracked : Tracked s) (spoiled : Spoiled decode s)
    (taken : step decode s a = some t) : Spoiled decode t := by
  cases spoiled with
  | foreign here ran other => exact .of_foreign (step_keeps taken) here ran other
  | wrong here response received other =>
      exact .of_wrong (step_keeps taken) here response received other
  | lagging here few => exact lagging_step tracked here few taken
  | garbled running here single own armed received collected different =>
      exact garbled_step tracked running here single own armed received collected different taken
  | misled running next other => exact misled_step tracked running next other taken

/-- Once every call has returned, a spoiled run has a call that is not isolated. -/
theorem Spoiled.not_isolated (tracked : Tracked s) (spoiled : Spoiled decode s)
    (idle : s.running = none) : ¬ Each (Call.Isolated decode) s.calls := by
  intro isolated
  cases spoiled with
  | foreign here ran other => exact other ((isolated _ _ here).own_handlers _ ran)
  | wrong here response received other =>
      rename_i bid datagram k i c
      have replies := (isolated _ _ here).own_replies
      have collected : (c.collector.responses.map some)[c.given.length + i]? = some (some bid) := by
        rw [List.getElem?_map, response]
        rfl
      have sent := entry_kept replies collected
      rw [List.getElem?_append_right (by simp), List.length_map, Nat.add_sub_cancel_left,
        List.getElem?_map, received] at sent
      exact other (Option.some.inj sent)
  | lagging here few =>
      rename_i k c
      have ended : c.ending ≠ none := by
        intro unended
        cases idle.symm.trans (tracked.returned _ _ here unended)
      have lengths := congrArg List.length ((isolated _ _ here).all_replies ended)
      simp only [List.length_map, List.length_append] at lengths
      omega
  | garbled running => cases idle.symm.trans running
  | misled running => cases idle.symm.trans running

end Spoiled

section Breaks

/-- Whatever a call finds queued or pending is queued ahead of its own completions. -/
theorem process_spoiled (tracked : Tracked s) (collector : Collector)
    (leftover : ¬ (s.io.queue = [] ∧ s.io.waiting = [])) :
    Spoiled decode (s.process collector) := by
  have owners : (s.process collector).io.queue.map (Completed.owner Receive.call) =
      s.io.owners Receive.call := by
    simp [process, IoService.owners, IoService.expiresFromNow, IoService.asyncWait,
      IoService.complete, Completed.owner, Function.comp_def]
  cases queue : (s.process collector).io.queue with
  | nil =>
      rw [queue] at owners
      simp only [List.map_nil, IoService.owners, List.nil_eq, List.append_eq_nil_iff,
        List.map_eq_nil_iff] at owners
      exact absurd owners leftover
  | cons completed rest =>
      refine .misled (k := s.calls.length) rfl (congrArg List.head? queue) ?_
      rw [queue, List.map_cons] at owners
      have earlier := tracked.owned (completed.owner Receive.call) (by simp [← owners])
      omega

/-- Everything received is collected or waits for a handler of the call's own. -/
theorem Awaited.lengths {handlers : List Receive} (awaited : Awaited decode s k c handlers) :
    c.collector.responses.length + handlers.length = c.given.length + c.received.length := by
  have settled {c : Call} (all : Settled decode c) :
      c.collector.responses.length = c.given.length + c.received.length := by
    simpa using congrArg List.length all
  cases handlers with
  | nil => simpa using settled awaited.1
  | cons r more =>
      cases more with
      | nil =>
          obtain ⟨-, before, datagram, -, received, all, -, -⟩ := awaited
          have := settled all
          dsimp only at this
          rw [this, received]
          simp [Nat.add_assoc]
      | cons r' more => exact awaited.elim

/-- A datagram that arrives during a call and is not for it, or is not received whole. -/
theorem receive_spoiled (consistent : Consistent decode s)
    (unclean : ¬ Clean decode s (.receive datagram)) (taken : s.receive datagram = some t) :
    Spoiled decode t := by
  obtain ⟨j, rest, outstanding, rfl⟩ := receive_some taken
  simp only [Clean, not_forall, not_and, not_exists] at unclean
  obtain ⟨k, running, unclean⟩ := unclean
  obtain ⟨c, busy⟩ := consistent.busy k running
  have received := modify_here busy.here fun c => { c with received := c.received ++ [datagram] }
  unfold record
  rw [running]
  by_cases own : j = k
  · subst own
    obtain ⟨none_queued, settled, single⟩ := busy.awaited.settled (by simp [outstanding])
    rw [outstanding, List.count_cons_self] at single
    have free : rest.count j = 0 := by omega
    have alone : (s.io.post ⟨j, (transferred datagram).length⟩).handlers =
        [⟨j, (transferred datagram).length⟩] := by
      rw [IoService.handlers_post, none_queued, List.nil_append]
    refine .garbled rfl received alone rfl free rfl
      (by simpa using congrArg List.length settled) ?_
    intro bid read whole
    refine unclean (by simp [outstanding]) bid ?_ whole
    rw [← InData.read_write]
    exact read
  · refine .lagging received ?_
    have lengths := busy.awaited.lengths
    have most := List.countP_le_length (p := fun r : Receive => r.call = k) (l := s.io.handlers)
    rw [underway_own rfl]
    simp only [modifyCall, IoService.handlers_post, List.countP_append, List.length_append,
      List.length_singleton]
    simp [own]
    omega

/-- A call that ends while its datagram waits for the handler does not get it. -/
theorem runOne_spoiled (consistent : Consistent decode s) (unclean : ¬ Clean decode s .run)
    (taken : s.runOne decode = some t) : Spoiled decode t := by
  obtain ⟨k, completed, io, running, next, rfl⟩ := runOne_some taken
  simp only [Clean, not_forall] at unclean
  obtain ⟨j, rest, expired, waiting⟩ := unclean
  obtain ⟨c, busy⟩ := consistent.busy k running
  obtain rfl : completed = .wait j false := by
    rw [(IoService.runOne_some.mp next).1] at expired
    exact (List.cons.inj expired).1
  have lengths := busy.awaited.lengths
  have some_waits := List.length_pos_iff.mpr waiting
  unfold complete
  apply lagging_endCall (modify_here busy.here _)
  dsimp only
  omega

theorem step_breaks {a : CommunicatorAction} (consistent : Consistent decode s)
    (tracked : Tracked s) (unclean : ¬ Clean decode s a) (taken : step decode s a = some t) :
    Spoiled decode t := by
  cases a with
  | process collector =>
      simp only [step] at taken
      split at taken
      · obtain rfl := Option.some.inj taken
        exact process_spoiled tracked collector unclean
      · cases taken
  | receive datagram => exact receive_spoiled consistent unclean taken
  | expire => exact absurd trivial unclean
  | run => exact runOne_spoiled consistent unclean taken

end Breaks

/-- In a clean run every call is isolated from the others, whichever state it reaches; once
    every call has returned, no other run leaves them so. -/
theorem calls_isolated_iff (decode : StdString → Option (BidResponse StdString))
    (inData : InData) (actions : List CommunicatorAction)
    (run : exec (step decode) { inData } actions = some u) :
    (Along (step decode) (Clean decode) { inData } actions →
      Each (Call.Isolated decode) u.calls) ∧
    (u.running = none → Each (Call.Isolated decode) u.calls →
      Along (step decode) (Clean decode) { inData } actions) := by
  constructor
  · intro clean
    exact (exec_consistent clean run).2.isolated
  · intro idle isolated
    by_contra unclean
    obtain ⟨before, a, after, m, t, rfl, reach, clean, broken, taken, later⟩ :=
      exec_first_break unclean run
    obtain ⟨tracked, consistent⟩ := exec_consistent clean reach
    have ruined := exec_invariant (fun s => Tracked s ∧ Spoiled decode s)
      (fun _ _ _ ⟨tracked, spoiled⟩ taken =>
        ⟨step_tracked tracked taken, step_spoiled tracked spoiled taken⟩)
      ⟨step_tracked tracked taken, step_breaks consistent tracked broken taken⟩ later
    exact ruined.2.not_isolated ruined.1 idle isolated

section Leftover

/-- A decoder that keeps the bytes as the id of the response. -/
def decodeId (data : StdString) : Option (BidResponse StdString) := some { id := data }

/-- One call with one reply. -/
def oneCall : List CommunicatorAction :=
  [.process { numBidders := 1 }, .receive (ascii "bid"), .run]

theorem one_call_isolated : ∃ u, exec (step decodeId) { inData := .zeros } oneCall = some u ∧
    Each (Call.Isolated decodeId) u.calls := by
  refine ⟨_, rfl, ?_⟩
  apply (calls_isolated_iff decodeId .zeros oneCall rfl).1
  refine ⟨⟨rfl, rfl⟩, fun t taken => ?_⟩
  obtain rfl := Option.some.inj taken
  refine ⟨?_, fun t taken => ?_⟩
  · rintro k ⟨⟩
    exact ⟨rfl, _, rfl, rfl⟩
  · obtain rfl := Option.some.inj taken
    refine ⟨?_, fun _ _ => trivial⟩
    intro j rest queue
    cases queue

/-- The first call expires without a reply, the second one gets one. -/
def twoCalls : List CommunicatorAction :=
  [.process { numBidders := 1 }, .expire, .run, .process { numBidders := 1 },
    .receive (ascii "bid"), .run]

/-- The reply to the second call goes to the handler that the first one has left behind. -/
theorem reply_to_earlier_call : ¬ ∀ u,
    exec (step decodeId) { inData := .zeros } twoCalls = some u →
      Each (Call.Isolated decodeId) u.calls := by
  intro isolated
  have ran : (exec (step decodeId) { inData := .zeros } twoCalls).map
      (fun u => u.calls.map Call.ran) = some [[0], [0]] := by decide +kernel
  obtain ⟨u, run, handlers⟩ := Option.map_eq_some_iff.mp ran
  have second : (u.calls.map Call.ran)[1]? = some [0] := by rw [handlers]; rfl
  rw [List.getElem?_map, Option.map_eq_some_iff] at second
  obtain ⟨c, here, ran⟩ := second
  have own := (isolated u run 1 c here).own_handlers 0 (by simp [ran])
  cases own

end Leftover

end MultibidderCommunicator

end VanillaRtb.Exchange
