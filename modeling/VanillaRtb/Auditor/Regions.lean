import VanillaRtb.Auditor.Rotation
import VanillaRtb.Lib.Filling

/-! # What is handed out of the segments

Each segment is filled by the counter of its own, whoever the callers are that hold it and
whatever index they have loaded. The request that crosses its capacity is the one that writes
End-of-Media, where the last region that was handed out ends.
-/

namespace VanillaRtb.Auditor

open Lib Lib.Transition

/-- What the callers do to the segments they hold. -/
inductive LogEvent where
  | requested (segment size : Nat)
  | handedOut (segment : Nat) (region : Region)
  | crossed (segment pos : Nat)
  | marked (segment pos : Nat)
  deriving DecidableEq

/-- What a caller has done in a step. -/
def eventsOf : Caller → Caller → List LogEvent
  | .holding size _ segment, .returned _ pos =>
      [.requested segment size, .handedOut segment ⟨pos, size⟩]
  | .holding size _ segment, .crossed _ _ _ pos _ =>
      [.requested segment size, .crossed segment pos]
  | .holding size _ segment, _ => [.requested segment size]
  | .requested _ _ segment pos, _ => [.marked segment pos]
  | _, _ => []

def LogSystem.events (s : LogSystem) : LogAction → LogSystem → List LogEvent
  | .advance c, t => eventsOf (s.callers c) (t.callers c)
  | _, _ => []

/-- The sizes of the requests that a segment was asked for. -/
def sizesOf (segment : Nat) (history : List LogEvent) : List Nat :=
  history.filterMap fun event =>
    match event with
    | .requested k size => if k = segment then some size else none
    | _ => none

def bytesRequested (segment : Nat) (history : List LogEvent) : Nat := (sizesOf segment history).sum

/-- The regions of a segment that callers were given. -/
def regionsOf (segment : Nat) (history : List LogEvent) : List Region :=
  history.filterMap fun event =>
    match event with
    | .handedOut k region => if k = segment then some region else none
    | _ => none

def crossingsOf (segment : Nat) (history : List LogEvent) : List Nat :=
  history.filterMap fun event =>
    match event with
    | .crossed k pos => if k = segment then some pos else none
    | _ => none

/-- Where End-of-Media was written in a segment. -/
def marksOf (segment : Nat) (history : List LogEvent) : List Nat :=
  history.filterMap fun event =>
    match event with
    | .marked k pos => if k = segment then some pos else none
    | _ => none

/-- The segment and the place of a request that has crossed a capacity and has not written
    End-of-Media yet. -/
def Caller.crossing : Caller → Option (Nat × Nat)
  | .crossed _ _ segment pos _ | .dropped _ _ segment pos | .requested _ _ segment pos =>
      some (segment, pos)
  | _ => none

section Projections

variable (k : Nat) (h e : List LogEvent)

@[simp] theorem sizesOf_append : sizesOf k (h ++ e) = sizesOf k h ++ sizesOf k e :=
  List.filterMap_append

@[simp] theorem bytesRequested_append :
    bytesRequested k (h ++ e) = bytesRequested k h + bytesRequested k e := by
  rw [bytesRequested, sizesOf_append, List.sum_append]
  rfl

@[simp] theorem regionsOf_append : regionsOf k (h ++ e) = regionsOf k h ++ regionsOf k e :=
  List.filterMap_append

@[simp] theorem crossingsOf_append :
    crossingsOf k (h ++ e) = crossingsOf k h ++ crossingsOf k e :=
  List.filterMap_append

@[simp] theorem marksOf_append : marksOf k (h ++ e) = marksOf k h ++ marksOf k e :=
  List.filterMap_append

/-- What becomes of a request is known at once. -/
theorem bytesRequested_holding (size idx : Nat) (caller' : Caller) :
    bytesRequested k (eventsOf (.holding size idx k) caller') = size := by
  cases caller' <;> simp [eventsOf, bytesRequested, sizesOf]

end Projections

/-- How far the end of a segment has been marked: `waiting c pos` are the callers that still
    have to write End-of-Media. -/
inductive Ended (waiting : Nat → Nat → Prop) : Option Nat → List Nat → Prop where
  | opened (nobody : ∀ c pos, ¬ waiting c pos) : Ended waiting none []
  | pending (here : waiting c p) (only : ∀ d pos, waiting d pos → d = c ∧ pos = p) :
      Ended waiting (some p) []
  | marked (nobody : ∀ c pos, ¬ waiting c pos) : Ended waiting (some p) [p]

theorem Ended.congr {waiting waiting' : Nat → Nat → Prop} (ended : Ended waiting mark marks)
    (same : ∀ c pos, waiting' c pos ↔ waiting c pos) : Ended waiting' mark marks := by
  have : waiting' = waiting := by
    funext c pos
    exact propext (same c pos)
  exact this ▸ ended

theorem Ended.once (ended : Ended waiting mark marks) (noted : marks ≠ []) :
    marks = mark.toList := by
  cases ended with
  | opened nobody => exact absurd rfl noted
  | pending here only => exact absurd rfl noted
  | marked nobody => rfl

theorem Ended.settled (ended : Ended waiting mark marks) (nobody : ∀ c pos, ¬ waiting c pos) :
    marks = mark.toList := by
  cases ended with
  | opened nobody => rfl
  | pending here only => exact absurd here (nobody _ _)
  | marked nobody => rfl

/-- Caller `c` still has to write End-of-Media at that place of segment `k`. -/
def Waiting (k : Nat) (callers : Nat → Caller) (c pos : Nat) : Prop :=
  (callers c).crossing = some (k, pos)

section Callers

variable {callers : Nat → Caller} {caller caller' : Caller} {c k : Nat}

theorem waiting_update (d pos : Nat) :
    Waiting k (Function.update callers c caller') d pos ↔
      if d = c then caller'.crossing = some (k, pos) else Waiting k callers d pos := by
  by_cases same : d = c
  · simp only [Waiting, same, Function.update_self, if_pos]
  · simp only [Waiting, Function.update_of_ne same, if_neg same]

/-- A caller that neither begins nor ends to wait. -/
theorem waiting_same (held : callers c = caller)
    (same : ∀ pos, caller'.crossing = some (k, pos) ↔ caller.crossing = some (k, pos))
    (d pos : Nat) :
    Waiting k (Function.update callers c caller') d pos ↔ Waiting k callers d pos := by
  rw [waiting_update]
  split
  next here => rw [here, Waiting, held, same]
  next => exact Iff.rfl

end Callers

namespace LogSystem

variable {filesize k : Nat} {s t : LogSystem} {a : LogAction} {h e : List LogEvent}

/-- A segment and what the callers have done to it agree. -/
structure Tracked (filesize k : Nat) (s : LogSystem) (h : List LogEvent) : Prop where
  counted : s.buffer.offset k = bytesRequested k h
  filled : ∃ mark, Filling (lastPos filesize) (regionsOf k h) mark (s.buffer.offset k) ∧
    crossingsOf k h = mark.toList ∧ Ended (Waiting k s.callers) mark (marksOf k h)
  written : ∀ i, s.buffer.memory k i = if i ∈ marksOf k h then 0x19 else 0

theorem tracked_start (filesize k : Nat) : Tracked filesize k start [] := by
  refine ⟨rfl, ⟨none, .start, rfl, .opened ?_⟩, fun _ => rfl⟩
  intro c pos waiting
  cases waiting

/-- A step that a segment does not take part in. -/
theorem Tracked.frame (tracked : Tracked filesize k s h)
    (offset : t.buffer.offset k = s.buffer.offset k)
    (memory : t.buffer.memory k = s.buffer.memory k)
    (waiting : ∀ c pos, Waiting k t.callers c pos ↔ Waiting k s.callers c pos)
    (bytes : bytesRequested k e = 0) (regions : regionsOf k e = [])
    (crossings : crossingsOf k e = []) (marks : marksOf k e = []) :
    Tracked filesize k t (h ++ e) := by
  obtain ⟨mark, filling, crossed, ended⟩ := tracked.filled
  refine ⟨?_, ⟨mark, ?_, ?_, ?_⟩, ?_⟩
  · rw [offset, tracked.counted, bytesRequested_append, bytes, Nat.add_zero]
  · rw [regionsOf_append, regions, List.append_nil, offset]
    exact filling
  · rw [crossingsOf_append, crossings, List.append_nil]
    exact crossed
  · rw [marksOf_append, marks, List.append_nil]
    exact ended.congr waiting
  · rw [marksOf_append, marks, List.append_nil, memory]
    exact tracked.written

section Advance

variable {b' : SegmentedLogBuffer} {caller caller' : Caller} {c size idx pos : Nat}

theorem Tracked.aside (tracked : Tracked filesize k s h) (held : s.callers c = caller)
    (offset : b'.offset k = s.buffer.offset k) (memory : b'.memory k = s.buffer.memory k)
    (same : ∀ pos, caller'.crossing = some (k, pos) ↔ caller.crossing = some (k, pos))
    (bytes : bytesRequested k (eventsOf caller caller') = 0)
    (regions : regionsOf k (eventsOf caller caller') = [])
    (crossings : crossingsOf k (eventsOf caller caller') = [])
    (marks : marksOf k (eventsOf caller caller') = []) :
    Tracked filesize k ⟨b', Function.update s.callers c caller'⟩
      (h ++ eventsOf caller caller') :=
  tracked.frame offset memory (waiting_same held same) bytes regions crossings marks

/-- Until there is a mark, nobody has to write one. -/
theorem Tracked.opened (tracked : Tracked filesize k s h)
    (within : s.buffer.offset k < lastPos filesize) :
    Filling (lastPos filesize) (regionsOf k h) none (s.buffer.offset k) ∧
      crossingsOf k h = [] ∧ marksOf k h = [] ∧ ∀ c pos, ¬ Waiting k s.callers c pos := by
  obtain ⟨mark, filling, crossed, ended⟩ := tracked.filled
  cases mark with
  | none =>
      generalize noted : marksOf k h = marks at ended
      cases ended with
      | opened nobody => exact ⟨filling, crossed, rfl, nobody⟩
  | some m =>
      have := filling.marked_next.2.2
      omega

/-- The bytes of a request are counted, whatever becomes of it. -/
theorem Tracked.counted_fetchAdd (tracked : Tracked filesize k s h)
    (small : s.buffer.offset k + size < 2 ^ 64) (asked : bytesRequested k e = size) :
    (s.buffer.fetchAdd k size).offset k = s.buffer.offset k + size ∧
      (s.buffer.fetchAdd k size).offset k = bytesRequested k (h ++ e) := by
  have counter : (s.buffer.fetchAdd k size).offset k = s.buffer.offset k + size := by
    simp only [SegmentedLogBuffer.fetchAdd, Function.update_self, wrap_eq small]
  refine ⟨counter, ?_⟩
  rw [counter, bytesRequested_append, asked, tracked.counted]

/-- A request that the segment is asked for, and what becomes of it. -/
theorem Tracked.fetchAdd (tracked : Tracked filesize k s h)
    (held : s.callers c = .holding size idx k)
    (moved : Advance filesize s.buffer (.holding size idx k) b' caller')
    (small : bytesRequested k (h ++ eventsOf (.holding size idx k) caller') < 2 ^ 64) :
    Tracked filesize k ⟨b', Function.update s.callers c caller'⟩
      (h ++ eventsOf (.holding size idx k) caller') := by
  have asked := bytesRequested_holding k size idx caller'
  rw [bytesRequested_append, asked, ← tracked.counted] at small
  obtain ⟨counter, counted⟩ := tracked.counted_fetchAdd small asked
  cases moved with
  | full missed behind =>
      obtain ⟨mark, filling, crossed, ended⟩ := tracked.filled
      have marks : marksOf k (h ++ [.requested k size]) = marksOf k h := by
        rw [marksOf_append]
        exact List.append_nil _
      refine ⟨counted, ⟨mark, ?_, ?_, ?_⟩, ?_⟩
      · rw [regionsOf_append, counter]
        exact (List.append_nil (regionsOf k h)).symm ▸ filling.full behind
      · rw [crossingsOf_append, crossed]
        exact List.append_nil _
      · exact marks.symm ▸ ended.congr (waiting_same held fun _ => Iff.rfl)
      · exact marks.symm ▸ tracked.written
  | fit missed within =>
      obtain ⟨filling, crossed, unmarked, nobody⟩ := tracked.opened within
      have fits : s.buffer.offset k + size < lastPos filesize := by
        by_contra reaches
        refine missed ⟨within, ?_⟩
        rw [wrap_eq small]
        exact Nat.not_lt.mp reaches
      let region : Region := ⟨s.buffer.offset k, size⟩
      have given : regionsOf k [.requested k size, .handedOut k region] = [region] := by
        simp [regionsOf]
      have marks : marksOf k (h ++ [.requested k size, .handedOut k region]) = [] := by
        rw [marksOf_append, unmarked]
        rfl
      refine ⟨counted, ⟨none, ?_, ?_, ?_⟩, ?_⟩
      · rw [eventsOf, regionsOf_append, given, counter]
        exact filling.fit fits
      · rw [crossingsOf_append, crossed]
        rfl
      · exact marks.symm ▸ (Ended.opened nobody).congr (waiting_same held fun _ => Iff.rfl)
      · exact marks.symm ▸ unmarked ▸ tracked.written
  | cross crosses =>
      obtain ⟨within, reaches⟩ := crosses
      rw [wrap_eq small] at reaches
      obtain ⟨filling, crossed, unmarked, nobody⟩ := tracked.opened within
      have crossing :
          crossingsOf k [.requested k size, .crossed k (s.buffer.offset k)] =
            [s.buffer.offset k] := by
        simp [crossingsOf]
      have marks : marksOf k (h ++ [.requested k size, .crossed k (s.buffer.offset k)]) = [] := by
        rw [marksOf_append, unmarked]
        rfl
      refine ⟨counted, ⟨some (s.buffer.offset k), ?_, ?_, ?_⟩, ?_⟩
      · rw [regionsOf_append, counter]
        exact (List.append_nil (regionsOf k h)).symm ▸ filling.cross within reaches
      · rw [eventsOf, crossingsOf_append, crossed, crossing]
        rfl
      · refine marks.symm ▸ .pending (c := c) ?_ ?_
        · rw [waiting_update, if_pos rfl, Caller.crossing]
        · intro d pos waiting
          rw [waiting_update] at waiting
          split at waiting
          next here =>
            cases waiting
            exact ⟨here, rfl⟩
          next => exact absurd waiting (nobody d pos)
      · exact marks.symm ▸ unmarked ▸ tracked.written

/-- End-of-Media is written by the one caller that had to. -/
theorem Tracked.publish (tracked : Tracked filesize k s h)
    (held : s.callers c = .requested size idx k pos) :
    Tracked filesize k ⟨s.buffer.publish idx k pos, Function.update s.callers c (.looping size)⟩
      (h ++ [.marked k pos]) := by
  obtain ⟨mark, filling, crossed, ended⟩ := tracked.filled
  have waiting : Waiting k s.callers c pos := by
    rw [Waiting, held, Caller.crossing]
  have writing : marksOf k [.marked k pos] = [pos] := by
    simp [marksOf]
  have written := tracked.written
  generalize noted : marksOf k h = marks at ended written
  cases ended with
  | opened nobody => exact absurd waiting (nobody c pos)
  | marked nobody => exact absurd waiting (nobody c pos)
  | @pending d p here only =>
      obtain ⟨rfl, rfl⟩ := only c pos waiting
      have marks : marksOf k (h ++ [.marked k pos]) = [pos] := by
        rw [marksOf_append, noted, writing]
        rfl
      refine ⟨?_, ⟨some pos, ?_, ?_, ?_⟩, ?_⟩
      · rw [bytesRequested_append]
        exact tracked.counted
      · rw [regionsOf_append]
        exact (List.append_nil (regionsOf k h)).symm ▸ filling
      · rw [crossingsOf_append, crossed]
        rfl
      · refine marks.symm ▸ .marked ?_
        intro d pos' waiting'
        rw [waiting_update] at waiting'
        split at waiting'
        next => cases waiting'
        next other => exact other (only d pos' waiting').1
      · intro i
        rw [marks]
        simp only [SegmentedLogBuffer.publish, Function.update_self, List.mem_singleton]
        by_cases there : i = pos
        · rw [there, Function.update_self, if_pos rfl]
        · rw [Function.update_of_ne there, if_neg there]
          exact written i

/-- What is done to another segment. -/
theorem Tracked.advance (tracked : Tracked filesize k s h) (held : s.callers c = caller)
    (moved : Advance filesize s.buffer caller b' caller')
    (small : bytesRequested k (h ++ eventsOf caller caller') < 2 ^ 64) :
    Tracked filesize k ⟨b', Function.update s.callers c caller'⟩
      (h ++ eventsOf caller caller') := by
  have elsewhere {segment size : Nat} (other : segment ≠ k) :
      (s.buffer.fetchAdd segment size).offset k = s.buffer.offset k := by
    simp only [SegmentedLogBuffer.fetchAdd, Function.update_of_ne (Ne.symm other)]
  have apart {segment : Nat} (other : segment ≠ k) (pos pos' : Nat) :
      (some (segment, pos) = some (k, pos')) ↔ (none : Option (Nat × Nat)) = some (k, pos') := by
    simp [other]
  cases moved with
  | load => exact tracked.aside held rfl rfl (fun _ => Iff.rfl) rfl rfl rfl rfl
  | miss absent => exact tracked.aside held rfl rfl (fun _ => Iff.rfl) rfl rfl rfl rfl
  | copy there => exact tracked.aside held rfl rfl (fun _ => Iff.rfl) rfl rfl rfl rfl
  | drop => exact tracked.aside held rfl rfl (fun _ => Iff.rfl) rfl rfl rfl rfl
  | request => exact tracked.aside held rfl rfl (fun _ => Iff.rfl) rfl rfl rfl rfl
  | @cross size idx segment crosses =>
      by_cases own : segment = k
      · subst own
        exact tracked.fetchAdd held (.cross crosses) small
      · refine tracked.aside held (elsewhere own) rfl (apart own _) ?_ ?_ ?_ ?_
        all_goals simp [eventsOf, bytesRequested, sizesOf, regionsOf, crossingsOf, marksOf, own]
  | @full size idx segment missed behind =>
      by_cases own : segment = k
      · subst own
        exact tracked.fetchAdd held (.full missed behind) small
      · refine tracked.aside held (elsewhere own) rfl (fun _ => Iff.rfl) ?_ ?_ ?_ ?_
        all_goals simp [eventsOf, bytesRequested, sizesOf, regionsOf, crossingsOf, marksOf, own]
  | @fit size idx segment missed within =>
      by_cases own : segment = k
      · subst own
        exact tracked.fetchAdd held (.fit missed within) small
      · refine tracked.aside held (elsewhere own) rfl (fun _ => Iff.rfl) ?_ ?_ ?_ ?_
        all_goals simp [eventsOf, bytesRequested, sizesOf, regionsOf, crossingsOf, marksOf, own]
  | @publish size idx pos segment =>
      by_cases own : segment = k
      · subst own
        exact tracked.publish held
      · refine tracked.aside held rfl ?_ (fun _ => (apart own _ _).symm) ?_ ?_ ?_ ?_
        · simp only [SegmentedLogBuffer.publish, Function.update_of_ne (Ne.symm own)]
        all_goals simp [eventsOf, bytesRequested, sizesOf, regionsOf, crossingsOf, marksOf, own]

end Advance

theorem not_crossing_of_isOutside {caller : Caller} (outside : caller.isOutside = true) :
    caller.crossing = none := by
  cases caller <;> first | rfl | cases outside

theorem not_crossing_reserve (filesize size : Nat) : (reserve filesize size).crossing = none := by
  unfold reserve
  split <;> rfl

/-- A step keeps what is known of each segment that has been asked for less than 2^64 bytes. -/
theorem Tracked.step (tracked : Tracked filesize k s h) (taken : s.step filesize a = some t)
    (small : bytesRequested k (h ++ s.events a t) < 2 ^ 64) :
    Tracked filesize k t (h ++ s.events a t) := by
  cases step_cases taken with
  | @call c size outside =>
      refine tracked.frame rfl rfl (waiting_same rfl ?_) rfl rfl rfl rfl
      intro pos
      rw [not_crossing_reserve, not_crossing_of_isOutside outside]
  | @advance c b' caller' moved =>
      simp only [events, Function.update_self] at small ⊢
      exact tracked.advance rfl moved small
  | prepare idle asked => exact tracked.frame rfl rfl (fun _ _ => Iff.rfl) rfl rfl rfl rfl
  | @install segment making =>
      refine tracked.frame ?_ ?_ (fun _ _ => Iff.rfl) rfl rfl rfl rfl
      · change (s.buffer.swapIn segment).offset k = _
        unfold SegmentedLogBuffer.swapIn
        split <;> rfl
      · change (s.buffer.swapIn segment).memory k = _
        unfold SegmentedLogBuffer.swapIn
        split <;> rfl

/-- What happens in a run from the start. -/
def history (filesize : Nat) (as : List LogAction) : List LogEvent :=
  observe (step filesize) events start as

theorem tracked_run (run : exec (step filesize) start as = some t)
    (small : bytesRequested k (history filesize as) < 2 ^ 64) :
    Tracked filesize k t (history filesize as) := by
  refine observe_invariant (h := [])
    (fun s h => bytesRequested k h < 2 ^ 64 → Tracked filesize k s h) ?_
    (fun _ => tracked_start filesize k) run small
  intro s h a t before taken small
  refine (before ?_).step taken small
  rw [bytesRequested_append] at small
  omega

end LogSystem

/-- A request has crossed the capacity of the segment. -/
def Filled (segment : Nat) (history : List LogEvent) : Prop := crossingsOf segment history ≠ []

/-- What callers of `reserve` rely on in a segment. -/
structure Apportioned (filesize segment : Nat) (t : LogSystem) (history : List LogEvent) :
    Prop where
  disjoint : (regionsOf segment history).Pairwise Region.Disjoint
  before_last : ∀ r ∈ regionsOf segment history, r.pos + r.size < lastPos filesize
  apart : ∀ m ∈ marksOf segment history, ∀ r ∈ regionsOf segment history, ¬ r.Contains m
  filled_iff : Filled segment history ↔
    0 < lastPos filesize ∧ lastPos filesize ≤ bytesRequested segment history
  once : marksOf segment history ≠ [] →
    Filled segment history ∧ marksOf segment history = [Region.next (regionsOf segment history)]
  marked : Filled segment history → (∀ c pos, ¬ Waiting segment t.callers c pos) →
    marksOf segment history = [Region.next (regionsOf segment history)]
  written : ∀ i, t.buffer.memory segment i = if i ∈ marksOf segment history then 0x19 else 0

theorem LogSystem.Tracked.apportioned {filesize k : Nat} {t : LogSystem} {h : List LogEvent}
    (tracked : t.Tracked filesize k h) : Apportioned filesize k t h := by
  obtain ⟨mark, filling, crossed, ended⟩ := tracked.filled
  have filled : Filled k h ↔ mark.isSome := by
    rw [Filled, crossed]
    cases mark with
    | none => exact iff_of_false (fun some => some rfl) nofun
    | some m => exact iff_of_true (List.cons_ne_nil m []) rfl
  have behind (full : Filled k h) : mark.toList = [Region.next (regionsOf k h)] := by
    obtain ⟨m, rfl⟩ := Option.isSome_iff_exists.mp (filled.mp full)
    rw [← filling.marked_next.1, Option.toList_some]
  refine ⟨filling.disjoint, fun r given => (filling.ordered.2 r given).1, ?_, ?_, ?_, ?_,
    tracked.written⟩
  · intro m noted r given
    rw [ended.once (List.ne_nil_of_mem noted), Option.mem_toList] at noted
    obtain rfl := noted
    exact filling.mark_apart given
  · rw [filled, filling.marked_iff, tracked.counted]
  · intro noted
    have full : Filled k h := by
      rw [Filled, crossed, ← ended.once noted]
      exact noted
    exact ⟨full, (ended.once noted).trans (behind full)⟩
  · intro full settled
    exact (ended.settled settled).trans (behind full)

/-- Whatever the callers of `reserve` and the service thread do, in whatever order: in a segment
    that is asked for less than 2^64 bytes the regions that were handed out are disjoint and
    before its last byte, and End-of-Media is written once if the segment is filled, right behind
    the last of them. -/
theorem regions_apportioned {filesize segment : Nat} {t : LogSystem}
    (run : exec (LogSystem.step filesize) .start as = some t)
    (small : bytesRequested segment (LogSystem.history filesize as) < 2 ^ 64) :
    Apportioned filesize segment t (LogSystem.history filesize as) :=
  (LogSystem.tracked_run run small).apportioned

/-- Caller 0 is given 2000 bytes; the 2095 of caller 1 end at the last byte. -/
def lastByte : List LogAction :=
  [.call 0 2000, .advance 0, .advance 0, .call 1 2095, .advance 1, .advance 1, .advance 0,
    .advance 1, .advance 1, .advance 1, .advance 1]

theorem regions_apportioned_lastByte :
    (∃ t, exec (LogSystem.step 4096) .start lastByte = some t ∧
        Apportioned 4096 0 t (LogSystem.history 4096 lastByte)) ∧
      regionsOf 0 (LogSystem.history 4096 lastByte) = [⟨0, 2000⟩] ∧
      marksOf 0 (LogSystem.history 4096 lastByte) = [2000] := by
  have runs : (exec (LogSystem.step 4096) .start lastByte).isSome = true := by
    decide +kernel
  obtain ⟨t, run⟩ := Option.isSome_iff_exists.mp runs
  refine ⟨⟨t, run, regions_apportioned run ?_⟩, ?_, ?_⟩
  · decide +kernel
  · decide +kernel
  · decide +kernel

end VanillaRtb.Auditor
