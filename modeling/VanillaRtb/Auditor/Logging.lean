import VanillaRtb.Auditor.Regions
import VanillaRtb.Auditor.Writing

/-! # A log of records

Each caller asks for as much space as its record takes and stores the record there byte by
byte, while others do the same. Whatever the order of all these steps, a segment is a sequence
of whole records once its writers are done, and each is read back where it begins.
-/

namespace VanillaRtb.Auditor

open Lib Lib.Transition

/-- The arguments of a record. -/
structure Entry where
  args : List Writing.Passed
  some_args : args ≠ []
  fits : Writing.totalSize args < 2 ^ 32

namespace Entry

def values (e : Entry) : List Arg := e.args.map Writing.Passed.arg

def size (e : Entry) : Nat := (Writing.fullRecordSize e.args).toNat

def bytes (e : Entry) : StdString := encodeRecord e.values

/-- What `encode_record` stores, in order. Its assertions hold. -/
def stores (e : Entry) (pos : Nat) : List (Nat × UInt8) :=
  ((Writing.encodeRecord pos e.args).map Prod.fst).getD []

theorem bytes_length (e : Entry) : e.bytes.length = e.size := by
  rw [size, Writing.fullRecordSize_toNat e.fits]
  exact encodeRecord_length ⟨e.values, by simpa [values] using e.some_args, e.fits⟩

theorem stores_fill (e : Entry) (pos : Nat) : Fills pos e.bytes (e.stores pos) := by
  obtain ⟨writes, encoded, fills⟩ := Writing.encodeRecord_fills pos e.fits
  rw [stores, encoded]
  exact fills

end Entry

/-- What a caller is about: nothing, a record that it reserves space for, or the stores of one
    that are left. -/
inductive Pen where
  | resting
  | reserving (e : Entry)
  | writing (segment : Nat) (stores : List (Nat × UInt8))

structure LogWriters where
  log : LogSystem
  pens : Nat → Pen
  file : Nat → Nat → UInt8

inductive WriterAction where
  | record (c : Nat) (e : Entry)
  | advance (c : Nat)
  | prepare
  | install
  | store (c : Nat)

/-- The pen of a caller after a step inside `reserve`. -/
def Pen.after : Pen → Caller → Pen
  | .reserving e, .returned segment pos => .writing segment (e.stores pos)
  | pen, _ => pen

/-- End-of-Media is written by the step that publishes the next segment. -/
def endOfMedia (file : Nat → Nat → UInt8) : Caller → Nat → Nat → UInt8
  | .requested _ _ segment pos =>
      Function.update file segment (Function.update (file segment) pos 0x19)
  | _ => file

namespace LogWriters

def start : LogWriters where
  log := .start
  pens := fun _ => .resting
  file := fun _ _ => 0

def step (filesize : Nat) (s : LogWriters) : WriterAction → Option LogWriters
  | .record c e =>
      match s.pens c with
      | .resting => (s.log.step filesize (.call c e.size)).map fun log =>
          { s with
            log := log
            pens := Function.update s.pens c
              (if (log.callers c).isOutside then .resting else .reserving e) }
      | _ => none
  | .advance c => (s.log.step filesize (.advance c)).map fun log =>
      { log := log
        pens := Function.update s.pens c ((s.pens c).after (log.callers c))
        file := endOfMedia s.file (s.log.callers c) }
  | .prepare => (s.log.step filesize .prepare).map fun log => { s with log := log }
  | .install => (s.log.step filesize .install).map fun log => { s with log := log }
  | .store c =>
      match s.pens c with
      | .writing segment ((addr, byte) :: stores) =>
          some { s with
            pens := Function.update s.pens c
              (if stores = [] then .resting else .writing segment stores)
            file := Function.update s.file segment
              (Function.update (s.file segment) addr byte) }
      | _ => none

end LogWriters

inductive WriterEvent where
  | logged (e : LogEvent)
  | begun (segment : Nat) (e : Entry)

/-- The record that a caller is given space for. -/
def begunBy : Pen → Caller → List WriterEvent
  | .reserving e, .returned segment _ => [.begun segment e]
  | _, _ => []

def LogWriters.events (s : LogWriters) : WriterAction → LogWriters → List WriterEvent
  | .advance c, t =>
      (s.log.events (.advance c) t.log).map .logged ++ begunBy (s.pens c) (t.log.callers c)
  | _, _ => []

def logEvents (h : List WriterEvent) : List LogEvent :=
  h.filterMap fun event =>
    match event with
    | .logged e => some e
    | .begun _ _ => none

/-- The records of a segment, in the order in which space was given to them. -/
def journal (segment : Nat) (h : List WriterEvent) : List Entry :=
  h.filterMap fun event =>
    match event with
    | .logged _ => none
    | .begun k e => if k = segment then some e else none

def journalBytes (segment : Nat) (h : List WriterEvent) : StdString :=
  (journal segment h).flatMap Entry.bytes

section Projections

variable (k : Nat) (h e : List WriterEvent) (es : List LogEvent)

@[simp] theorem logEvents_append : logEvents (h ++ e) = logEvents h ++ logEvents e :=
  List.filterMap_append

@[simp] theorem journal_append : journal k (h ++ e) = journal k h ++ journal k e :=
  List.filterMap_append

@[simp] theorem journalBytes_append :
    journalBytes k (h ++ e) = journalBytes k h ++ journalBytes k e := by
  simp [journalBytes]

@[simp] theorem logEvents_logged : logEvents (es.map .logged) = es := by
  simp [logEvents, List.filterMap_map]

@[simp] theorem journal_logged : journal k (es.map .logged) = [] := by
  simp [journal, List.filterMap_map]

@[simp] theorem logEvents_begunBy (pen : Pen) (caller : Caller) :
    logEvents (begunBy pen caller) = [] := by
  cases pen <;> cases caller <;> rfl

end Projections

/-- The size that a caller inside `reserve` asks for. -/
def Caller.size : Caller → Option Nat
  | .looping size | .loaded size _ | .holding size _ _ | .crossed size _ _ _ _
  | .dropped size _ _ _ | .requested size _ _ _ => some size
  | _ => none

/-- A caller inside `reserve` asks for the size of the record it is about. -/
def Pen.Agrees : Pen → Caller → Prop
  | .reserving e, caller => caller.size = some e.size
  | _, caller => caller.size = none

theorem Pen.Agrees.after {pen : Pen} {caller caller' : Caller} (agrees : pen.Agrees caller)
    (moved : Advance filesize b caller b' caller') : (pen.after caller').Agrees caller' := by
  cases pen with
  | resting => cases moved <;> cases agrees
  | writing segment stores => cases moved <;> cases agrees
  | reserving e =>
      cases moved with
      | fit missed within => rfl
      | _ => exact agrees

/-- A step that does not return is without a record. -/
theorem Pen.after_inside (pen : Pen) {caller : Caller}
    (inside : ∀ segment pos, caller ≠ .returned segment pos) :
    pen.after caller = pen ∧ begunBy pen caller = [] := by
  cases pen with
  | resting => exact ⟨rfl, rfl⟩
  | writing segment stores => exact ⟨rfl, rfl⟩
  | reserving e =>
      cases caller with
      | returned segment pos => exact absurd rfl (inside segment pos)
      | _ => exact ⟨rfl, rfl⟩

/-- A byte of a segment when its writers are done: of a record, of End-of-Media, or zero. -/
def finalByte (segment : Nat) (h : List WriterEvent) (i : Nat) : UInt8 :=
  (journalBytes segment h)[i]?.getD (if i ∈ marksOf segment (logEvents h) then 0x19 else 0)

namespace LogWriters

variable {filesize k : Nat} {s t : LogWriters} {a : WriterAction} {h : List WriterEvent}

/-- What a step can do. -/
inductive Step (filesize : Nat) (s : LogWriters) : WriterAction → LogWriters → Prop where
  | record {log : LogSystem} (rests : s.pens c = .resting)
      (called : s.log.step filesize (.call c e.size) = some log) :
      Step filesize s (.record c e) ⟨log, Function.update s.pens c
        (if (log.callers c).isOutside then .resting else .reserving e), s.file⟩
  | advance {log : LogSystem} (advanced : s.log.step filesize (.advance c) = some log) :
      Step filesize s (.advance c)
        ⟨log, Function.update s.pens c ((s.pens c).after (log.callers c)),
          endOfMedia s.file (s.log.callers c)⟩
  | prepare {log : LogSystem} (prepared : s.log.step filesize .prepare = some log) :
      Step filesize s .prepare { s with log := log }
  | install {log : LogSystem} (installed : s.log.step filesize .install = some log) :
      Step filesize s .install { s with log := log }
  | store {segment : Nat} {stores : List (Nat × UInt8)}
      (writes : s.pens c = .writing segment ((addr, byte) :: stores)) :
      Step filesize s (.store c) { s with
        pens := Function.update s.pens c (if stores = [] then .resting else .writing segment stores)
        file := Function.update s.file segment (Function.update (s.file segment) addr byte) }

theorem step_cases (taken : s.step filesize a = some t) : Step filesize s a t := by
  cases a with
  | record c e =>
      simp only [step] at taken
      cases pen : s.pens c with
      | resting =>
          simp only [pen, Option.map_eq_some_iff] at taken
          obtain ⟨log, called, rfl⟩ := taken
          exact .record pen called
      | reserving e => simp [pen] at taken
      | writing segment stores => simp [pen] at taken
  | advance c =>
      obtain ⟨log, advanced, rfl⟩ := Option.map_eq_some_iff.mp taken
      exact .advance advanced
  | prepare =>
      obtain ⟨log, prepared, rfl⟩ := Option.map_eq_some_iff.mp taken
      exact .prepare prepared
  | install =>
      obtain ⟨log, installed, rfl⟩ := Option.map_eq_some_iff.mp taken
      exact .install installed
  | store c =>
      simp only [step] at taken
      cases pen : s.pens c with
      | resting => simp [pen] at taken
      | reserving e => simp [pen] at taken
      | writing segment stores =>
          cases stores with
          | nil => simp [pen] at taken
          | cons w stores =>
              simp only [pen, Option.some.injEq] at taken
              exact taken ▸ .store pen

def Agrees (s : LogWriters) : Prop := ∀ c, (s.pens c).Agrees (s.log.callers c)

theorem agrees_update {pen : Pen} {caller : Caller} (agrees : s.Agrees) (here : pen.Agrees caller)
    (d : Nat) :
    (Function.update s.pens c pen d).Agrees (Function.update s.log.callers c caller d) := by
  by_cases same : d = c
  · subst same
    simpa using here
  · simpa [same] using agrees d

theorem Agrees.step (agrees : s.Agrees) (taken : s.step filesize a = some t) : t.Agrees := by
  cases step_cases taken with
  | @record c e log rests called =>
      cases LogSystem.step_cases called with
      | call outside =>
          refine agrees_update agrees ?_
          have either : reserve filesize e.size = .threw "too much memory requested" ∨
              reserve filesize e.size = .looping e.size := by
            unfold reserve
            split <;> simp
          cases either with
          | inl threw => simp [threw, Caller.isOutside, Pen.Agrees, Caller.size]
          | inr loops => simp [loops, Caller.isOutside, Pen.Agrees, Caller.size]
  | @advance c log advanced =>
      cases LogSystem.step_cases advanced with
      | advance moved =>
          refine agrees_update agrees ?_
          simpa using (agrees _).after moved
  | prepare prepared =>
      cases LogSystem.step_cases prepared with
      | prepare idle asked => exact agrees
  | install installed =>
      cases LogSystem.step_cases installed with
      | install making => exact agrees
  | @store c addr byte segment stores writes =>
      intro d
      by_cases same : d = c
      · subst same
        have before : (s.log.callers d).size = none := by
          have here := agrees d
          rw [writes] at here
          exact here
        have after : (if stores = [] then Pen.resting else .writing segment stores).Agrees
            (s.log.callers d) := by
          split
          · exact before
          · exact before
        simpa using after
      · simpa [same] using agrees d

structure Kept (filesize k : Nat) (s : LogWriters) (h : List WriterEvent) : Prop where
  tracked : LogSystem.Tracked filesize k s.log (logEvents h)
  placed : Region.next (regionsOf k (logEvents h)) = (journalBytes k h).length
  pending : ∀ c stores, s.pens c = .writing k stores →
    ∀ w ∈ stores, (journalBytes k h)[w.1]? = some w.2
  stored : ∀ i, s.file k i = finalByte k h i ∨
    ∃ c stores, s.pens c = .writing k stores ∧ i ∈ stores.map Prod.fst

theorem writing_update {pen : Pen} (before : ∀ stores, s.pens c ≠ .writing k stores)
    (after : ∀ stores, pen ≠ .writing k stores) (d : Nat) (stores : List (Nat × UInt8)) :
    Function.update s.pens c pen d = .writing k stores ↔ s.pens d = .writing k stores := by
  by_cases same : d = c
  · subst same
    simp [after, before]
  · simp [same]

/-- A step that stores nothing in the segment and begins no record in it. -/
theorem Kept.frame {e : List WriterEvent} (kept : Kept filesize k s h)
    (tracked : LogSystem.Tracked filesize k t.log (logEvents (h ++ e)))
    (regions : regionsOf k (logEvents e) = []) (marks : marksOf k (logEvents e) = [])
    (begun : journal k e = []) (file : t.file k = s.file k)
    (pens : ∀ c stores, t.pens c = .writing k stores ↔ s.pens c = .writing k stores) :
    Kept filesize k t (h ++ e) := by
  have bytes : journalBytes k (h ++ e) = journalBytes k h := by
    simp [journalBytes, begun]
  have final : finalByte k (h ++ e) = finalByte k h := by
    funext i
    simp [finalByte, bytes, marks]
  refine ⟨tracked, ?_, ?_, ?_⟩
  · simpa [regions, bytes] using kept.placed
  · simpa only [pens, bytes] using kept.pending
  · simpa only [pens, final, file] using kept.stored

theorem Kept.store {segment : Nat} {stores : List (Nat × UInt8)} (kept : Kept filesize k s h)
    (writes : s.pens c = .writing segment ((addr, byte) :: stores)) :
    Kept filesize k { s with
      pens := Function.update s.pens c (if stores = [] then .resting else .writing segment stores)
      file := Function.update s.file segment (Function.update (s.file segment) addr byte) } h := by
  have left (d : Nat) (others : List (Nat × UInt8))
      (here : Function.update s.pens c
        (if stores = [] then .resting else .writing segment stores) d = .writing k others) :
      ∃ before, s.pens d = .writing k before ∧ others ⊆ before := by
    by_cases same : d = c
    · subst same
      by_cases last : stores = []
      · simp [last] at here
      · simp only [Function.update_self, last, if_false, Pen.writing.injEq] at here
        obtain ⟨rfl, rfl⟩ := here
        exact ⟨_, writes, List.subset_cons_self _ _⟩
    · rw [Function.update_of_ne same] at here
      exact ⟨others, here, List.Subset.refl _⟩
  refine ⟨kept.tracked, kept.placed, ?_, ?_⟩
  · intro d others here w member
    obtain ⟨before, pen, sub⟩ := left d others here
    exact kept.pending d before pen w (sub member)
  · intro i
    by_cases own : segment = k ∧ i = addr
    · obtain ⟨rfl, rfl⟩ := own
      left
      have final := kept.pending c _ writes (i, byte) List.mem_cons_self
      simp [finalByte, final]
    · have same : Function.update s.file segment (Function.update (s.file segment) addr byte) k i =
          s.file k i := by
        by_cases here : k = segment
        · subst here
          have apart : i ≠ addr := fun at_ => own ⟨rfl, at_⟩
          simp [apart]
        · simp [here]
      change Function.update s.file segment _ k i = _ ∨ _
      rw [same]
      refine (kept.stored i).imp_right ?_
      intro waits
      obtain ⟨d, others, pen, member⟩ := waits
      by_cases mine : d = c
      · subst mine
        rw [writes] at pen
        cases pen
        have later : i ∈ stores.map Prod.fst := by
          cases member with
          | head => exact absurd ⟨rfl, rfl⟩ own
          | tail _ later => exact later
        have some_ : stores ≠ [] := by
          intro last
          simp [last] at later
        exact ⟨d, stores, by simp [some_], later⟩
      · exact ⟨d, others, by simpa [mine] using pen, member⟩

/-- A caller is given the space behind the records that the segment has. -/
theorem Kept.begun (e : Entry) {events : List WriterEvent} (kept : Kept filesize k s h)
    (tracked : LogSystem.Tracked filesize k t.log (logEvents (h ++ events)))
    (regions : regionsOf k (logEvents events) = [⟨(journalBytes k h).length, e.size⟩])
    (unmarked : marksOf k (logEvents h) = []) (marks : marksOf k (logEvents events) = [])
    (begun : journal k events = [e]) (rests : ∀ stores, s.pens c ≠ .writing k stores)
    (pens : t.pens =
      Function.update s.pens c (.writing k (e.stores (journalBytes k h).length)))
    (file : t.file k = s.file k) : Kept filesize k t (h ++ events) := by
  have fills := e.stores_fill (journalBytes k h).length
  have bytes : journalBytes k (h ++ events) = journalBytes k h ++ e.bytes := by
    simp [journalBytes, begun]
  have final (i : Nat) :
      finalByte k (h ++ events) i = ((journalBytes k h ++ e.bytes)[i]?).getD 0 := by
    simp [finalByte, bytes, unmarked, marks]
  have others (d : Nat) (other : d ≠ c) : t.pens d = s.pens d := by
    simp [pens, other]
  have own : t.pens c = .writing k (e.stores (journalBytes k h).length) := by
    simp [pens]
  refine ⟨tracked, ?_, ?_, ?_⟩
  · simp [regions, Region.next_append, bytes, e.bytes_length]
  · intro d stores writes w member
    rw [bytes]
    by_cases same : d = c
    · subst same
      rw [own] at writes
      cases writes
      exact fills.getElem?_append member
    · rw [others d same] at writes
      have before := kept.pending d stores writes w member
      obtain ⟨inside, -⟩ := List.getElem?_eq_some_iff.mp before
      rwa [List.getElem?_append_left inside]
  · intro i
    by_cases given : (journalBytes k h).length ≤ i ∧ i < (journalBytes k h).length + e.bytes.length
    · right
      refine ⟨c, _, own, ?_⟩
      rw [fills.1, List.mem_range'_1]
      exact given
    · have same : finalByte k (h ++ events) i = finalByte k h i := by
        rw [final, finalByte, unmarked]
        by_cases inside : i < (journalBytes k h).length
        · rw [List.getElem?_append_left inside]
          simp
        · have beyond : (journalBytes k h ++ e.bytes).length ≤ i := by
            rw [List.length_append]
            omega
          simp [List.getElem?_eq_none beyond, inside]
      rw [same, file]
      refine (kept.stored i).imp_right ?_
      intro waits
      obtain ⟨d, stores, writes, member⟩ := waits
      have other : d ≠ c := by
        intro same
        exact rests stores (same ▸ writes)
      exact ⟨d, stores, (others d other).trans writes, member⟩

/-- End-of-Media is written behind the records of the segment. -/
theorem Kept.publish {pos : Nat} {events : List WriterEvent} (kept : Kept filesize k s h)
    (tracked : LogSystem.Tracked filesize k t.log (logEvents (h ++ events)))
    (regions : regionsOf k (logEvents events) = []) (marks : marksOf k (logEvents events) = [pos])
    (begun : journal k events = []) (pens : t.pens = s.pens)
    (file : t.file k = Function.update (s.file k) pos 0x19) : Kept filesize k t (h ++ events) := by
  have bytes : journalBytes k (h ++ events) = journalBytes k h := by
    simp [journalBytes, begun]
  have placed :
      Region.next (regionsOf k (logEvents (h ++ events))) = (journalBytes k h).length := by
    simpa [regions] using kept.placed
  have once := (tracked.apportioned.once (by simp [marks])).2
  rw [placed] at once
  obtain ⟨unmarked, rfl⟩ : marksOf k (logEvents h) = [] ∧ pos = (journalBytes k h).length := by
    simpa [marks, List.append_eq_singleton_iff] using once
  have final (i : Nat) : finalByte k (h ++ events) i =
      if i = (journalBytes k h).length then 0x19 else finalByte k h i := by
    simp only [finalByte, once, bytes, unmarked, List.mem_singleton]
    by_cases here : i = (journalBytes k h).length
    · simp [here]
    · simp [here]
  refine ⟨tracked, ?_, ?_, ?_⟩
  · rw [placed, bytes]
  · simpa only [pens, bytes] using kept.pending
  · intro i
    rw [final, file, pens]
    by_cases here : i = (journalBytes k h).length
    · left
      simp [here]
    · simpa [here] using kept.stored i

/-- A caller goes on inside `reserve`, and leaves the segment alone. -/
theorem Kept.aside {log : LogSystem} {caller caller' : Caller} (kept : Kept filesize k s h)
    (tracked : LogSystem.Tracked filesize k log
      (logEvents (h ++ ((eventsOf caller caller').map .logged ++ begunBy (s.pens c) caller'))))
    (inside : ∀ segment pos, caller' ≠ .returned segment pos)
    (regions : regionsOf k (eventsOf caller caller') = [])
    (marks : marksOf k (eventsOf caller caller') = [])
    (file : endOfMedia s.file caller k = s.file k) :
    Kept filesize k
      ⟨log, Function.update s.pens c ((s.pens c).after caller'), endOfMedia s.file caller⟩
      (h ++ ((eventsOf caller caller').map .logged ++ begunBy (s.pens c) caller')) := by
  obtain ⟨same, nothing⟩ := (s.pens c).after_inside inside
  refine kept.frame tracked ?_ ?_ ?_ file ?_
  · simpa using regions
  · simpa using marks
  · simp [nothing]
  · simp [same]

/-- A caller takes a step inside `reserve`. -/
theorem Kept.advance {log : LogSystem} {b' : SegmentedLogBuffer} {caller caller' : Caller}
    (kept : Kept filesize k s h) (agrees : (s.pens c).Agrees caller)
    (moved : Advance filesize s.log.buffer caller b' caller')
    (tracked : LogSystem.Tracked filesize k log (logEvents h ++ eventsOf caller caller')) :
    Kept filesize k
      ⟨log, Function.update s.pens c ((s.pens c).after caller'), endOfMedia s.file caller⟩
      (h ++ ((eventsOf caller caller').map .logged ++ begunBy (s.pens c) caller')) := by
  have all : LogSystem.Tracked filesize k log
      (logEvents (h ++ ((eventsOf caller caller').map .logged ++ begunBy (s.pens c) caller'))) := by
    simpa using tracked
  have logged : logEvents ((eventsOf caller caller').map .logged ++ begunBy (s.pens c) caller') =
      eventsOf caller caller' := by
    simp
  cases moved with
  | @publish size idx pos segment =>
      have inside (j pos : Nat) : Caller.looping size ≠ .returned j pos := by
        simp
      obtain ⟨same, nothing⟩ := (s.pens c).after_inside inside
      by_cases own : segment = k
      · subst own
        have marks : marksOf segment (eventsOf (.requested size idx segment pos) (.looping size)) =
            [pos] := by
          simp [eventsOf, marksOf]
        apply kept.publish all
        · rw [logged]
          rfl
        · rw [logged, marks]
        · simp [nothing]
        · simp [same]
        · simp [endOfMedia]
      · apply kept.aside all
        · simp
        · rfl
        · simp [eventsOf, marksOf, own]
        · simp [endOfMedia, Ne.symm own]
  | @fit size idx segment missed within =>
      cases pen : s.pens c with
      | resting => simp [pen, Pen.Agrees, Caller.size] at agrees
      | writing segment stores => simp [pen, Pen.Agrees, Caller.size] at agrees
      | reserving e =>
          rw [pen] at all
          obtain rfl : size = e.size := by simpa [pen, Pen.Agrees, Caller.size] using agrees
          by_cases own : segment = k
          · subst own
            obtain ⟨filling, -, unmarked, -⟩ := kept.tracked.opened within
            have place : s.log.buffer.offset segment = (journalBytes segment h).length :=
              (filling.open_next within).symm.trans kept.placed
            have rests (stores : List (Nat × UInt8)) : s.pens c ≠ .writing segment stores := by
              simp [pen]
            rw [pen] at logged
            refine kept.begun e all ?_ unmarked ?_ ?_ rests ?_ rfl
            · rw [logged]
              simp [eventsOf, regionsOf, place]
            · rw [logged]
              rfl
            · simp [begunBy, journal]
            · simp [Pen.after, place]
          · rw [pen] at logged
            apply kept.frame all
            · rw [logged]
              simp [eventsOf, regionsOf, own]
            · rw [logged]
              rfl
            · simp [begunBy, journal, own]
            · rfl
            · apply writing_update
              · simp [pen]
              · simp [Pen.after, own]
  | load => exact kept.aside all (by simp) rfl rfl rfl
  | miss absent => exact kept.aside all (by simp) rfl rfl rfl
  | copy there => exact kept.aside all (by simp) rfl rfl rfl
  | cross crosses => exact kept.aside all (by simp) rfl rfl rfl
  | full missed behind => exact kept.aside all (by simp) rfl rfl rfl
  | drop => exact kept.aside all (by simp) rfl rfl rfl
  | request => exact kept.aside all (by simp) rfl rfl rfl

/-- What a step does is as the segment has been kept. -/
theorem Kept.step (kept : Kept filesize k s h) (agrees : s.Agrees)
    (taken : s.step filesize a = some t)
    (small : bytesRequested k (logEvents (h ++ s.events a t)) < 2 ^ 64) :
    Kept filesize k t (h ++ s.events a t) := by
  cases step_cases taken with
  | @record c e log rests called =>
      have tracked := kept.tracked.step called (by simpa [events, LogSystem.events] using small)
      refine kept.frame ?_ rfl rfl rfl rfl ?_
      · simpa [events, LogSystem.events] using tracked
      · apply writing_update
        · simp [rests]
        · intro stores
          split <;> simp
  | @advance c log advanced =>
      have tracked := kept.tracked.step advanced (by simpa [events] using small)
      cases LogSystem.step_cases advanced with
      | @advance c b' caller' moved =>
          simp only [events, LogSystem.events, Function.update_self] at tracked ⊢
          exact kept.advance (agrees c) moved tracked
  | prepare prepared =>
      have tracked := kept.tracked.step prepared (by simpa [events, LogSystem.events] using small)
      refine kept.frame ?_ rfl rfl rfl rfl ?_
      · simpa [events, LogSystem.events] using tracked
      · simp
  | install installed =>
      have tracked := kept.tracked.step installed (by simpa [events, LogSystem.events] using small)
      refine kept.frame ?_ rfl rfl rfl rfl ?_
      · simpa [events, LogSystem.events] using tracked
      · simp
  | store writes =>
      simpa [events] using kept.store writes

theorem kept_start (filesize k : Nat) : Kept filesize k start [] where
  tracked := LogSystem.tracked_start filesize k
  placed := rfl
  pending := by
    intro c stores writes
    cases writes
  stored := fun i => .inl rfl

/-- What happens in a run from the start. -/
def history (filesize : Nat) (as : List WriterAction) : List WriterEvent :=
  observe (step filesize) events start as

theorem kept_run (run : exec (step filesize) start as = some t)
    (small : bytesRequested k (logEvents (history filesize as)) < 2 ^ 64) :
    Kept filesize k t (history filesize as) := by
  have agree : start.Agrees := fun _ => rfl
  have all : t.Agrees ∧ (bytesRequested k (logEvents ([] ++ history filesize as)) < 2 ^ 64 →
      Kept filesize k t ([] ++ history filesize as)) := by
    refine observe_invariant
      (fun s h => s.Agrees ∧ (bytesRequested k (logEvents h) < 2 ^ 64 → Kept filesize k s h)) ?_
      ⟨agree, fun _ => kept_start filesize k⟩ run
    intro s h a t known taken
    refine ⟨known.1.step taken, ?_⟩
    intro small
    refine (known.2 ?_).step known.1 taken small
    rw [logEvents_append, bytesRequested_append] at small
    omega
  exact all.2 small

/-- The file of a segment. -/
def text (filesize : Nat) (s : LogWriters) (segment : Nat) : StdString :=
  (List.range (segmentSize filesize)).map (s.file segment)

end LogWriters

/-- No byte of a region of the segment is still to be stored. -/
def LogWriters.Done (s : LogWriters) (segment : Nat) (r : Region) : Prop :=
  ∀ c stores, s.pens c = .writing segment stores → ∀ w ∈ stores, ¬ r.Contains w.1

/-- A segment is a sequence of whole records. Each of them can be read as soon as its own stores
    are done; when all are, nothing else is in the file but End-of-Media. -/
structure HoldsRecords (filesize segment : Nat) (t : LogWriters) (h : List WriterEvent) : Prop where
  within : (journalBytes segment h).length < segmentSize filesize
  readable : ∀ before e after, journal segment h = before ++ e :: after →
    t.Done segment ⟨(before.flatMap Entry.bytes).length, e.size⟩ →
    (∀ a ∈ e.values, a.type ≠ .arithmetic .bool) →
    ∃ last, readRecord ((t.text filesize segment).drop (before.flatMap Entry.bytes).length)
      e.values.length = .ok (1, e.values, last, last)
  complete : t.Done segment ⟨0, segmentSize filesize⟩ →
    (∀ c pos, ¬ Waiting segment t.log.callers c pos) →
    ∃ zeros, t.text filesize segment = journalBytes segment h ++
      (if 0 < lastPos filesize ∧ lastPos filesize ≤ bytesRequested segment (logEvents h)
        then [0x19] else []) ++ List.replicate zeros 0

namespace LogWriters

variable {filesize k : Nat} {s t : LogWriters} {h : List WriterEvent}

theorem Kept.within (kept : Kept filesize k s h) :
    (journalBytes k h).length < segmentSize filesize := by
  have some_ : 0 < segmentSize filesize := by
    unfold segmentSize
    split <;> omega
  have inside := kept.tracked.apportioned.before_last
  rw [← kept.placed, Region.next]
  cases last : (regionsOf k (logEvents h)).getLast? with
  | none => exact some_
  | some r =>
      have := inside r (List.mem_of_getLast? last)
      rw [lastPos] at this
      simp only [Option.map_some, Option.getD_some]
      omega

/-- A byte that nobody has to store is in its place. -/
theorem Kept.byte (kept : Kept filesize k s h) {r : Region} (done : s.Done k r)
    (inside : r.Contains i) : s.file k i = finalByte k h i := by
  refine (kept.stored i).resolve_right ?_
  intro waits
  obtain ⟨c, stores, writes, member⟩ := waits
  obtain ⟨w, left, rfl⟩ := List.mem_map.mp member
  exact done c stores writes w left inside

theorem Kept.readable (kept : Kept filesize k s h) (here : journal k h = before ++ e :: after)
    (done : s.Done k ⟨(before.flatMap Entry.bytes).length, e.size⟩) :
    HasBytes ((s.text filesize k).drop (before.flatMap Entry.bytes).length) 0 e.bytes := by
  set start := (before.flatMap Entry.bytes).length with begins
  have bytes : journalBytes k h =
      before.flatMap Entry.bytes ++ (e.bytes ++ after.flatMap Entry.bytes) := by
    simp [journalBytes, here]
  apply hasBytes_of_prefix
  rw [List.prefix_iff_getElem?]
  intro i less
  have stored : s.file k (start + i) = finalByte k h (start + i) := by
    apply kept.byte done
    constructor
    · exact Nat.le_add_right _ _
    · exact Nat.add_lt_add_left (e.bytes_length ▸ less) _
  have value : (journalBytes k h)[start + i]? = some e.bytes[i] := by
    rw [bytes, List.getElem?_append_right (Nat.le_add_right _ _), Nat.add_sub_cancel_left,
      List.getElem?_append_left less, List.getElem?_eq_getElem less]
  obtain ⟨inside, -⟩ := List.getElem?_eq_some_iff.mp value
  have file : start + i < segmentSize filesize := lt_trans inside kept.within
  simp [text, file, stored, finalByte, value]

/-- End-of-Media is behind the records if the requests have come to the last place. -/
theorem Kept.marks (kept : Kept filesize k s h)
    (nobody : ∀ c pos, ¬ Waiting k s.log.callers c pos) :
    marksOf k (logEvents h) =
      if 0 < lastPos filesize ∧ lastPos filesize ≤ bytesRequested k (logEvents h) then
        [(journalBytes k h).length]
      else [] := by
  have apportioned := kept.tracked.apportioned
  split
  next full =>
    rw [← kept.placed]
    exact apportioned.marked (apportioned.filled_iff.mpr full) nobody
  next open_ =>
    by_contra noted
    exact open_ (apportioned.filled_iff.mp (apportioned.once noted).1)

theorem Kept.complete (kept : Kept filesize k s h) (done : s.Done k ⟨0, segmentSize filesize⟩)
    (nobody : ∀ c pos, ¬ Waiting k s.log.callers c pos) :
    ∃ zeros, s.text filesize k = journalBytes k h ++
      (if 0 < lastPos filesize ∧ lastPos filesize ≤ bytesRequested k (logEvents h)
        then [0x19] else []) ++ List.replicate zeros 0 := by
  set ending : StdString :=
    if 0 < lastPos filesize ∧ lastPos filesize ≤ bytesRequested k (logEvents h) then [0x19] else []
    with ends
  have bytes (i : Nat) (inside : i < segmentSize filesize) :
      s.file k i = (journalBytes k h ++ ending)[i]?.getD 0 := by
    have within : (Region.mk 0 (segmentSize filesize)).Contains i :=
      ⟨Nat.zero_le i, inside.trans_eq (Nat.zero_add _).symm⟩
    rw [kept.byte done within, finalByte, kept.marks nobody, ends]
    split
    next full =>
      rcases lt_trichotomy i (journalBytes k h).length with inside | rfl | behind
      · rw [List.getElem?_append_left inside]
        simp [inside]
      · simp
      · have off : i ≠ (journalBytes k h).length := Nat.ne_of_gt behind
        have beyond : (journalBytes k h ++ [0x19]).length ≤ i := by simpa using behind
        simp [List.getElem?_eq_none beyond, behind.le, off]
    next open_ => simp
  have short : (journalBytes k h ++ ending).length ≤ segmentSize filesize := by
    have := kept.within
    rw [List.length_append, ends]
    split
    next full => simpa using this
    next open_ => simpa using this.le
  exact ⟨_, range_map_eq short bytes⟩

end LogWriters

/-- Whatever the callers and the service thread do, in whatever order: in a segment that is asked
    for less than 2^64 bytes there is one record behind the other, each readable once it is
    stored, and only End-of-Media behind them. -/
theorem holds_records {filesize segment : Nat} {t : LogWriters}
    (run : exec (LogWriters.step filesize) .start as = some t)
    (small : bytesRequested segment (logEvents (LogWriters.history filesize as)) < 2 ^ 64) :
    HoldsRecords filesize segment t (LogWriters.history filesize as) := by
  have kept := LogWriters.kept_run run small
  refine ⟨kept.within, ?_, kept.complete⟩
  intro before e after here done plain
  let record : Record := ⟨e.values, by simpa [Entry.values] using e.some_args, e.fits⟩
  have read := readRecord_hasBytes record (kept.readable here done)
  refine ⟨_, read.trans (if_neg ?_)⟩
  intro some_
  obtain ⟨a, inside, bool⟩ := some_
  exact plain a inside bool

/-- Two callers whose records are stored at the same time in a file of 16 bytes, and a third
    record for which there is no space left. -/
def letterEntry (value : BitVec 8) : Entry where
  args := [.arithmetic .int8 value]
  some_args := List.cons_ne_nil _ _
  fits := by
    change 7 < 2 ^ 32
    decide

def interleaved : List WriterAction :=
  [.record 0 (letterEntry 97), .record 1 (letterEntry 98)] ++
    List.replicate 3 (.advance 0) ++ List.replicate 3 (.advance 1) ++
    (List.replicate 7 [.store 0, .store 1]).flatten ++
    [.record 0 (letterEntry 99)] ++ List.replicate 6 (.advance 0)

theorem holds_records_interleaved :
    ∃ t, exec (LogWriters.step 16) .start interleaved = some t ∧
      HoldsRecords 16 0 t (LogWriters.history 16 interleaved) ∧
      t.text 16 0 = [1, 2, 0, 0, 0, 98, 97, 1, 2, 0, 0, 0, 98, 98, 0x19, 0] := by
  have runs : ((exec (LogWriters.step 16) .start interleaved).map fun t => t.text 16 0) =
      some [1, 2, 0, 0, 0, 98, 97, 1, 2, 0, 0, 0, 98, 98, 0x19, 0] := by
    decide +kernel
  obtain ⟨t, run, file⟩ := Option.map_eq_some_iff.mp runs
  refine ⟨t, run, holds_records run ?_, file⟩
  decide +kernel

end VanillaRtb.Auditor
