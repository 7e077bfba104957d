import VanillaRtb.Lib.SlotRing
import VanillaRtb.Lib.Transition

/-! # Reserving space in a log of segments

Callers reserve space in the current segment, a file in memory. The one that runs over its end
takes it out of the three slots, asks the service thread for another, and lets the index go
on to the next. The callers and the service thread take turns at single steps on what they
share: an atomic access, or what is done under the mutex.
-/

namespace VanillaRtb.Auditor

open Lib Lib.SlotRing

/-- A `size_t`. -/
def wrap (n : Nat) : Nat := n % 2 ^ 64

theorem wrap_eq (small : n < 2 ^ 64) : wrap n = n := Nat.mod_eq_of_lt small

theorem wrap_le (n : Nat) : wrap n ≤ n := Nat.mod_le n _

/-- `size` of a segment, the length of its file. `create_file` writes one byte where it seeks
    to, and where the offset is negative it stays at the beginning. -/
def segmentSize (filesize : Nat) : Nat :=
  if 0 < filesize ∧ filesize ≤ 2 ^ 63 then filesize else 1

def lastPos (filesize : Nat) : Nat := segmentSize filesize - 1

/-- What the callers and the service thread share. Segments are numbered as they are made:
    `made` of them are, and `make_segment_idx_` is that in 64 bits. `making` is the segment that
    `prep_next_segment` has made and not put into its slot yet, `pending` how many more requests
    for one are posted. -/
structure SegmentedLogBuffer where
  segments : Fin 3 → Option Nat
  offset : Nat → Nat
  memory : Nat → Nat → UInt8
  segmentIdx : Nat
  made : Nat
  making : Option Nat
  pending : Nat
  aborted : Bool

/-- How far a caller of `reserve` has got, with its local variables. `current` notes whether the
    segment was the one of `segment_idx_` when the request crossed its capacity. -/
inductive Caller where
  | idle
  | threw (what : String)
  | returned (segment pos : Nat)
  | looping (requiredSize : Nat)
  | loaded (requiredSize segmentIdx : Nat)
  | holding (requiredSize segmentIdx segment : Nat)
  | crossed (requiredSize segmentIdx segment pos : Nat) (current : Bool)
  | dropped (requiredSize segmentIdx segment pos : Nat)
  | requested (requiredSize segmentIdx segment pos : Nat)
  deriving DecidableEq

/-- `segments_[i % segments_.size()]` -/
abbrev slotOf (i : Nat) : Fin 3 := slot 3 i

namespace SegmentedLogBuffer

variable (filesize : Nat) (b : SegmentedLogBuffer)

/-- `prep_next_segment` up to its lock. -/
def makeSegment : SegmentedLogBuffer := { b with making := some b.made, made := b.made + 1 }

/-- What it does under the lock. -/
def swapIn (segment : Nat) : SegmentedLogBuffer :=
  match b.segments (slotOf (wrap segment)) with
  | some _ => { b with aborted := true }
  | none =>
      { b with
        segments := Function.update b.segments (slotOf (wrap segment)) (some segment)
        making := none }

def prepNextSegment : SegmentedLogBuffer := b.makeSegment.swapIn b.made

/-- The constructor. -/
def start : SegmentedLogBuffer :=
  prepNextSegment (prepNextSegment
    { segments := fun _ => none
      offset := fun _ => 0
      memory := fun _ _ => 0
      segmentIdx := 0
      made := 0
      making := none
      pending := 0
      aborted := false })

/-- `log_segment::reserve` -/
def fetchAdd (segment size : Nat) : SegmentedLogBuffer :=
  { b with offset := Function.update b.offset segment (wrap (b.offset segment + size)) }

/-- Whether a request of that size is the one to cross the capacity of the segment. -/
def Crosses (segment size : Nat) : Prop :=
  b.offset segment < lastPos filesize ∧ lastPos filesize ≤ wrap (b.offset segment + size)

instance (segment size : Nat) : Decidable (b.Crosses filesize segment size) :=
  inferInstanceAs (Decidable (_ ∧ _))

def IsCurrent (segment : Nat) : Prop := b.segmentIdx = wrap segment

instance (segment : Nat) : Decidable (b.IsCurrent segment) := inferInstanceAs (Decidable (_ = _))

def resetSlot (segmentIdx : Nat) : SegmentedLogBuffer :=
  { b with segments := Function.update b.segments (slotOf segmentIdx) none }

/-- The service thread runs the handler in a turn of its own. -/
def requestNextSegment : SegmentedLogBuffer := { b with pending := b.pending + 1 }

/-- End-of-Media is written, and the next segment published. -/
def publish (segmentIdx segment pos : Nat) : SegmentedLogBuffer :=
  { b with
    memory := Function.update b.memory segment (Function.update (b.memory segment) pos 0x19)
    segmentIdx := wrap (segmentIdx + 1) }

end SegmentedLogBuffer

/-- The entry of `reserve`. -/
def reserve (filesize requiredSize : Nat) : Caller :=
  if wrap (filesize + (2 ^ 64 - 1)) < requiredSize then .threw "too much memory requested"
  else .looping requiredSize

/-- The next step of a caller inside `reserve`. -/
def advance (filesize : Nat) (b : SegmentedLogBuffer) :
    Caller → Option (SegmentedLogBuffer × Caller)
  | .looping size => some (b, .loaded size b.segmentIdx)
  | .loaded size idx =>
      match b.segments (slotOf idx) with
      | none => some (b, .looping size)
      | some segment => some (b, .holding size idx segment)
  | .holding size idx segment =>
      let pos := b.offset segment
      let after := b.fetchAdd segment size
      if b.Crosses filesize segment size then
        some (after, .crossed size idx segment pos (decide (b.IsCurrent segment)))
      else if lastPos filesize ≤ pos then some (after, .looping size)
      else some (after, .returned segment pos)
  | .crossed size idx segment pos _ => some (b.resetSlot idx, .dropped size idx segment pos)
  | .dropped size idx segment pos => some (b.requestNextSegment, .requested size idx segment pos)
  | .requested size idx segment pos => some (b.publish idx segment pos, .looping size)
  | _ => none

/-- Whether a thread is not inside `reserve`, so that it can call it. -/
def Caller.isOutside : Caller → Bool
  | .idle | .threw _ | .returned _ _ => true
  | _ => false

/-- How much a request that has crossed the capacity has done of what it has to do then. -/
def Caller.stage : Caller → Nat
  | .crossed _ _ _ _ _ => 1
  | .dropped _ _ _ _ => 2
  | .requested _ _ _ _ => 3
  | _ => 0

structure LogSystem where
  buffer : SegmentedLogBuffer
  callers : Nat → Caller

inductive LogAction where
  | call (c requiredSize : Nat)
  | advance (c : Nat)
  | prepare
  | install
  deriving DecidableEq

namespace LogSystem

def start : LogSystem where
  buffer := SegmentedLogBuffer.start
  callers := fun _ => .idle

/-- A step of the system; a failed assertion is the last one. -/
def step (filesize : Nat) (s : LogSystem) (a : LogAction) : Option LogSystem :=
  if s.buffer.aborted then none
  else
    match a with
    | .call c size =>
        if (s.callers c).isOutside then
          some { s with callers := Function.update s.callers c (reserve filesize size) }
        else none
    | .advance c =>
        (advance filesize s.buffer (s.callers c)).map fun moved =>
          { buffer := moved.1, callers := Function.update s.callers c moved.2 }
    | .prepare =>
        if s.buffer.making = none ∧ 0 < s.buffer.pending then
          let buffer := { s.buffer with pending := s.buffer.pending - 1 }
          some { s with buffer := buffer.makeSegment }
        else none
    | .install => s.buffer.making.map fun segment => { s with buffer := s.buffer.swapIn segment }

/-- No request is between crossing a capacity and publishing the next segment. -/
def Settled (s : LogSystem) : Prop := ∀ c, (s.callers c).stage = 0

end LogSystem

/-- A step does not let `segment_idx_` decrease, nor the assertion fail, and takes a segment out
    of `segments_` only if it is of the request that crossed its capacity while it was current. -/
structure InTurn (s : LogSystem) (a : LogAction) (t : LogSystem) : Prop where
  monotone : s.buffer.segmentIdx ≤ t.buffer.segmentIdx
  asserted : t.buffer.aborted = false
  kept : ∀ j segment, s.buffer.segments j = some segment →
    t.buffer.segments j = some segment ∨
      ∃ c size idx pos, a = .advance c ∧ s.callers c = .crossed size idx segment pos true

def StaysInTurn (filesize : Nat) (s : LogSystem) (a : LogAction) : Prop :=
  ∀ t, s.step filesize a = some t → InTurn s a t

/-- A request that crosses the capacity of the segment it holds has loaded the index of it. -/
def ownIndex (filesize : Nat) (s : LogSystem) : LogAction → Bool
  | .advance c =>
      match s.callers c with
      | .holding size idx segment =>
          decide (s.buffer.Crosses filesize segment size → wrap segment = idx)
      | _ => true
  | _ => true

/-- Neither the offset of a segment nor the number of segments exceeds 64 bits. -/
def unwrapped (s : LogSystem) : LogAction → Bool
  | .advance c =>
      match s.callers c with
      | .holding size _ segment => decide (s.buffer.offset segment + size < 2 ^ 64)
      | _ => true
  | .prepare => decide (s.buffer.made + 1 < 2 ^ 64)
  | _ => true

end VanillaRtb.Auditor
