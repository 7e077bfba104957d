import VanillaRtb.Auditor.Rotation
import VanillaRtb.Lib.Ending

/-! # Turns of the loop in `reserve`

With one caller the current segment and the next are in their slots when a turn begins. A
turn hands out a region of the current one, or uses it up and leaves the caller with an
empty one in the next turn. A request that does not fit into an empty segment uses up one
after the other.
-/

namespace VanillaRtb.Auditor

open Lib Lib.SlotRing Lib.Transition

def Caller.isLooping : Caller → Bool
  | .looping _ => true
  | _ => false

namespace LogSystem

/-- There is one caller, and it starts a turn of the loop when each segment that was asked for
    is in its slot. -/
def Paced (s : LogSystem) : LogAction → Prop
  | .call c _ => c = 0
  | .advance c =>
      c = 0 ∧ ((s.callers c).isLooping = true → s.buffer.making = none ∧ s.buffer.pending = 0)
  | .prepare | .install => True

/-- What is done before a call has returned. -/
def Inside (s : LogSystem) (a : LogAction) : Prop := s.Paced a ∧ ∀ c size, a ≠ .call c size

/-- A turn begins with the load of the index. -/
def turns (s : LogSystem) : LogAction → LogSystem → List Nat
  | .advance c, _ => if (s.callers c).isLooping then [s.buffer.segmentIdx] else []
  | _, _ => []

/-- `reserve` has returned a pointer into a segment. -/
def Returned (s : LogSystem) : Prop := ∃ segment pos, s.callers 0 = .returned segment pos

/-- Whatever is done in whatever order, the call returns after at most that many turns. -/
def ReturnsWithin (filesize turnCount : Nat) (s : LogSystem) : Prop :=
  EndsIn (step filesize) Inside turns Returned turnCount s

end LogSystem

namespace SegmentedLogBuffer

/-- With the index `i` the segments from `lo` up to `hi` are in their slots, and those behind the
    current one are empty. -/
structure Stands (b : SegmentedLogBuffer) (i lo hi made : Nat) (making : Option Nat)
    (pending : Nat) : Prop where
  running : b.aborted = false
  index : b.segmentIdx = i
  empty : ∀ m, i < m → b.offset m = 0
  window : Window b.segments lo hi
  small : hi ≤ 2 ^ 64
  made : b.made = made
  making : b.making = making
  pending : b.pending = pending

theorem swapIn_offset (b : SegmentedLogBuffer) (segment : Nat) :
    (b.swapIn segment).offset = b.offset := by
  unfold swapIn
  split <;> rfl

namespace Stands

variable {b : SegmentedLogBuffer} {i lo hi made pending pos size segment : Nat}
  {making : Option Nat}

theorem fetchAdd (stands : b.Stands i lo hi made making pending) (size : Nat) :
    (b.fetchAdd i size).Stands i lo hi made making pending where
  running := stands.running
  index := stands.index
  empty m behind := by
    simpa [SegmentedLogBuffer.fetchAdd, Function.update_of_ne behind.ne'] using
      stands.empty m behind
  window := stands.window
  small := stands.small
  made := stands.made
  making := stands.making
  pending := stands.pending

theorem resetSlot (stands : b.Stands i lo hi made making pending) (stocked : lo < hi) :
    (b.resetSlot lo).Stands i (lo + 1) hi made making pending :=
  { stands with window := stands.window.drop stocked }

theorem requestNextSegment (stands : b.Stands i lo hi made making pending) :
    b.requestNextSegment.Stands i lo hi made making (pending + 1) :=
  { stands with pending := congrArg (· + 1) stands.pending }

theorem publish (stands : b.Stands i (i + 1) hi made making pending) (next : i + 1 < 2 ^ 64)
    (segment pos : Nat) :
    (b.publish i segment pos).Stands (i + 1) (i + 1) hi made making pending :=
  { stands with
    index := wrap_eq next
    empty := fun m behind => stands.empty m (Nat.lt_of_succ_lt behind) }

/-- `prep_next_segment` up to its lock. -/
theorem prepare (stands : b.Stands i lo hi made none (pending + 1)) :
    ({ b with pending := b.pending - 1 } : SegmentedLogBuffer).makeSegment.Stands i lo hi
      (made + 1) (some made) pending :=
  { stands with
    made := congrArg (· + 1) stands.made
    making := congrArg some stands.made
    pending := congrArg (· - 1) stands.pending }

/-- The rest of it. -/
theorem install (stands : b.Stands i lo hi made (some hi) pending) (room : hi < lo + 3)
    (below : hi < 2 ^ 64) : (b.swapIn hi).Stands i lo (hi + 1) made none pending := by
  have free : b.segments (slotOf (wrap hi)) = none := by
    rw [wrap_eq below]
    exact stands.window.free room
  have installed := stands.window.install room
  rw [swapIn_free free, wrap_eq below]
  exact { stands with window := installed, small := below, making := rfl }

/-- The segment whose number exceeds 64 bits finds its slot taken. -/
theorem install_aborts (stands : b.Stands i lo (2 ^ 64) made making pending)
    (last : lo < 2 ^ 64) : (b.swapIn (2 ^ 64)).aborted = true := by
  have stored := stands.window.get (Nat.le_sub_one_of_lt last) (by decide : 2 ^ 64 - 1 < 2 ^ 64)
  have same : slotOf (wrap (2 ^ 64)) = slotOf (2 ^ 64 - 1) := slot_eq_iff.mpr (by decide)
  rw [swapIn, same, stored]

end Stands

/-- When a turn begins. -/
abbrev Stocked (b : SegmentedLogBuffer) (i : Nat) : Prop := b.Stands i i (i + 2) (i + 2) none 0

end SegmentedLogBuffer

namespace SegmentedLogBuffer

/-- With the index `i` the segments from `j` on: the second of them is in its slot, or asked for,
    or made. -/
def Supplied (b : SegmentedLogBuffer) (i j : Nat) : Prop :=
  b.Stands i j (j + 2) (j + 2) none 0 ∨ b.Stands i j (j + 1) (j + 1) none 1 ∨
    b.Stands i j (j + 1) (j + 2) (some (j + 1)) 0

/-- What the buffer is like at each point of a caller that is alone. -/
inductive InLine (filesize : Nat) (b : SegmentedLogBuffer) : Caller → Prop where
  | outside (stocked : b.Stocked i)
      (within : b.offset i < lastPos filesize ∨ lastPos filesize = 0)
      (outside : c.isOutside = true) : InLine filesize b c
  | looping (supplied : b.Supplied i i)
      (within : b.offset i < lastPos filesize ∨ lastPos filesize = 0) :
      InLine filesize b (.looping size)
  | loaded (stocked : b.Stocked i)
      (within : b.offset i < lastPos filesize ∨ lastPos filesize = 0) :
      InLine filesize b (.loaded size i)
  | holding (stocked : b.Stocked i)
      (within : b.offset i < lastPos filesize ∨ lastPos filesize = 0) :
      InLine filesize b (.holding size i i)
  | crossed (stocked : b.Stocked i) : InLine filesize b (.crossed size i i pos current)
  | dropped (stands : b.Stands i (i + 1) (i + 2) (i + 2) none 0) :
      InLine filesize b (.dropped size i i pos)
  | requested (supplied : b.Supplied i (i + 1)) : InLine filesize b (.requested size i i pos)

variable {b b' : SegmentedLogBuffer} {i j segment filesize : Nat} {c c' : Caller}

theorem Supplied.prepare (supplied : b.Supplied i j) (idle : b.making = none)
    (asked : 0 < b.pending) :
    ({ b with pending := b.pending - 1 } : SegmentedLogBuffer).makeSegment.Supplied i j := by
  rcases supplied with done | waiting | made
  · simp [done.pending] at asked
  · exact .inr (.inr waiting.prepare)
  · simp [made.making] at idle

theorem Supplied.install (supplied : b.Supplied i j) (making : b.making = some segment) :
    (b.swapIn segment).aborted = true ∨ (b.swapIn segment).Supplied i j := by
  rcases supplied with done | waiting | made
  · simp [done.making] at making
  · simp [waiting.making] at making
  · obtain rfl : j + 1 = segment := by simpa [made.making] using making
    rcases lt_or_eq_of_le made.small with below | last
    · exact .inr (.inl (made.install (by omega) below))
    · rw [last] at made ⊢
      exact .inl (made.install_aborts (by omega))

theorem Supplied.empty (supplied : b.Supplied i j) (m : Nat) (behind : i < m) :
    b.offset m = 0 := by
  rcases supplied with done | waiting | made
  · exact done.empty m behind
  · exact waiting.empty m behind
  · exact made.empty m behind

theorem Supplied.publish (supplied : b.Supplied i (i + 1)) (segment pos : Nat) :
    (b.publish i segment pos).Supplied (i + 1) (i + 1) := by
  rcases supplied with done | waiting | made
  · have small := done.small
    exact .inl (done.publish (by omega) segment pos)
  · have small := waiting.small
    exact .inr (.inl (waiting.publish (by omega) segment pos))
  · have small := made.small
    exact .inr (.inr (made.publish (by omega) segment pos))

namespace InLine

theorem prepare (inLine : InLine filesize b c) (idle : b.making = none) (asked : 0 < b.pending) :
    InLine filesize ({ b with pending := b.pending - 1 } : SegmentedLogBuffer).makeSegment c := by
  cases inLine with
  | outside stocked => simp [stocked.pending] at asked
  | looping supplied within => exact .looping (supplied.prepare idle asked) within
  | loaded stocked => simp [stocked.pending] at asked
  | holding stocked => simp [stocked.pending] at asked
  | crossed stocked => simp [stocked.pending] at asked
  | dropped stands => simp [stands.pending] at asked
  | requested supplied => exact .requested (supplied.prepare idle asked)

theorem install (inLine : InLine filesize b c) (making : b.making = some segment) :
    (b.swapIn segment).aborted = true ∨ InLine filesize (b.swapIn segment) c := by
  cases inLine with
  | outside stocked => simp [stocked.making] at making
  | looping supplied within =>
      refine (supplied.install making).imp_right fun installed => .looping installed ?_
      rwa [swapIn_offset]
  | loaded stocked => simp [stocked.making] at making
  | holding stocked => simp [stocked.making] at making
  | crossed stocked => simp [stocked.making] at making
  | dropped stands => simp [stands.making] at making
  | requested supplied => exact (supplied.install making).imp_right .requested

/-- The caller that is alone goes on, each turn when nothing is left to be done for the last. -/
theorem advance (inLine : InLine filesize b c)
    (paced : c.isLooping = true → b.making = none ∧ b.pending = 0)
    (moved : Advance filesize b c b' c') : InLine filesize b' c' := by
  cases inLine with
  | outside stocked within outside => cases moved <;> cases outside
  | looping supplied within =>
      obtain ⟨idle, quiet⟩ := paced rfl
      rcases supplied with stocked | waiting | made
      · cases moved with
        | load =>
            rw [stocked.index]
            exact .loaded stocked within
      · simp [waiting.pending] at quiet
      · simp [made.making] at idle
  | @loaded i size stocked within =>
      have stored := stocked.window.get (le_refl i) (by omega)
      cases moved with
      | miss absent => simp [stored] at absent
      | copy there =>
          obtain rfl := Option.some.inj (stored.symm.trans there)
          exact .holding stocked within
  | @holding i size stocked within =>
      have added := stocked.fetchAdd size
      cases moved with
      | cross crosses => exact .crossed added
      | full missed behind => exact .looping (.inl added) (.inr (by omega))
      | fit missed within' =>
          refine .outside added (.inl ?_) rfl
          rw [Crosses, not_and, Nat.not_le] at missed
          simpa [fetchAdd] using missed within'
  | crossed stocked =>
      cases moved with
      | drop => exact .dropped (stocked.resetSlot (by omega))
  | dropped stands =>
      cases moved with
      | request => exact .requested (.inr (.inl stands.requestNextSegment))
  | @requested i size pos supplied =>
      cases moved with
      | publish =>
          have fresh : (b.publish i i pos).offset (i + 1) = 0 :=
            supplied.empty (i + 1) (Nat.lt_succ_self i)
          apply InLine.looping (supplied.publish i pos)
          rw [fresh]
          exact (Nat.eq_zero_or_pos _).symm

end InLine

end SegmentedLogBuffer

namespace LogSystem

variable {filesize k size i lo hi made pending pos : Nat} {making : Option Nat}
  {b b' : SegmentedLogBuffer} {callers : Nat → Caller} {c c' : Caller} {s t : LogSystem}
  {a : LogAction}

theorem step_advance (running : b.aborted = false) (held : callers 0 = c)
    (moved : advance filesize b c = some (b', c')) :
    step filesize ⟨b, callers⟩ (.advance 0) = some ⟨b', Function.update callers 0 c'⟩ := by
  simp [step, running, held, moved]

theorem step_prepare (running : b.aborted = false) (idle : b.making = none)
    (asked : 0 < b.pending) :
    step filesize ⟨b, callers⟩ .prepare =
      some ⟨({ b with pending := b.pending - 1 } : SegmentedLogBuffer).makeSegment, callers⟩ := by
  simp [step, running, idle, asked]

theorem step_install {segment : Nat} (running : b.aborted = false)
    (making : b.making = some segment) :
    step filesize ⟨b, callers⟩ .install = some ⟨b.swapIn segment, callers⟩ := by
  simp [step, running, making]

/-- Inside a call the caller goes on, or the service thread has something to do. -/
theorem inside_cases (inside : s.Inside a) (taken : s.step filesize a = some t) :
    a = .advance 0 ∨ (a = .prepare ∧ s.buffer.making = none ∧ 0 < s.buffer.pending) ∨
      a = .install ∧ s.buffer.making ≠ none := by
  cases step_cases taken with
  | call outside => exact absurd rfl (inside.2 _ _)
  | advance moved => exact .inl (congrArg LogAction.advance inside.1.1)
  | prepare idle asked => exact .inr (.inl ⟨rfl, idle, asked⟩)
  | install making => exact .inr (.inr ⟨rfl, by simp [making]⟩)

/-- A caller that is not at the beginning of a turn may always go on. -/
theorem inside_advance (held : callers 0 = c) (turn : c.isLooping = false) :
    Inside ⟨b, callers⟩ (.advance 0) := by
  refine ⟨⟨rfl, ?_⟩, by simp⟩
  simp [held, turn]

theorem advance_of_quiet (idle : s.buffer.making = none) (quiet : s.buffer.pending = 0)
    (inside : s.Inside a) (taken : s.step filesize a = some t) : a = .advance 0 := by
  have actions := inside_cases inside taken
  simpa [idle, quiet] using actions

/-- The caller goes on alone. -/
theorem returnsWithin_advance (stands : b.Stands i lo hi made none 0) (held : callers 0 = c)
    (turn : c.isLooping = false) (moved : advance filesize b c = some (b', c')) :
    ReturnsWithin filesize k ⟨b, callers⟩ ↔
      ReturnsWithin filesize k ⟨b', Function.update callers 0 c'⟩ := by
  unfold ReturnsWithin
  rw [endsIn_single (fun a t => advance_of_quiet stands.making stands.pending)
    (inside_advance held turn) (step_advance stands.running held moved)]
  simp [turns, held, turn]

/-- A turn begins. -/
theorem returnsWithin_load (stocked : b.Stocked i) (held : callers 0 = .looping size) :
    ReturnsWithin filesize k ⟨b, callers⟩ ↔
      0 < k ∧ ReturnsWithin filesize (k - 1)
        ⟨b, Function.update callers 0 (.loaded size i)⟩ := by
  have may : Inside ⟨b, callers⟩ (.advance 0) :=
    ⟨⟨rfl, fun _ => ⟨stocked.making, stocked.pending⟩⟩, by simp⟩
  have moved : advance filesize b (.looping size) = some (b, .loaded size i) := by
    rw [advance, stocked.index]
  unfold ReturnsWithin
  rw [endsIn_single (fun a t => advance_of_quiet stocked.making stocked.pending) may
    (step_advance stocked.running held moved)]
  simp [turns, held, Caller.isLooping, Nat.succ_le_iff]

/-- A failed assertion is the end, and nothing is returned. -/
theorem not_returnsWithin_aborted (aborted : b.aborted = true)
    (short : ∀ segment pos, callers 0 ≠ .returned segment pos) :
    ¬ ReturnsWithin filesize k ⟨b, callers⟩ := by
  apply not_endsIn_of_stuck
  · simpa [Returned] using short
  · simp [step, aborted]

section Service

theorem advance_or_prepare (idle : s.buffer.making = none) (inside : s.Inside a)
    (taken : s.step filesize a = some t) : a = .advance 0 ∨ a = .prepare := by
  rcases inside_cases inside taken with here | ⟨here, _⟩ | ⟨_, making⟩
  · exact .inl here
  · exact .inr here
  · exact absurd idle making

theorem advance_or_install (making : s.buffer.making ≠ none) (inside : s.Inside a)
    (taken : s.step filesize a = some t) : a = .advance 0 ∨ a = .install := by
  rcases inside_cases inside taken with here | ⟨_, idle, _⟩ | ⟨here, _⟩
  · exact .inl here
  · exact absurd idle making
  · exact .inr here

variable (only : ∀ a' t, Inside ⟨b, callers⟩ a' → step filesize ⟨b, callers⟩ a' = some t →
    a' = .advance 0 ∨ a' = a)
  (may : Inside ⟨b, callers⟩ a) (silent : ∀ t, turns ⟨b, callers⟩ a t = [])
  (taken : step filesize ⟨b, callers⟩ a = some ⟨b', callers⟩)

include only may silent taken

/-- A turn does not begin before the service thread has done what is left. -/
theorem returnsWithin_service (held : callers 0 = .looping size)
    (left : b.making = none → b.pending ≠ 0) :
    ReturnsWithin filesize k ⟨b, callers⟩ ↔ ReturnsWithin filesize k ⟨b', callers⟩ := by
  have alone : ∀ a' t, Inside ⟨b, callers⟩ a' → step filesize ⟨b, callers⟩ a' = some t →
      a' = a := by
    intro a' t inside moved
    apply (only a' t inside moved).resolve_left
    rintro rfl
    have ready := inside.1.2 (by simp [held, Caller.isLooping])
    exact left ready.1 ready.2
  unfold ReturnsWithin
  rw [endsIn_single alone may taken]
  simp [silent]

/-- The next segment may be published before that or after it. -/
theorem returnsWithin_publish {segment : Nat} (running : b.aborted = false)
    (held : callers 0 = .requested size i segment pos) :
    ReturnsWithin filesize k ⟨b, callers⟩ ↔
      ReturnsWithin filesize k
          ⟨b.publish i segment pos, Function.update callers 0 (.looping size)⟩ ∧
        ReturnsWithin filesize k ⟨b', callers⟩ := by
  have goes_on : ∀ t, turns ⟨b, callers⟩ (.advance 0) t = [] := by
    simp [turns, held, Caller.isLooping]
  unfold ReturnsWithin
  rw [endsIn_pair only (inside_advance held rfl) (step_advance running held rfl) may taken]
  simp [goes_on, silent]

end Service

/-- What is promised of a segment that is put into its slot is not promised of one for which there
    is no number left. -/
theorem returnsWithin_swapIn {promised : Prop}
    (stands : b.Stands i lo (lo + 1) made (some (lo + 1)) 0)
    (short : ∀ segment pos, callers 0 ≠ .returned segment pos)
    (exhausted : 2 ^ 64 < lo + 2 → ¬ promised)
    (installed : (b.swapIn (lo + 1)).Stands i lo (lo + 2) made none 0 →
      (ReturnsWithin filesize k ⟨b.swapIn (lo + 1), callers⟩ ↔ promised)) :
    ReturnsWithin filesize k ⟨b.swapIn (lo + 1), callers⟩ ↔ promised := by
  rcases lt_or_eq_of_le stands.small with below | last
  · exact installed (stands.install (by omega) below)
  · refine iff_of_false ?_ (exhausted (by omega))
    rw [last] at stands ⊢
    exact not_returnsWithin_aborted (stands.install_aborts (by omega)) short

section Supply

variable {j segment : Nat} {promised : Prop}
  (settled : ∀ b callers, SegmentedLogBuffer.Stocked b j → b.offset j = 0 →
    callers 0 = .looping size → (ReturnsWithin filesize k ⟨b, callers⟩ ↔ promised))
  (exhausted : 2 ^ 64 < j + 2 → ¬ promised)

include settled exhausted

/-- The second segment is put into its slot before the turn begins, if there is a number left. -/
theorem returnsWithin_made (stands : b.Stands j j (j + 1) (j + 2) (some (j + 1)) 0)
    (fresh : b.offset j = 0) (held : callers 0 = .looping size) :
    ReturnsWithin filesize k ⟨b, callers⟩ ↔ promised := by
  have making : b.making ≠ none := by simp [stands.making]
  rw [returnsWithin_service (fun a t => advance_or_install making) ⟨trivial, by simp⟩
    (fun _ => rfl) (step_install stands.running stands.making) held (absurd · making)]
  apply returnsWithin_swapIn stands (by simp [held]) exhausted
  intro stocked
  apply settled _ callers stocked _ held
  simpa [SegmentedLogBuffer.swapIn_offset] using fresh

theorem returnsWithin_asked (stands : b.Stands j j (j + 1) (j + 1) none 1)
    (fresh : b.offset j = 0) (held : callers 0 = .looping size) :
    ReturnsWithin filesize k ⟨b, callers⟩ ↔ promised := by
  have asked : 0 < b.pending := by simp [stands.pending]
  rw [returnsWithin_service (fun a t => advance_or_prepare stands.making) ⟨trivial, by simp⟩
    (fun _ => rfl) (step_prepare stands.running stands.making asked) held fun _ => asked.ne']
  exact returnsWithin_made settled exhausted stands.prepare fresh held

/-- The next segment is published after the one behind it has been put into its slot, -/
theorem returnsWithin_requested_done (stands : b.Stands i (i + 1) (i + 3) (i + 3) none 0)
    (next : j = i + 1) (held : callers 0 = .requested size i segment pos) :
    ReturnsWithin filesize k ⟨b, callers⟩ ↔ promised := by
  subst next
  have small := stands.small
  rw [returnsWithin_advance stands held rfl rfl]
  apply settled
  · exact stands.publish (by omega) segment pos
  · exact stands.empty (i + 1) (Nat.lt_succ_self i)
  · exact Function.update_self ..

/-- or before that, -/
theorem returnsWithin_requested_made
    (stands : b.Stands i (i + 1) (i + 2) (i + 3) (some (i + 2)) 0)
    (next : j = i + 1) (held : callers 0 = .requested size i segment pos) :
    ReturnsWithin filesize k ⟨b, callers⟩ ↔ promised := by
  subst next
  have small := stands.small
  have making : b.making ≠ none := by simp [stands.making]
  have published : ReturnsWithin filesize k
      ⟨b.publish i segment pos, Function.update callers 0 (.looping size)⟩ ↔ promised :=
    returnsWithin_made settled exhausted (stands.publish (by omega) segment pos)
      (stands.empty (i + 1) (Nat.lt_succ_self i)) (Function.update_self ..)
  have installed : ReturnsWithin filesize k ⟨b.swapIn (i + 2), callers⟩ ↔ promised := by
    apply returnsWithin_swapIn stands (by simp [held]) exhausted
    intro done
    exact returnsWithin_requested_done settled exhausted done rfl held
  rw [returnsWithin_publish (fun a t => advance_or_install making) ⟨trivial, by simp⟩
    (fun _ => rfl) (step_install stands.running stands.making) stands.running held,
    published, installed, and_self]

/-- or before it is made. -/
theorem returnsWithin_requested_asked (stands : b.Stands i (i + 1) (i + 2) (i + 2) none 1)
    (next : j = i + 1) (held : callers 0 = .requested size i segment pos) :
    ReturnsWithin filesize k ⟨b, callers⟩ ↔ promised := by
  subst next
  have small := stands.small
  have asked : 0 < b.pending := by simp [stands.pending]
  have published : ReturnsWithin filesize k
      ⟨b.publish i segment pos, Function.update callers 0 (.looping size)⟩ ↔ promised :=
    returnsWithin_asked settled exhausted (stands.publish (by omega) segment pos)
      (stands.empty (i + 1) (Nat.lt_succ_self i)) (Function.update_self ..)
  have prepared : ReturnsWithin filesize k
      ⟨({ b with pending := b.pending - 1 } : SegmentedLogBuffer).makeSegment, callers⟩ ↔
        promised :=
    returnsWithin_requested_made settled exhausted stands.prepare rfl held
  rw [returnsWithin_publish (fun a t => advance_or_prepare stands.making) ⟨trivial, by simp⟩
    (fun _ => rfl) (step_prepare stands.running stands.making asked) stands.running held,
    published, prepared, and_self]

end Supply

/-- A turn comes to the point where the caller holds the current segment. -/
theorem returnsWithin_hold (stocked : b.Stocked i) (held : callers 0 = .looping size) :
    ReturnsWithin filesize k ⟨b, callers⟩ ↔
      0 < k ∧ ReturnsWithin filesize (k - 1) ⟨b, Function.update
        (Function.update callers 0 (.loaded size i)) 0 (.holding size i i)⟩ := by
  have stored := stocked.window.get (le_refl i) (by omega)
  have moved : advance filesize b (.loaded size i) = some (b, .holding size i i) := by
    simp [advance, stored]
  rw [returnsWithin_load stocked held,
    returnsWithin_advance stocked (Function.update_self ..) rfl moved]

/-- A segment that is held is not crossed where the region ends before its last place. -/
theorem returnsWithin_fit (stocked : b.Stocked i) (held : callers 0 = .looping size)
    (fits : b.offset i + size < lastPos filesize) (small : lastPos filesize < 2 ^ 64) :
    ReturnsWithin filesize k ⟨b, callers⟩ ↔ 0 < k := by
  have missed : ¬ b.Crosses filesize i size := by
    intro crosses
    have reached := crosses.2
    rw [wrap_eq (by omega)] at reached
    omega
  have within : ¬ lastPos filesize ≤ b.offset i := by omega
  have moved : advance filesize b (.holding size i i) =
      some (b.fetchAdd i size, .returned i (b.offset i)) := by
    simp [advance, missed, within]
  rw [returnsWithin_hold stocked held, and_iff_left_iff_imp]
  intro _
  rw [returnsWithin_advance stocked (Function.update_self ..) rfl moved]
  refine ⟨0, .of_goal ⟨i, b.offset i, by simp⟩ ?_⟩
  intro a inside
  cases taken : step filesize _ a with
  | none => rfl
  | some t =>
      obtain rfl := advance_of_quiet stocked.making stocked.pending inside taken
      simp [step, advance] at taken

/-- A segment without a place is found full in every turn. -/
theorem not_returnsWithin_full (none_ : lastPos filesize = 0) (stocked : b.Stocked i)
    (held : callers 0 = .looping size) : ¬ ReturnsWithin filesize k ⟨b, callers⟩ := by
  induction k generalizing b callers with
  | zero => simp [returnsWithin_hold stocked held]
  | succ k ih =>
      have missed : ¬ b.Crosses filesize i size := by simp [SegmentedLogBuffer.Crosses, none_]
      have moved : advance filesize b (.holding size i i) =
          some (b.fetchAdd i size, .looping size) := by
        simp [advance, missed, none_]
      rw [returnsWithin_hold stocked held, Nat.add_sub_cancel,
        returnsWithin_advance stocked (Function.update_self ..) rfl moved]
      simp only [Nat.succ_pos, true_and]
      exact ih (stocked.fetchAdd size) (Function.update_self ..)

/-- A turn in which the capacity is crossed leaves the rest to the next one. -/
theorem returnsWithin_cross {promised : Prop} (stocked : b.Stocked i)
    (held : callers 0 = .looping size) (crosses : b.Crosses filesize i size)
    (settled : ∀ b callers, SegmentedLogBuffer.Stocked b (i + 1) → b.offset (i + 1) = 0 →
      callers 0 = .looping size → (ReturnsWithin filesize k ⟨b, callers⟩ ↔ promised))
    (exhausted : 2 ^ 64 < i + 3 → ¬ promised) :
    ReturnsWithin filesize (k + 1) ⟨b, callers⟩ ↔ promised := by
  have moved : advance filesize b (.holding size i i) = some (b.fetchAdd i size,
      .crossed size i i (b.offset i) (decide (b.IsCurrent i))) := by
    simp [advance, crosses]
  have added := stocked.fetchAdd size
  have dropped := added.resetSlot (by omega)
  have requested := dropped.requestNextSegment
  rw [returnsWithin_hold stocked held, Nat.add_sub_cancel,
    returnsWithin_advance stocked (Function.update_self ..) rfl moved,
    returnsWithin_advance added (Function.update_self ..) rfl rfl,
    returnsWithin_advance dropped (Function.update_self ..) rfl rfl,
    returnsWithin_requested_asked settled exhausted requested rfl (Function.update_self ..)]
  exact and_iff_right (Nat.succ_pos k)

/-- A request that no segment has room for goes from one segment to the next. -/
theorem not_returnsWithin_whole (whole : size = lastPos filesize)
    (small : lastPos filesize < 2 ^ 63) (stocked : b.Stocked i)
    (within : b.offset i < lastPos filesize) (held : callers 0 = .looping size) :
    ¬ ReturnsWithin filesize k ⟨b, callers⟩ := by
  induction k generalizing b callers i with
  | zero => simp [returnsWithin_hold stocked held]
  | succ k ih =>
      have crosses : b.Crosses filesize i size := by
        refine ⟨within, ?_⟩
        rw [wrap_eq (by omega)]
        omega
      have next : ∀ b callers, SegmentedLogBuffer.Stocked b (i + 1) → b.offset (i + 1) = 0 →
          callers 0 = .looping size → (ReturnsWithin filesize k ⟨b, callers⟩ ↔ False) := by
        intro b callers stocked fresh held
        exact iff_of_false (ih stocked (by omega) held) not_false
      exact (returnsWithin_cross stocked held crosses next fun _ => not_false).not.mpr not_false

/-- The call returns within two turns if an empty segment has room for the request, unless the
    current one does not and the numbers of the segments are used up. -/
theorem returnsWithin_two_iff (small : lastPos filesize < 2 ^ 63) (stocked : b.Stocked i)
    (within : b.offset i < lastPos filesize ∨ lastPos filesize = 0)
    (accepted : 0 < lastPos filesize → size ≤ lastPos filesize)
    (held : callers 0 = .looping size) :
    ReturnsWithin filesize 2 ⟨b, callers⟩ ↔
      size < lastPos filesize ∧ (b.made < 2 ^ 64 ∨ b.offset i + size < lastPos filesize) := by
  rcases within with within | none_
  · by_cases fits : b.offset i + size < lastPos filesize
    · rw [returnsWithin_fit stocked held fits (by omega)]
      omega
    · have bounded := accepted (by omega)
      have crosses : b.Crosses filesize i size := by
        refine ⟨within, ?_⟩
        rw [wrap_eq (by omega)]
        omega
      have made := stocked.made
      have next : ∀ b' callers', SegmentedLogBuffer.Stocked b' (i + 1) → b'.offset (i + 1) = 0 →
          callers' 0 = .looping size → (ReturnsWithin filesize 1 ⟨b', callers'⟩ ↔
            size < lastPos filesize ∧ b.made < 2 ^ 64) := by
        intro b' callers' stocked' fresh held'
        have numbers := stocked'.small
        rcases lt_or_eq_of_le bounded with less | whole
        · rw [returnsWithin_fit stocked' held' (by omega) (by omega)]
          omega
        · refine iff_of_false ?_ (by omega)
          exact not_returnsWithin_whole whole small stocked' (by omega) held'
      rw [returnsWithin_cross stocked held crosses next (by omega)]
      simp [fits]
  · refine iff_of_false (not_returnsWithin_full none_ stocked held) ?_
    omega

/-- As long as the assertion has not failed, the buffer is what its only caller has made of it. -/
def Served (filesize : Nat) (s : LogSystem) : Prop :=
  s.buffer.aborted = true ∨ s.buffer.InLine filesize (s.callers 0)

theorem served_start (filesize : Nat) : Served filesize start := by
  have empty : Window (fun _ : Fin 3 => none) 0 0 := window_empty
  have stocked : SegmentedLogBuffer.start.Stocked 0 :=
    { running := rfl
      index := rfl
      empty := fun _ _ => rfl
      window := (empty.install (by decide)).install (by decide)
      small := by decide
      made := rfl
      making := rfl
      pending := rfl }
  exact .inr (.outside stocked (Nat.eq_zero_or_pos _).symm rfl)

theorem Served.inLine (served : Served filesize s) (taken : s.step filesize a = some t) :
    s.buffer.InLine filesize (s.callers 0) := by
  apply served.resolve_left
  intro aborted
  simp [LogSystem.step, aborted] at taken

/-- A call is made with the current segment and the next one in their slots. -/
theorem Served.called (served : Served filesize s)
    (taken : s.step filesize (.call 0 size) = some t) :
    t = ⟨s.buffer, Function.update s.callers 0 (reserve filesize size)⟩ ∧
      s.buffer.Stocked s.buffer.segmentIdx ∧
      (s.buffer.offset s.buffer.segmentIdx < lastPos filesize ∨ lastPos filesize = 0) := by
  have inLine := served.inLine taken
  cases step_cases taken with
  | call outside =>
      refine ⟨rfl, ?_⟩
      generalize s.callers 0 = caller at inLine outside
      cases inLine with
      | outside stocked within =>
          rw [stocked.index]
          exact ⟨stocked, within⟩
      | _ => cases outside

theorem Served.step (served : Served filesize s) (paced : s.Paced a)
    (taken : s.step filesize a = some t) : Served filesize t := by
  have inLine := served.inLine taken
  cases step_cases taken with
  | call outside =>
      obtain rfl := paced
      obtain ⟨-, stocked, within⟩ := served.called taken
      refine .inr ?_
      simp only [Function.update_self]
      unfold reserve
      split
      next => exact .outside stocked within rfl
      next => exact .looping (.inl stocked) within
  | advance moved =>
      obtain ⟨rfl, ready⟩ := paced
      refine .inr ?_
      simpa using inLine.advance ready moved
  | prepare idle asked => exact .inr (inLine.prepare idle asked)
  | install making => exact inLine.install making

/-- A request that `reserve` accepts goes into the loop. -/
theorem reserve_accepted (two : 2 ≤ filesize) (fits : filesize < 2 ^ 64)
    (accepted : size ≤ filesize - 1) : reserve filesize size = .looping size := by
  have last : wrap (filesize + (2 ^ 64 - 1)) = filesize - 1 := by
    unfold wrap
    omega
  rw [reserve, last, if_neg (Nat.not_lt.mpr accepted)]

end LogSystem

open LogSystem

/-- Where one thread calls `reserve`, whatever it has called it for before, the loop ends within
    two turns with a segment exactly if an empty segment has room for the request, and there is
    a number left for another segment where the current one has not. -/
theorem reserve_two_turns_iff {filesize size : Nat} {s t : LogSystem} (two : 2 ≤ filesize)
    (fits : filesize < 2 ^ 64) (accepted : size ≤ filesize - 1)
    (alone : Along (step filesize) Paced start as) (run : exec (step filesize) start as = some s)
    (called : s.step filesize (.call 0 size) = some t) :
    ReturnsWithin filesize 2 t ↔
      size + 1 < filesize ∧ filesize ≤ 2 ^ 63 ∧
        (s.buffer.made < 2 ^ 64 ∨
          s.buffer.offset s.buffer.segmentIdx + size + 1 < filesize) := by
  have served : Served filesize s :=
    exec_invariant_along (Served filesize) (fun s a t served paced taken => served.step paced taken)
      (served_start filesize) alone run
  obtain ⟨rfl, stocked, within⟩ := served.called called
  rw [reserve_accepted two fits accepted]
  have held : Function.update s.callers 0 (.looping size) 0 = .looping size :=
    Function.update_self ..
  by_cases mapped : filesize ≤ 2 ^ 63
  · have last : lastPos filesize = filesize - 1 := by
      rw [lastPos, segmentSize, if_pos ⟨by omega, mapped⟩]
    rw [returnsWithin_two_iff (by omega) stocked within (by omega) held, last]
    omega
  · have none_ : lastPos filesize = 0 := by
      rw [lastPos, segmentSize, if_neg (by omega)]
    refine iff_of_false (not_returnsWithin_full none_ stocked held) ?_
    omega

/-- A record of 100 bytes goes into an empty file of 4096. -/
theorem reserve_two_turns_record :
    ∃ t, start.step 4096 (.call 0 100) = some t ∧ ReturnsWithin 4096 2 t := by
  have alone : Along (step 4096) Paced start [] := trivial
  have run : exec (step 4096) start [] = some start := rfl
  refine ⟨_, rfl, ?_⟩
  apply (reserve_two_turns_iff (by decide) (by decide) (by decide) alone run rfl).mpr
  decide

/-- The greatest request that is accepted does not come to an end in any number of turns. -/
theorem greatest_request_loops :
    ∃ t, start.step 4096 (.call 0 4095) = some t ∧ ∀ k, ¬ ReturnsWithin 4096 k t := by
  refine ⟨_, rfl, ?_⟩
  intro k
  have called : start.step 4096 (.call 0 4095) = some _ := rfl
  obtain ⟨-, stocked, -⟩ := (served_start 4096).called called
  exact not_returnsWithin_whole (by decide) (by decide) stocked (by decide)
    (Function.update_self ..)

end VanillaRtb.Auditor
