import VanillaRtb.Auditor.SegmentedLogBuffer

/-! # The order in which the segments are used

As long as the requests that cross a capacity act on the segment of the index they loaded,
there is one of them at a time. The slots then hold consecutive segments, of which the
oldest is the current one, and the index goes up by one as the segment behind it is dropped.
A request that crosses the capacity of another segment spoils that before it is done.
-/

namespace VanillaRtb.Auditor

open Lib Lib.SlotRing

variable {filesize : Nat} {b b' : SegmentedLogBuffer} {caller caller' : Caller}

/-- What a step of a caller can do. -/
inductive Advance (filesize : Nat) (b : SegmentedLogBuffer) :
    Caller → SegmentedLogBuffer → Caller → Prop where
  | load : Advance filesize b (.looping size) b (.loaded size b.segmentIdx)
  | miss (absent : b.segments (slotOf idx) = none) :
      Advance filesize b (.loaded size idx) b (.looping size)
  | copy {segment : Nat} (there : b.segments (slotOf idx) = some segment) :
      Advance filesize b (.loaded size idx) b (.holding size idx segment)
  | cross {segment : Nat} (crosses : b.Crosses filesize segment size) :
      Advance filesize b (.holding size idx segment) (b.fetchAdd segment size)
        (.crossed size idx segment (b.offset segment) (decide (b.IsCurrent segment)))
  | full {segment : Nat} (missed : ¬ b.Crosses filesize segment size)
      (behind : lastPos filesize ≤ b.offset segment) :
      Advance filesize b (.holding size idx segment) (b.fetchAdd segment size) (.looping size)
  | fit {segment : Nat} (missed : ¬ b.Crosses filesize segment size)
      (within : b.offset segment < lastPos filesize) :
      Advance filesize b (.holding size idx segment) (b.fetchAdd segment size)
        (.returned segment (b.offset segment))
  | drop {segment : Nat} :
      Advance filesize b (.crossed size idx segment pos current) (b.resetSlot idx)
        (.dropped size idx segment pos)
  | request {segment : Nat} :
      Advance filesize b (.dropped size idx segment pos) b.requestNextSegment
        (.requested size idx segment pos)
  | publish {segment : Nat} :
      Advance filesize b (.requested size idx segment pos) (b.publish idx segment pos)
        (.looping size)

theorem advance_cases (moved : advance filesize b caller = some (b', caller')) :
    Advance filesize b caller b' caller' := by
  cases caller with
  | idle => cases moved
  | threw what => cases moved
  | returned segment pos => cases moved
  | looping size =>
      cases moved
      exact .load
  | loaded size idx =>
      simp only [advance] at moved
      cases there : b.segments (slotOf idx) with
      | none =>
          rw [there] at moved
          cases moved
          exact .miss there
      | some segment =>
          rw [there] at moved
          cases moved
          exact .copy there
  | holding size idx segment =>
      simp only [advance] at moved
      split at moved
      next crosses =>
        cases moved
        exact .cross crosses
      next missed =>
        split at moved
        next behind =>
          cases moved
          exact .full missed behind
        next within =>
          cases moved
          exact .fit missed (Nat.not_le.mp within)
  | crossed size idx segment pos current =>
      cases moved
      exact .drop
  | dropped size idx segment pos =>
      cases moved
      exact .request
  | requested size idx segment pos =>
      cases moved
      exact .publish

namespace SegmentedLogBuffer

/-- The first segment that has not been put into its slot. -/
def installed (b : SegmentedLogBuffer) : Nat := b.making.getD b.made

/-- The segments are in use one after the other: the requests that were posted are those of the
    segments dropped, and up to the current one each has been filled. -/
structure Rotates (filesize : Nat) (b : SegmentedLogBuffer) (stage : Nat) : Prop where
  running : b.aborted = false
  bounded : b.made < 2 ^ 64
  making : ∀ segment, b.making = some segment → segment + 1 = b.made
  requests : b.made + b.pending = b.segmentIdx + 2 + if stage = 3 then 1 else 0
  window : Window b.segments (b.segmentIdx + if 2 ≤ stage then 1 else 0) b.installed
  filled : ∀ segment, segment < b.segmentIdx ∨ segment = b.segmentIdx ∧ 0 < stage →
    lastPos filesize ≤ b.offset segment

/-- What a caller knows of the buffer. -/
def Fits (b : SegmentedLogBuffer) : Caller → Prop
  | .loaded _ idx => idx ≤ b.segmentIdx
  | .holding _ idx segment =>
      idx ≤ b.segmentIdx ∧ idx ≤ segment ∧ slotOf idx = slotOf segment ∧ segment < b.installed
  | .crossed _ idx segment _ current =>
      idx = segment ∧ idx = b.segmentIdx ∧ segment < b.installed ∧ current = true
  | .dropped _ idx segment _ | .requested _ idx segment _ =>
      idx = segment ∧ idx = b.segmentIdx ∧ segment < b.installed
  | _ => True

variable {stage others segment size pos : Nat}

theorem Rotates.installed_le (rotates : Rotates filesize b stage) : b.installed ≤ b.made := by
  cases preparing : b.making with
  | none => rw [installed, preparing, Option.getD_none]
  | some segment =>
      rw [installed, preparing, Option.getD_some, ← rotates.making segment preparing]
      exact Nat.le_succ segment

theorem Fits.mono (fits : Fits b caller) (later : b.segmentIdx ≤ b'.segmentIdx)
    (same : 0 < caller.stage → b'.segmentIdx = b.segmentIdx) (more : b.installed ≤ b'.installed) :
    Fits b' caller := by
  cases caller with
  | idle => trivial
  | threw what => trivial
  | returned segment pos => trivial
  | looping size => trivial
  | loaded size idx => exact le_trans fits later
  | holding size idx segment =>
      obtain ⟨reached, behind, aligned, below⟩ := fits
      exact ⟨le_trans reached later, behind, aligned, lt_of_lt_of_le below more⟩
  | crossed size idx segment pos current =>
      obtain ⟨own, here, below, noted⟩ := fits
      exact ⟨own, here.trans (same Nat.one_pos).symm, lt_of_lt_of_le below more, noted⟩
  | dropped size idx segment pos =>
      obtain ⟨own, here, below⟩ := fits
      exact ⟨own, here.trans (same Nat.two_pos).symm, lt_of_lt_of_le below more⟩
  | requested size idx segment pos =>
      obtain ⟨own, here, below⟩ := fits
      exact ⟨own, here.trans (same (Nat.succ_pos 2)).symm, lt_of_lt_of_le below more⟩

/-- An offset that does not exceed 64 bits only goes up. -/
theorem filled_fetchAdd (small : b.offset segment + size < 2 ^ 64)
    (filled : lastPos filesize ≤ b.offset m) :
    lastPos filesize ≤ (b.fetchAdd segment size).offset m := by
  simp only [fetchAdd]
  by_cases here : m = segment
  · subst here
    rw [Function.update_self, wrap_eq small]
    omega
  · rw [Function.update_of_ne here]
    exact filled

theorem Rotates.fetchAdd (rotates : Rotates filesize b stage)
    (small : b.offset segment + size < 2 ^ 64) :
    Rotates filesize (b.fetchAdd segment size) stage where
  running := rotates.running
  bounded := rotates.bounded
  making := rotates.making
  requests := rotates.requests
  window := rotates.window
  filled m before := filled_fetchAdd small (rotates.filled m before)

/-- A segment whose capacity is crossed was not filled before. -/
theorem Rotates.cross_current (rotates : Rotates filesize b stage)
    (crosses : b.Crosses filesize segment size) (reached : segment ≤ b.segmentIdx) :
    segment = b.segmentIdx ∧ stage = 0 := by
  have unfilled : ¬ (segment < b.segmentIdx ∨ segment = b.segmentIdx ∧ 0 < stage) := by
    intro before
    exact absurd crosses.1 (Nat.not_lt.mpr (rotates.filled segment before))
  omega

/-- The request that crosses the capacity of the current segment is the first to do so. -/
theorem Rotates.cross (rotates : Rotates filesize b 0)
    (crosses : b.Crosses filesize b.segmentIdx size)
    (small : b.offset b.segmentIdx + size < 2 ^ 64) :
    Rotates filesize (b.fetchAdd b.segmentIdx size) 1 := by
  have added := rotates.fetchAdd small
  refine ⟨added.running, added.bounded, added.making, added.requests, added.window, ?_⟩
  rintro m (before | ⟨last, _⟩)
  · exact added.filled m (.inl before)
  · obtain rfl : m = b.segmentIdx := last
    simp only [SegmentedLogBuffer.fetchAdd, Function.update_self]
    exact crosses.2

/-- What was filled stays so while the request goes from one stage to another. -/
theorem Rotates.filled_of_stage (rotates : Rotates filesize b (stage + 1)) (segment : Nat)
    (before : segment < b.segmentIdx ∨ segment = b.segmentIdx ∧ 0 < others) :
    lastPos filesize ≤ b.offset segment := by
  apply rotates.filled segment
  exact before.imp_right fun last => ⟨last.1, Nat.succ_pos stage⟩

theorem Rotates.drop (rotates : Rotates filesize b 1) (below : b.segmentIdx < b.installed) :
    Rotates filesize (b.resetSlot b.segmentIdx) 2 where
  running := rotates.running
  bounded := rotates.bounded
  making := rotates.making
  requests := rotates.requests
  window := rotates.window.drop below
  filled := rotates.filled_of_stage

theorem Rotates.request (rotates : Rotates filesize b 2) :
    Rotates filesize b.requestNextSegment 3 where
  running := rotates.running
  bounded := rotates.bounded
  making := rotates.making
  requests := congrArg (· + 1) rotates.requests
  window := rotates.window
  filled := rotates.filled_of_stage

theorem Rotates.publish_next (rotates : Rotates filesize b stage)
    (below : b.segmentIdx < b.installed) : wrap (b.segmentIdx + 1) = b.segmentIdx + 1 := by
  refine wrap_eq (lt_of_le_of_lt ?_ rotates.bounded)
  exact Nat.succ_le_of_lt (lt_of_lt_of_le below rotates.installed_le)

theorem Rotates.publish (rotates : Rotates filesize b 3) (below : b.segmentIdx < b.installed) :
    Rotates filesize (b.publish b.segmentIdx segment pos) 0 := by
  have next : (b.publish b.segmentIdx segment pos).segmentIdx = b.segmentIdx + 1 :=
    rotates.publish_next below
  refine ⟨rotates.running, rotates.bounded, rotates.making, ?_, ?_, ?_⟩
  · rw [next]
    have requests : b.made + b.pending = b.segmentIdx + 2 + 1 := rotates.requests
    change b.made + b.pending = b.segmentIdx + 1 + 2 + 0
    omega
  · rw [next]
    exact rotates.window
  · rw [next]
    rintro m (before | ⟨_, none⟩)
    · rcases Nat.lt_succ_iff_lt_or_eq.mp before with before | here
      · exact rotates.filled m (.inl before)
      · exact rotates.filled m (.inr ⟨here, Nat.succ_pos 2⟩)
    · exact absurd none (Nat.lt_irrefl 0)

/-- A step of a caller, next to others of which at most one is in a stage. -/
theorem Rotates.advance (rotates : Rotates filesize b (caller.stage + others))
    (alone : caller.stage = 0 ∨ others = 0) (fits : Fits b caller)
    (own : ∀ size idx segment, caller = .holding size idx segment →
      b.Crosses filesize segment size → wrap segment = idx)
    (small : ∀ size idx segment, caller = .holding size idx segment →
      b.offset segment + size < 2 ^ 64)
    (moved : Advance filesize b caller b' caller') :
    Rotates filesize b' (caller'.stage + others) ∧ (caller'.stage = 0 ∨ others = 0) ∧
      Fits b' caller' := by
  cases moved with
  | load => exact ⟨rotates, .inl rfl, le_refl b.segmentIdx⟩
  | miss absent => exact ⟨rotates, .inl rfl, trivial⟩
  | copy there =>
      obtain ⟨aligned, above, below⟩ := (rotates.window.stored_iff _ _).mp there
      have reached : _ ≤ b.segmentIdx := fits
      refine ⟨rotates, .inl rfl, reached, ?_, aligned, below⟩
      exact le_trans reached (le_trans (Nat.le_add_right _ _) above)
  | @cross size idx segment crosses =>
      obtain ⟨reached, behind, aligned, below⟩ := fits
      have numbered : wrap segment = segment :=
        wrap_eq (lt_of_lt_of_le below (le_trans rotates.installed_le rotates.bounded.le))
      obtain rfl : segment = idx := numbered ▸ own size idx segment rfl crosses
      obtain ⟨rfl, first⟩ := rotates.cross_current crosses reached
      obtain rfl : others = 0 := (Nat.add_eq_zero_iff.mp first).2
      refine ⟨rotates.cross crosses (small size _ _ rfl), .inr rfl, rfl, rfl, below, ?_⟩
      rw [decide_eq_true_iff, IsCurrent, numbered]
  | full missed behind => exact ⟨rotates.fetchAdd (small _ _ _ rfl), .inl rfl, trivial⟩
  | fit missed within => exact ⟨rotates.fetchAdd (small _ _ _ rfl), .inl rfl, trivial⟩
  | drop =>
      obtain ⟨rfl, rfl, below, noted⟩ := fits
      obtain rfl : others = 0 := alone.resolve_left Nat.one_ne_zero
      exact ⟨rotates.drop below, .inr rfl, rfl, rfl, below⟩
  | request =>
      obtain ⟨rfl, rfl, below⟩ := fits
      obtain rfl : others = 0 := alone.resolve_left (Nat.succ_ne_zero _)
      exact ⟨rotates.request, .inr rfl, rfl, rfl, below⟩
  | publish =>
      obtain ⟨rfl, rfl, below⟩ := fits
      obtain rfl : others = 0 := alone.resolve_left (Nat.succ_ne_zero _)
      exact ⟨rotates.publish below, .inl rfl, trivial⟩

theorem Rotates.makeSegment (rotates : Rotates filesize b stage) (idle : b.making = none)
    (asked : 0 < b.pending) (small : b.made + 1 < 2 ^ 64) :
    Rotates filesize ({ b with pending := b.pending - 1 } : SegmentedLogBuffer).makeSegment stage
    where
  running := rotates.running
  bounded := small
  making segment preparing := by
    cases preparing
    rfl
  requests := by
    have := rotates.requests
    change b.made + 1 + (b.pending - 1) = b.segmentIdx + 2 + _
    omega
  window := by
    have window := rotates.window
    rw [installed, idle, Option.getD_none] at window
    exact window
  filled := rotates.filled

/-- The segment made for a request finds its slot empty. -/
theorem Rotates.slot_free (rotates : Rotates filesize b stage) (making : b.making = some segment) :
    wrap segment = segment ∧ b.segments (slotOf (wrap segment)) = none := by
  have last := rotates.making segment making
  have same : wrap segment = segment := by
    refine wrap_eq (lt_of_le_of_lt ?_ rotates.bounded)
    exact last ▸ Nat.le_succ segment
  refine ⟨same, ?_⟩
  have window := rotates.window
  rw [installed, making, Option.getD_some] at window
  rw [same]
  apply window.free
  have := rotates.requests
  split at this <;> split <;> omega

theorem swapIn_free (free : b.segments (slotOf (wrap segment)) = none) :
    b.swapIn segment = { b with
      segments := Function.update b.segments (slotOf (wrap segment)) (some segment)
      making := none } := by
  rw [swapIn, free]

theorem Rotates.swapIn (rotates : Rotates filesize b stage) (making : b.making = some segment) :
    Rotates filesize (b.swapIn segment) stage := by
  obtain ⟨same, free⟩ := rotates.slot_free making
  have last := rotates.making segment making
  rw [swapIn_free free, same]
  refine ⟨rotates.running, rotates.bounded, ?_, rotates.requests, ?_, rotates.filled⟩
  · intro m preparing
    cases preparing
  · have window := rotates.window
    rw [installed, making, Option.getD_some] at window
    rw [installed, Option.getD_none, ← last]
    have := rotates.requests
    apply window.install
    split at this <;> split <;> omega

/-- What the other callers know of the buffer does not depend on the step. -/
theorem Rotates.advance_others (rotates : Rotates filesize b stage) (fits : Fits b caller)
    (moved : Advance filesize b caller b' caller') :
    b'.installed = b.installed ∧ b.segmentIdx ≤ b'.segmentIdx ∧
      (caller.stage = 0 → b'.segmentIdx = b.segmentIdx) := by
  cases moved with
  | load => exact ⟨rfl, le_rfl, fun _ => rfl⟩
  | miss absent => exact ⟨rfl, le_rfl, fun _ => rfl⟩
  | copy there => exact ⟨rfl, le_rfl, fun _ => rfl⟩
  | cross crosses => exact ⟨rfl, le_rfl, fun _ => rfl⟩
  | full missed behind => exact ⟨rfl, le_rfl, fun _ => rfl⟩
  | fit missed within => exact ⟨rfl, le_rfl, fun _ => rfl⟩
  | drop => exact ⟨rfl, le_rfl, fun _ => rfl⟩
  | request => exact ⟨rfl, le_rfl, fun _ => rfl⟩
  | publish =>
      obtain ⟨rfl, rfl, below⟩ := fits
      refine ⟨rfl, ?_, ?_⟩
      · exact le_of_le_of_eq (Nat.le_succ _) (rotates.publish_next below).symm
      · intro outside
        cases outside

/-- A segment leaves its slot only as the current one, and by the request that crossed it. -/
theorem Rotates.advance_kept (rotates : Rotates filesize b (caller.stage + others))
    (alone : caller.stage = 0 ∨ others = 0) (fits : Fits b caller)
    (moved : Advance filesize b caller b' caller') (stored : b.segments j = some segment) :
    b'.segments j = some segment ∨ ∃ size idx pos, caller = .crossed size idx segment pos true := by
  cases moved with
  | load => exact .inl stored
  | miss absent => exact .inl stored
  | copy there => exact .inl stored
  | cross crosses => exact .inl stored
  | full missed behind => exact .inl stored
  | fit missed within => exact .inl stored
  | request => exact .inl stored
  | publish => exact .inl stored
  | @drop size idx pos current m =>
      obtain ⟨rfl, rfl, below, rfl⟩ := fits
      obtain rfl : others = 0 := alone.resolve_left Nat.one_ne_zero
      by_cases here : j = slotOf b.segmentIdx
      · rw [here, rotates.window.get (le_refl b.segmentIdx) below] at stored
        cases stored
        exact .inr ⟨size, b.segmentIdx, pos, rfl⟩
      · refine .inl ?_
        simp only [resetSlot, Function.update_of_ne here]
        exact stored

end SegmentedLogBuffer

namespace LogSystem

variable {s t : LogSystem} {a : LogAction}

/-- What a step of the system can do. -/
inductive Step (filesize : Nat) (s : LogSystem) : LogAction → LogSystem → Prop where
  | call (outside : (s.callers c).isOutside = true) :
      Step filesize s (.call c size)
        ⟨s.buffer, Function.update s.callers c (reserve filesize size)⟩
  | advance {after : SegmentedLogBuffer} {next : Caller}
      (moved : Advance filesize s.buffer (s.callers c) after next) :
      Step filesize s (.advance c) ⟨after, Function.update s.callers c next⟩
  | prepare (idle : s.buffer.making = none) (asked : 0 < s.buffer.pending) :
      Step filesize s .prepare
        ⟨({ s.buffer with pending := s.buffer.pending - 1 } : SegmentedLogBuffer).makeSegment,
          s.callers⟩
  | install {segment : Nat} (making : s.buffer.making = some segment) :
      Step filesize s .install ⟨s.buffer.swapIn segment, s.callers⟩

theorem step_cases (taken : s.step filesize a = some t) : Step filesize s a t := by
  unfold step at taken
  split at taken
  next => cases taken
  next =>
    cases a with
    | call c size =>
        simp only at taken
        split at taken
        next outside =>
          cases taken
          exact .call outside
        next => cases taken
    | advance c =>
        obtain ⟨⟨b', caller'⟩, moved, same⟩ := Option.map_eq_some_iff.mp taken
        cases same
        exact .advance (advance_cases moved)
    | prepare =>
        simp only at taken
        split at taken
        next ready =>
          cases taken
          exact .prepare ready.1 ready.2
        next => cases taken
    | install =>
        obtain ⟨segment, making, same⟩ := Option.map_eq_some_iff.mp taken
        cases same
        exact .install making

/-- At most one request is between crossing a capacity and publishing the next segment, and the
    buffer is as that request has left it. -/
def InRotation (filesize : Nat) (s : LogSystem) : Prop :=
  ∃ c, (∀ d, d ≠ c → (s.callers d).stage = 0) ∧
    s.buffer.Rotates filesize (s.callers c).stage ∧ ∀ d, s.buffer.Fits (s.callers d)

theorem inRotation_start (filesize : Nat) : InRotation filesize start := by
  refine ⟨0, fun d _ => rfl, ?_, fun d => trivial⟩
  have stocked : Window SegmentedLogBuffer.start.segments 0 2 :=
    have none : Window (fun _ : Fin 3 => none) 0 0 := window_empty
    (none.install (by decide)).install (by decide)
  refine ⟨rfl, by decide, ?_, rfl, stocked, ?_⟩
  · intro segment making
    cases making
  · rintro segment (before | ⟨_, crossing⟩)
    · exact absurd before (Nat.not_lt_zero segment)
    · exact absurd crossing (Nat.lt_irrefl 0)

/-- Whatever caller is looked at, the others are in a stage of their own or not in any. -/
theorem InRotation.beside (turning : InRotation filesize s) (d : Nat) :
    ∃ others, s.buffer.Rotates filesize ((s.callers d).stage + others) ∧
      ((s.callers d).stage = 0 ∨ others = 0) := by
  obtain ⟨c, alone, rotates, _⟩ := turning
  by_cases same : d = c
  · exact ⟨0, same ▸ rotates, .inr rfl⟩
  · refine ⟨(s.callers c).stage, ?_, .inl (alone d same)⟩
    rw [alone d same, Nat.zero_add]
    exact rotates

theorem InRotation.fits (turning : InRotation filesize s) (d : Nat) :
    s.buffer.Fits (s.callers d) := by
  obtain ⟨_, _, _, fits⟩ := turning
  exact fits d

/-- The callers beside the one that moves know as much of the buffer as before. -/
theorem InRotation.advance_fits (turning : InRotation filesize s)
    (moved : Advance filesize s.buffer (s.callers d) b' caller') (fit : b'.Fits caller')
    (e : Nat) : b'.Fits (Function.update s.callers d caller' e) := by
  obtain ⟨c, alone, rotates, fits⟩ := turning
  by_cases here : e = d
  · subst here
    rw [Function.update_self]
    exact fit
  · rw [Function.update_of_ne here]
    obtain ⟨more, later, same⟩ := rotates.advance_others (fits d) moved
    refine (fits e).mono later ?_ more.ge
    intro inside
    apply same
    have here' : e = c := by
      by_contra other
      exact inside.ne' (alone e other)
    exact alone d fun same => here (here'.trans same.symm)

section Advance

variable (turning : InRotation filesize s)
  (own : ∀ size idx segment, s.callers d = .holding size idx segment →
    s.buffer.Crosses filesize segment size → wrap segment = idx)
  (small : ∀ size idx segment, s.callers d = .holding size idx segment →
    s.buffer.offset segment + size < 2 ^ 64)
  (moved : Advance filesize s.buffer (s.callers d) b' caller')

include turning own small moved

theorem InRotation.advance :
    InRotation filesize ⟨b', Function.update s.callers d caller'⟩ := by
  obtain ⟨c, alone, rotates, fits⟩ := id turning
  by_cases same : d = c
  · subst same
    obtain ⟨rotates', _, fit⟩ :=
      SegmentedLogBuffer.Rotates.advance rotates (.inr rfl) (fits d) own small moved
    refine ⟨d, ?_, ?_, turning.advance_fits moved fit⟩
    · intro e other
      simp only [Function.update_of_ne other]
      exact alone e other
    · simp only [Function.update_self]
      exact rotates'
  · have outside := alone d same
    have beside : s.buffer.Rotates filesize ((s.callers d).stage + (s.callers c).stage) := by
      rw [outside, Nat.zero_add]
      exact rotates
    obtain ⟨rotates', single, fit⟩ := beside.advance (.inl outside) (fits d) own small moved
    rcases single with done | quiet
    · refine ⟨c, ?_, ?_, turning.advance_fits moved fit⟩
      · intro e other
        by_cases here : e = d
        · simp only [here, Function.update_self]
          exact done
        · simp only [Function.update_of_ne here]
          exact alone e other
      · simp only [Function.update_of_ne (Ne.symm same)]
        rw [done, Nat.zero_add] at rotates'
        exact rotates'
    · refine ⟨d, ?_, ?_, turning.advance_fits moved fit⟩
      · intro e other
        simp only [Function.update_of_ne other]
        by_cases here : e = c
        · rw [here]
          exact quiet
        · exact alone e here
      · simp only [Function.update_self]
        rw [quiet, Nat.add_zero] at rotates'
        exact rotates'

theorem InRotation.advance_inTurn :
    InTurn s (.advance d) ⟨b', Function.update s.callers d caller'⟩ := by
  obtain ⟨others, rotates, single⟩ := turning.beside d
  have fits := turning.fits d
  refine ⟨(rotates.advance_others fits moved).2.1, ?_, ?_⟩
  · exact (rotates.advance single fits own small moved).1.running
  · intro j segment stored
    rcases rotates.advance_kept single fits moved stored with kept | ⟨size, idx, pos, crossed⟩
    · exact .inl kept
    · exact .inr ⟨d, size, idx, pos, rfl, crossed⟩

end Advance

theorem reserve_stage (filesize size : Nat) : (reserve filesize size).stage = 0 := by
  unfold reserve
  split <;> rfl

theorem reserve_fits (b : SegmentedLogBuffer) (filesize size : Nat) :
    b.Fits (reserve filesize size) := by
  unfold reserve
  split <;> trivial

theorem stage_of_isOutside (outside : caller.isOutside = true) : caller.stage = 0 := by
  cases caller <;> first | rfl | cases outside

theorem InRotation.call (turning : InRotation filesize s)
    (outside : (s.callers c).isOutside = true) :
    InRotation filesize ⟨s.buffer, Function.update s.callers c (reserve filesize size)⟩ := by
  obtain ⟨d, alone, rotates, fits⟩ := turning
  have stages (e : Nat) : (Function.update s.callers c (reserve filesize size) e).stage =
      (s.callers e).stage := by
    by_cases here : e = c
    · rw [here, Function.update_self, reserve_stage, stage_of_isOutside outside]
    · rw [Function.update_of_ne here]
  refine ⟨d, ?_, ?_, ?_⟩
  · intro e other
    rw [stages]
    exact alone e other
  · rw [stages]
    exact rotates
  · intro e
    by_cases here : e = c
    · simp only [here, Function.update_self]
      exact reserve_fits s.buffer filesize size
    · simp only [Function.update_of_ne here]
      exact fits e

/-- What the service thread does changes nothing that the callers know. -/
theorem InRotation.service (turning : InRotation filesize s)
    (same : b'.segmentIdx = s.buffer.segmentIdx) (more : s.buffer.installed ≤ b'.installed)
    (rotates' : ∀ stage, s.buffer.Rotates filesize stage → b'.Rotates filesize stage) :
    InRotation filesize ⟨b', s.callers⟩ := by
  obtain ⟨c, alone, rotates, fits⟩ := turning
  refine ⟨c, alone, rotates' _ rotates, ?_⟩
  intro d
  exact (fits d).mono same.ge (fun _ => same) more

/-- Where the counters do not wrap and the request that crosses a capacity has its own index,
    each step is in turn, and the rotation goes on. -/
theorem InRotation.step (turning : InRotation filesize s)
    (small : unwrapped s a = true) (own : ownIndex filesize s a = true)
    (taken : s.step filesize a = some t) : InRotation filesize t ∧ InTurn s a t := by
  obtain ⟨c, alone, rotates, fits⟩ := id turning
  cases step_cases taken with
  | call outside =>
      exact ⟨turning.call outside, le_rfl, rotates.running, fun j segment stored => .inl stored⟩
  | @advance c b' caller' moved =>
      have own (size idx segment : Nat) (held : s.callers c = .holding size idx segment) :
          s.buffer.Crosses filesize segment size → wrap segment = idx := by
        rw [ownIndex, held] at own
        exact of_decide_eq_true own
      have small (size idx segment : Nat) (held : s.callers c = .holding size idx segment) :
          s.buffer.offset segment + size < 2 ^ 64 := by
        rw [unwrapped, held] at small
        exact of_decide_eq_true small
      exact ⟨turning.advance own small moved, turning.advance_inTurn own small moved⟩
  | prepare idle asked =>
      have small := of_decide_eq_true small
      refine ⟨turning.service rfl ?_ ?_, le_rfl, rotates.running, fun j m stored => .inl stored⟩
      · rw [SegmentedLogBuffer.installed, idle]
        exact le_rfl
      · intro stage rotates
        exact rotates.makeSegment idle asked small
  | @install segment making =>
      obtain ⟨same, free⟩ := rotates.slot_free making
      have added := rotates.swapIn making
      refine ⟨turning.service ?_ ?_ ?_, ?_, added.running, ?_⟩
      · rw [SegmentedLogBuffer.swapIn_free free]
      · rw [SegmentedLogBuffer.swapIn_free free, SegmentedLogBuffer.installed, making]
        exact rotates.making segment making ▸ Nat.le_succ segment
      · intro stage rotates
        exact rotates.swapIn making
      · rw [SegmentedLogBuffer.swapIn_free free]
      · intro j m stored
        refine .inl ?_
        have other : j ≠ slotOf (wrap segment) := by
          intro here
          rw [here, free] at stored
          cases stored
        simp only [SegmentedLogBuffer.swapIn_free free, Function.update_of_ne other]
        exact stored

end LogSystem

end VanillaRtb.Auditor
