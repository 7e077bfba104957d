import VanillaRtb.Auditor.Rotation

/-! # Requests that act on the segment of another index

A caller that stops between loading the index and looking into the slot may find a later
segment there. If its request then crosses the capacity of that segment, the segment is
dropped before its time, or the index is set back to where the caller has found it, once the
request is done.
-/

namespace VanillaRtb.Auditor

open Lib Lib.SlotRing

variable {filesize : Nat} {b b' : SegmentedLogBuffer} {caller caller' : Caller}
  {s t : LogSystem} {a : LogAction} {segment : Nat}

/-- The segment a caller holds has been made, and one that it has found to be the current one is
    not ahead of the index. -/
def SegmentedLogBuffer.Knows (b : SegmentedLogBuffer) : Caller → Prop
  | .holding _ _ segment => segment < b.made
  | .crossed _ _ segment _ current => current = true → segment ≤ b.segmentIdx
  | _ => True

/-- What holds after any steps in turn, whether or not the segments rotate. -/
structure LogSystem.Numbered (s : LogSystem) : Prop where
  bounded : s.buffer.made < 2 ^ 64
  making : ∀ segment, s.buffer.making = some segment → segment < s.buffer.made
  stored : ∀ j segment, s.buffer.segments j = some segment → segment < s.buffer.made
  knows : ∀ c, s.buffer.Knows (s.callers c)

namespace SegmentedLogBuffer

theorem Fits.knows (fits : Fits b caller) (made : b.installed ≤ b.made) : b.Knows caller := by
  cases caller with
  | holding size idx segment => exact lt_of_lt_of_le fits.2.2.2 made
  | crossed size idx segment pos current =>
      intro _
      exact (fits.1.symm.trans fits.2.1).le
  | _ => trivial

theorem Knows.mono (knows : b.Knows caller) (more : b.made ≤ b'.made)
    (later : b.segmentIdx ≤ b'.segmentIdx) : b'.Knows caller := by
  cases caller with
  | holding size idx segment => exact lt_of_lt_of_le knows more
  | crossed size idx segment pos current =>
      intro noted
      exact le_trans (knows noted) later
  | _ => trivial

end SegmentedLogBuffer

/-- A step of a caller makes no segment and puts none into a slot. -/
theorem Advance.shared (moved : Advance filesize b caller b' caller') :
    b'.made = b.made ∧ b'.making = b.making ∧
      ∀ j m, b'.segments j = some m → b.segments j = some m := by
  cases moved with
  | @drop size idx pos current segment =>
      refine ⟨rfl, rfl, ?_⟩
      intro j m stored
      by_cases here : j = slotOf idx
      · simp only [SegmentedLogBuffer.resetSlot, here, Function.update_self] at stored
        cases stored
      · simp only [SegmentedLogBuffer.resetSlot, Function.update_of_ne here] at stored
        exact stored
  | _ => exact ⟨rfl, rfl, fun j m stored => stored⟩

theorem Advance.knows (moved : Advance filesize b caller b' caller') (bounded : b.made < 2 ^ 64)
    (stored : ∀ j m, b.segments j = some m → m < b.made) (knows : b.Knows caller) :
    b'.Knows caller' := by
  cases moved with
  | copy there => exact stored _ _ there
  | cross crosses =>
      intro noted
      have here := of_decide_eq_true noted
      rw [SegmentedLogBuffer.IsCurrent, wrap_eq (lt_trans knows bounded)] at here
      exact here.ge
  | _ => trivial

namespace LogSystem

theorem InRotation.numbered (turning : InRotation filesize s) : Numbered s := by
  obtain ⟨c, alone, rotates, fits⟩ := turning
  refine ⟨rotates.bounded, ?_, ?_, fun d => (fits d).knows rotates.installed_le⟩
  · intro segment making
    exact rotates.making segment making ▸ Nat.lt_succ_self segment
  · intro j segment stored
    obtain ⟨_, _, below⟩ := (rotates.window.stored_iff j segment).mp stored
    exact lt_of_lt_of_le below rotates.installed_le

theorem Numbered.step (numbered : Numbered s) (small : unwrapped s a = true)
    (later : s.buffer.segmentIdx ≤ t.buffer.segmentIdx) (taken : s.step filesize a = some t) :
    Numbered t := by
  cases step_cases taken with
  | @call c size outside =>
      refine ⟨numbered.bounded, numbered.making, numbered.stored, ?_⟩
      intro d
      by_cases here : d = c
      · simp only [here, Function.update_self, reserve]
        split <;> trivial
      · simp only [Function.update_of_ne here]
        exact numbered.knows d
  | @advance c b' caller' moved =>
      obtain ⟨made, making, fewer⟩ := moved.shared
      refine ⟨?_, ?_, ?_, ?_⟩
      · exact lt_of_eq_of_lt made numbered.bounded
      · intro segment preparing
        exact lt_of_lt_of_eq (numbered.making segment (making ▸ preparing)) made.symm
      · intro j segment stored
        exact lt_of_lt_of_eq (numbered.stored j segment (fewer j segment stored)) made.symm
      · intro d
        by_cases here : d = c
        · simp only [here, Function.update_self]
          exact moved.knows numbered.bounded numbered.stored (numbered.knows c)
        · simp only [Function.update_of_ne here]
          exact (numbered.knows d).mono made.ge later
  | prepare idle asked =>
      refine ⟨of_decide_eq_true small, ?_, ?_, ?_⟩
      · intro segment preparing
        cases preparing
        exact Nat.lt_succ_self s.buffer.made
      · intro j segment stored
        exact Nat.lt_succ_of_lt (numbered.stored j segment stored)
      · intro d
        exact (numbered.knows d).mono (Nat.le_succ s.buffer.made) le_rfl
  | @install segment making =>
      unfold SegmentedLogBuffer.swapIn at later ⊢
      split
      next => exact ⟨numbered.bounded, numbered.making, numbered.stored, numbered.knows⟩
      next =>
        refine ⟨numbered.bounded, ?_, ?_, numbered.knows⟩
        · intro m preparing
          cases preparing
        · intro j m stored
          by_cases here : j = slotOf (wrap segment)
          · simp only [here, Function.update_self] at stored
            cases stored
            exact numbered.making segment making
          · simp only [Function.update_of_ne here] at stored
            exact numbered.stored j m stored

/-- The request of a caller has crossed the capacity of a segment ahead of its index: what it has
    still to do drops that segment, or sets the index back. -/
def Overtaken (b : SegmentedLogBuffer) : Caller → Prop
  | .requested _ idx _ _ | .dropped _ idx _ _ => idx + 1 < b.segmentIdx
  | .crossed _ idx _ _ current =>
      idx + 1 < b.segmentIdx ∨
        current = false ∧ ∃ m, b.segments (slotOf idx) = some m ∧ idx + 1 < m
  | _ => False

theorem Overtaken.inside (overtaken : Overtaken b caller) : 0 < caller.stage := by
  cases caller with
  | crossed size idx segment pos current => exact Nat.one_pos
  | dropped size idx segment pos => exact Nat.two_pos
  | requested size idx segment pos => exact Nat.succ_pos 2
  | _ => exact overtaken.elim

theorem of_not_ownIndex (other : ownIndex filesize s a ≠ true) :
    ∃ c size idx segment, a = .advance c ∧ s.callers c = .holding size idx segment ∧
      s.buffer.Crosses filesize segment size ∧ wrap segment ≠ idx := by
  cases a with
  | advance c =>
      simp only [ownIndex] at other
      cases held : s.callers c with
      | holding size idx segment =>
          rw [held, ne_eq, decide_eq_true_iff, Classical.not_imp] at other
          exact ⟨c, size, idx, segment, rfl, held, other⟩
      | _ =>
          rw [held] at other
          exact absurd rfl other
  | _ => exact absurd rfl other

/-- A request that crosses a capacity with the index of another segment is overtaken by it. -/
theorem InRotation.overtaken (turning : InRotation filesize s)
    (other : ownIndex filesize s a ≠ true) (taken : s.step filesize a = some t) :
    ∃ c, Overtaken t.buffer (t.callers c) := by
  obtain ⟨c, alone, rotates, fits⟩ := turning
  obtain ⟨d, size, idx, segment, rfl, held, crosses, other⟩ := of_not_ownIndex other
  have fit := fits d
  rw [held] at fit
  obtain ⟨reached, behind, aligned, below⟩ := fit
  have numbered : wrap segment = segment :=
    wrap_eq (lt_of_lt_of_le below (le_trans rotates.installed_le rotates.bounded.le))
  rw [numbered] at other
  have apart := far_of_slot_eq aligned (lt_of_le_of_ne behind (Ne.symm other))
  refine ⟨d, ?_⟩
  cases step_cases taken with
  | advance moved =>
      simp only [Function.update_self]
      rw [held] at moved
      cases moved with
      | full missed => exact absurd crosses missed
      | fit missed => exact absurd crosses missed
      | cross =>
          by_cases ahead : segment ≤ s.buffer.segmentIdx
          · obtain ⟨here, _⟩ := rotates.cross_current crosses ahead
            refine .inl ?_
            change idx + 1 < s.buffer.segmentIdx
            omega
          · refine .inr ⟨?_, segment, ?_, ?_⟩
            · rw [decide_eq_false_iff_not, SegmentedLogBuffer.IsCurrent, numbered]
              omega
            · rw [aligned]
              apply rotates.window.get
              · split <;> omega
              · exact below
            · omega

theorem Overtaken.waiting (overtaken : Overtaken s.buffer caller) (numbered : Numbered s)
    (inTurn : InTurn s a t) : Overtaken t.buffer caller := by
  cases caller with
  | crossed size idx segment pos current =>
      rcases overtaken with behind | ⟨noted, m, stored, ahead⟩
      · exact .inl (lt_of_lt_of_le behind inTurn.monotone)
      · rcases inTurn.kept _ m stored with kept | ⟨d, size', idx', pos', _, crossed⟩
        · exact .inr ⟨noted, m, kept, ahead⟩
        · have knows := numbered.knows d
          rw [crossed] at knows
          refine .inl (lt_of_lt_of_le ahead ?_)
          exact le_trans (knows rfl) inTurn.monotone
  | dropped size idx segment pos => exact lt_of_lt_of_le overtaken inTurn.monotone
  | requested size idx segment pos => exact lt_of_lt_of_le overtaken inTurn.monotone
  | _ => exact overtaken.elim

/-- As long as the steps are in turn, the request remains overtaken, and is not done. -/
theorem Overtaken.step (overtaken : Overtaken s.buffer (s.callers c)) (numbered : Numbered s)
    (inTurn : InTurn s a t) (taken : s.step filesize a = some t) :
    Overtaken t.buffer (t.callers c) := by
  have later := overtaken.waiting numbered inTurn
  cases step_cases taken with
  | prepare idle asked => exact later
  | install making => exact later
  | @call d size outside =>
      have other : c ≠ d := by
        intro same
        have := overtaken.inside
        rw [same, stage_of_isOutside outside] at this
        exact Nat.lt_irrefl 0 this
      simp only [Function.update_of_ne other]
      exact later
  | @advance d b' caller' moved =>
      by_cases same : c = d
      · subst same
        simp only [Function.update_self]
        generalize held : s.callers c = caller at moved overtaken later
        cases moved with
        | @drop size idx pos current segment =>
            rcases overtaken with behind | ⟨noted, m, stored, ahead⟩
            · exact behind
            · rcases inTurn.kept _ m stored with kept | ⟨d, size', idx', pos', this, crossed⟩
              · simp only [SegmentedLogBuffer.resetSlot, Function.update_self] at kept
                cases kept
              · cases this
                rw [held, noted] at crossed
                cases crossed
        | request => exact overtaken
        | @publish size idx pos segment =>
            have lowered : (s.buffer.publish idx segment pos).segmentIdx ≤ idx + 1 := wrap_le _
            exact absurd (lt_of_le_of_lt lowered overtaken) (Nat.not_lt.mpr inTurn.monotone)
        | _ => exact overtaken.elim
      · simp only [Function.update_of_ne same]
        exact later

end LogSystem

open LogSystem Transition

/-- Where no counter wraps, all steps of a run are in turn if every request that crosses a
    capacity has loaded the index of the segment it holds, and only then, once those requests
    are done. -/
theorem reserves_in_turn (filesize : Nat) (as : List LogAction) :
    (Along (step filesize) (fun s a => unwrapped s a ∧ ownIndex filesize s a) start as →
      Along (step filesize) (StaysInTurn filesize) start as) ∧
    ∀ t, exec (step filesize) start as = some t → t.Settled →
      Along (step filesize) (fun s a => unwrapped s a) start as →
        (Along (step filesize) (StaysInTurn filesize) start as ↔
          Along (step filesize) (fun s a => ownIndex filesize s a) start as) := by
  have sufficient : Along (step filesize) (fun s a => unwrapped s a ∧ ownIndex filesize s a)
      start as → Along (step filesize) (StaysInTurn filesize) start as := by
    apply along_of_invariant (InRotation filesize)
    · intro s a turning met t taken
      exact (turning.step met.1 met.2 taken).2
    · intro s a t turning met taken
      exact (turning.step met.1 met.2 taken).1
    · exact inRotation_start filesize
  refine ⟨sufficient, ?_⟩
  intro u run settled small
  refine ⟨?_, fun own => sufficient (along_and.mpr ⟨small, own⟩)⟩
  intro inTurn
  by_contra broken
  obtain ⟨before, a, after, s, t, rfl, reach, own, other, taken, rest⟩ :=
    exec_first_break broken run
  obtain ⟨small, small'⟩ := along_append.mp small
  have turning : InRotation filesize s :=
    exec_invariant_along (InRotation filesize)
      (fun s a t turning met taken => (turning.step met.1 met.2 taken).1)
      (inRotation_start filesize) (along_and.mpr ⟨small, own⟩) reach
  have later := along_and.mpr ⟨small' s reach, (along_append.mp inTurn).2 s reach⟩
  obtain ⟨c, overtaken⟩ := turning.overtaken other taken
  have remains := exec_invariant_along
    (fun s => Numbered s ∧ Overtaken s.buffer (s.callers c))
    (fun s a t known met taken =>
      ⟨known.1.step met.1 (met.2 t taken).monotone taken,
        known.2.step known.1 (met.2 t taken) taken⟩)
    ⟨turning.numbered.step later.1.1 (later.1.2 t taken).monotone taken, overtaken⟩
    (later.2 t taken) rest
  exact absurd (settled c) remains.2.inside.ne'

/-- What is done where the request of a caller crosses the capacity. -/
def rollOver (c : Nat) : List LogAction :=
  [.advance c, .advance c, .advance c, .advance c, .advance c, .advance c, .prepare, .install]

theorem reserves_in_turn_rollOver :
    Along (step 4096) (StaysInTurn 4096) start
        (.call 0 4095 :: .call 1 4095 :: (rollOver 0 ++ rollOver 1 ++ rollOver 0)) ∧
      (exec (step 4096) start
          (.call 0 4095 :: .call 1 4095 :: (rollOver 0 ++ rollOver 1 ++ rollOver 0))).map
        (fun t => t.buffer.segmentIdx) = some 3 :=
  ⟨(reserves_in_turn 4096 _).1 (by decide +kernel), by decide +kernel⟩

/-- Caller 0 stops with the index 0, while caller 1 fills the segments 0 and 1. The slot then
    holds segment 3, which the request of caller 0 fills. -/
def staleCross : List LogAction :=
  [.call 0 4095, .advance 0, .call 1 4095] ++ rollOver 1 ++ rollOver 1 ++ [.advance 0, .advance 0]

/-- What happens before it publishes the index 1. -/
def stalePublish : List LogAction := staleCross ++ [.advance 0, .advance 0]

/-- Caller 1 fills segment 4 before segment 2, whose slot is then needed for segment 5. -/
def staleInstall : List LogAction :=
  stalePublish ++ [.advance 0, .prepare, .install, .advance 1, .advance 1, .advance 1,
    .advance 1, .advance 1, .prepare]

theorem stale_request :
    ¬ Along (step 4096)
        (fun s a => ∀ t, s.step 4096 a = some t → s.buffer.segmentIdx ≤ t.buffer.segmentIdx)
        start (staleInstall ++ [.install]) ∧
      ¬ Along (step 4096) (fun s a => ∀ t, s.step 4096 a = some t → t.buffer.aborted = false)
        start (staleInstall ++ [.install]) ∧
      ¬ Along (step 4096)
        (fun s a => ∀ t, s.step 4096 a = some t → ∀ j segment,
          s.buffer.segments j = some segment → t.buffer.segments j = some segment ∨
            ∃ c size idx pos, a = .advance c ∧ s.callers c = .crossed size idx segment pos true)
        start (staleInstall ++ [.install]) := by
  refine ⟨?_, ?_, ?_⟩
  · have lowered : ((exec (step 4096) start stalePublish).bind fun s =>
        (s.step 4096 (.advance 0)).map fun t => (s.buffer.segmentIdx, t.buffer.segmentIdx)) =
          some (2, 1) := by
      decide +kernel
    obtain ⟨s, reach, later⟩ := Option.bind_eq_some_iff.mp lowered
    obtain ⟨t, taken, indices⟩ := Option.map_eq_some_iff.mp later
    obtain ⟨from', to'⟩ := Prod.mk.inj indices
    apply not_along_of_reached reach
    intro grows
    have := grows t taken
    omega
  · have failed : ((exec (step 4096) start staleInstall).bind fun s =>
        (s.step 4096 .install).map fun t => t.buffer.aborted) = some true := by
      decide +kernel
    obtain ⟨s, reach, later⟩ := Option.bind_eq_some_iff.mp failed
    obtain ⟨t, taken, aborted⟩ := Option.map_eq_some_iff.mp later
    apply not_along_of_reached reach
    intro asserted
    rw [asserted t taken] at aborted
    cases aborted
  · have lost : ((exec (step 4096) start staleCross).bind fun s =>
        (s.step 4096 (.advance 0)).map fun t =>
          (s.buffer.segments 0, t.buffer.segments 0, s.callers 0)) =
          some (some 3, none, .crossed 4095 0 3 0 false) := by
      decide +kernel
    obtain ⟨s, reach, later⟩ := Option.bind_eq_some_iff.mp lost
    obtain ⟨t, taken, same⟩ := Option.map_eq_some_iff.mp later
    simp only [Prod.mk.injEq] at same
    obtain ⟨stored, gone, crossed⟩ := same
    apply not_along_of_reached reach
    intro kept
    rcases kept t taken 0 3 stored with still | ⟨c, size, idx, pos, own, current⟩
    · rw [gone] at still
      cases still
    · cases own
      rw [crossed] at current
      cases current

end VanillaRtb.Auditor
