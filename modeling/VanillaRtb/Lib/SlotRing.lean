import Mathlib

/-! # Consecutive numbers in a ring of slots

Numbers are stored one after the other, each in the slot that it is modulo the number of
slots. As long as those in store are consecutive and no more than there are slots, the next
one finds its slot empty and the oldest one can be taken out alone.
-/

namespace VanillaRtb.Lib.SlotRing

variable {n : Nat} [NeZero n]

/-- The slot of a number. -/
def slot (n : Nat) [NeZero n] (i : Nat) : Fin n := Fin.ofNat n i

theorem slot_eq_iff : slot n i = slot n m ↔ i % n = m % n := by
  simp only [slot, Fin.ext_iff, Fin.val_ofNat]

/-- Two numbers of one slot are a whole round apart. -/
theorem far_of_slot_eq (same : slot n i = slot n m) (less : i < m) : i + n ≤ m := by
  have rounds : n ∣ m - i := (Nat.modEq_iff_dvd' less.le).mp (slot_eq_iff.mp same)
  have := Nat.le_of_dvd (Nat.sub_pos_of_lt less) rounds
  omega

/-- The ring stores the numbers from `lo` up to `hi`, and nothing else. -/
structure Window (ring : Fin n → Option Nat) (lo hi : Nat) : Prop where
  ordered : lo ≤ hi
  stored_iff : ∀ j m, ring j = some m ↔ j = slot n m ∧ lo ≤ m ∧ m < hi

variable {ring : Fin n → Option Nat} {lo hi : Nat}

theorem window_empty : Window (fun _ : Fin n => none) lo lo := by
  refine ⟨le_refl lo, ?_⟩
  intro j m
  constructor
  · intro stored
    cases stored
  · rintro ⟨_, above, below⟩
    omega

namespace Window

theorem get (window : Window ring lo hi) (above : lo ≤ m) (below : m < hi) :
    ring (slot n m) = some m :=
  (window.stored_iff (slot n m) m).mpr ⟨rfl, above, below⟩

/-- The slot that the next number goes to is empty. -/
theorem free (window : Window ring lo hi) (room : hi < lo + n) : ring (slot n hi) = none := by
  cases stored : ring (slot n hi) with
  | none => rfl
  | some m =>
      obtain ⟨same, above, below⟩ := (window.stored_iff _ m).mp stored
      have := far_of_slot_eq same.symm below
      omega

theorem install (window : Window ring lo hi) (room : hi < lo + n) :
    Window (Function.update ring (slot n hi) (some hi)) lo (hi + 1) := by
  refine ⟨Nat.le_succ_of_le window.ordered, ?_⟩
  intro j m
  by_cases here : j = slot n hi
  · subst here
    rw [Function.update_self]
    constructor
    · intro same
      cases same
      exact ⟨rfl, window.ordered, Nat.lt_succ_self _⟩
    · rintro ⟨same, above, below⟩
      have last : ¬ m < hi := by
        intro less
        have := far_of_slot_eq same.symm less
        omega
      rw [Nat.le_antisymm (Nat.le_of_lt_succ below) (Nat.not_lt.mp last)]
  · rw [Function.update_of_ne here, window.stored_iff j m]
    refine and_congr_right ?_
    intro same
    have other : m ≠ hi := by
      intro eq
      exact here (eq ▸ same)
    omega

theorem drop (window : Window ring lo hi) (stocked : lo < hi) :
    Window (Function.update ring (slot n lo) none) (lo + 1) hi := by
  refine ⟨stocked, ?_⟩
  intro j m
  have oldest := window.get (le_refl lo) stocked
  by_cases here : j = slot n lo
  · subst here
    rw [Function.update_self]
    constructor
    · intro stored
      cases stored
    · rintro ⟨same, above, below⟩
      have stored := window.get (Nat.le_of_succ_le above) below
      rw [← same, oldest] at stored
      cases stored
      omega
  · rw [Function.update_of_ne here, window.stored_iff j m]
    refine and_congr_right ?_
    intro same
    have other : m ≠ lo := by
      intro eq
      exact here (eq ▸ same)
    omega

end Window

end VanillaRtb.Lib.SlotRing
