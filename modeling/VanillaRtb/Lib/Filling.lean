import Mathlib

/-! # Filling a space by a counter

Requests add their size to a counter, and get what it was before as their place. A request
whose end is before the last place of the space is given its region. The one that comes to
the last place or beyond it marks the end instead, and all later ones are turned away.
-/

namespace VanillaRtb.Lib

structure Region where
  pos : Nat
  size : Nat
  deriving DecidableEq

namespace Region

def Contains (r : Region) (i : Nat) : Prop := r.pos ≤ i ∧ i < r.pos + r.size

def Disjoint (r r' : Region) : Prop := ∀ i, ¬ (r.Contains i ∧ r'.Contains i)

/-- Where the next region goes. -/
def next (regions : List Region) : Nat := (regions.getLast?.map fun r => r.pos + r.size).getD 0

theorem next_append (regions : List Region) (r : Region) :
    next (regions ++ [r]) = r.pos + r.size := by
  rw [next, List.getLast?_concat, Option.map_some, Option.getD_some]

end Region

/-- The regions handed out of a space with the last place `last`, where its end was marked, and
    the counter, after any requests. -/
inductive Filling (last : Nat) : List Region → Option Nat → Nat → Prop where
  | start : Filling last [] none 0
  | fit (before : Filling last regions none pos) (fits : pos + size < last) :
      Filling last (regions ++ [⟨pos, size⟩]) none (pos + size)
  | cross (before : Filling last regions none pos) (within : pos < last)
      (reaches : last ≤ pos + size) : Filling last regions (some pos) (pos + size)
  | full (before : Filling last regions mark pos) (behind : last ≤ pos) :
      Filling last regions mark (pos + size)

namespace Filling

variable {last : Nat} {regions : List Region} {mark : Option Nat} {pos : Nat}

/-- As long as there is no mark the counter is where the next region goes, unless the space is
    without a place. -/
theorem open_next (filling : Filling last regions none pos) (within : pos < last) :
    Region.next regions = pos := by
  cases filling with
  | start => rfl
  | fit before fits => exact Region.next_append _ _
  | full before behind => omega

theorem marked_next (filling : Filling last regions (some m) pos) :
    m = Region.next regions ∧ m < last ∧ last ≤ pos := by
  generalize marked : some m = mark at filling
  induction filling with
  | start => cases marked
  | fit before fits => cases marked
  | cross before within reaches =>
      cases marked
      exact ⟨(before.open_next within).symm, within, reaches⟩
  | full before behind ih =>
      obtain ⟨here, within, reached⟩ := ih marked
      exact ⟨here, within, by omega⟩

/-- The regions are in order, one behind the other, before the last place. -/
theorem ordered (filling : Filling last regions mark pos) :
    regions.Pairwise (fun r r' => r.pos + r.size ≤ r'.pos) ∧
      ∀ r ∈ regions, r.pos + r.size < last ∧ r.pos + r.size ≤ pos := by
  induction filling with
  | start => exact ⟨List.Pairwise.nil, nofun⟩
  | @fit regions pos size before fits ih =>
      obtain ⟨pairwise, inside⟩ := ih
      constructor
      · rw [List.pairwise_append]
        refine ⟨pairwise, List.pairwise_singleton _ _, ?_⟩
        intro r old r' new
        rw [List.mem_singleton] at new
        subst new
        exact (inside r old).2
      · intro r given
        rcases List.mem_append.mp given with old | new
        · have := inside r old
          omega
        · rw [List.mem_singleton] at new
          subst new
          exact ⟨fits, le_rfl⟩
  | cross before within reaches ih =>
      refine ⟨ih.1, ?_⟩
      intro r given
      have := ih.2 r given
      omega
  | full before behind ih =>
      refine ⟨ih.1, ?_⟩
      intro r given
      have := ih.2 r given
      omega

theorem disjoint (filling : Filling last regions mark pos) :
    regions.Pairwise Region.Disjoint := by
  refine filling.ordered.1.imp ?_
  intro r r' order i both
  have := both.1.2
  have := both.2.1
  omega

theorem before_last (filling : Filling last regions mark pos) (given : r ∈ regions)
    (inside : r.Contains i) : i < last := by
  have := (filling.ordered.2 r given).1
  have := inside.2
  omega

/-- No region reaches the mark. -/
theorem mark_apart (filling : Filling last regions (some m) pos) (given : r ∈ regions) :
    ¬ r.Contains m := by
  intro inside
  generalize marked : some m = mark at filling
  induction filling with
  | start => cases marked
  | fit before fits => cases marked
  | cross before within reaches =>
      cases marked
      have := (before.ordered.2 r given).2
      have := inside.2
      omega
  | full before behind ih => exact ih given marked

/-- There is a mark exactly if there is a place and the counter has come to the last one. -/
theorem marked_iff (filling : Filling last regions mark pos) :
    mark.isSome ↔ 0 < last ∧ last ≤ pos := by
  induction filling with
  | start =>
      refine iff_of_false (by decide) ?_
      omega
  | fit before fits =>
      refine iff_of_false (by decide) ?_
      omega
  | cross before within reaches =>
      refine iff_of_true rfl ?_
      omega
  | full before behind ih =>
      rw [ih]
      omega

end Filling

end VanillaRtb.Lib
