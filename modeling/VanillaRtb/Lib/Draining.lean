import Mathlib.Data.Finset.Basic
import Mathlib.Data.List.Nodup

/-! # Taking from a queue until all that is wanted has been seen

Several parties, one after the other, take from one queue. Each stops as soon as it has seen all
that it wants, and what it takes besides is lost. So a party is served if nothing that it wants
stands before something that an earlier one wants.
-/

namespace VanillaRtb.Lib

variable {α : Type} [DecidableEq α]

/-- What is left of a queue when all that is wanted has been seen. -/
def drained (wanted : Finset α) : List α → List α
  | [] => []
  | a :: queue => if wanted = ∅ then a :: queue else drained (wanted.erase a) queue

/-- All parties get what they want. -/
def Served : List (Finset α) → List α → Prop
  | [], _ => True
  | wanted :: later, queue => (∀ a ∈ wanted, a ∈ queue) ∧ Served later (drained wanted queue)

/-- Nothing wanted later stands before something wanted earlier. -/
def InTurn (queue : List α) (parties : List (Finset α)) : Prop :=
  parties.Pairwise fun earlier later => ∀ a ∈ earlier, ∀ b ∈ later, ¬ [b, a].Sublist queue

variable {wanted : Finset α} {queue : List α} {a b : α}

theorem drained_empty (queue : List α) : drained ∅ queue = queue := by
  cases queue <;> rfl

theorem drained_suffix (wanted : Finset α) (queue : List α) :
    ∃ before, queue = before ++ drained wanted queue := by
  induction queue generalizing wanted with
  | nil => exact ⟨[], rfl⟩
  | cons a queue ih =>
      rw [drained]
      split
      · exact ⟨[], rfl⟩
      · obtain ⟨before, whole⟩ := ih (wanted.erase a)
        exact ⟨a :: before, by rw [List.cons_append, ← whole]⟩

theorem drained_nodup (wanted : Finset α) (nodup : queue.Nodup) :
    (drained wanted queue).Nodup := by
  obtain ⟨before, whole⟩ := drained_suffix wanted queue
  rw [whole] at nodup
  exact (List.nodup_append.mp nodup).2.1

/-- What is left is what stands behind everything wanted. -/
theorem mem_drained (nodup : queue.Nodup) (inside : ∀ a ∈ wanted, a ∈ queue)
    (other : b ∉ wanted) :
    b ∈ drained wanted queue ↔ b ∈ queue ∧ ∀ a ∈ wanted, ¬ [b, a].Sublist queue := by
  induction queue generalizing wanted with
  | nil => simp [drained]
  | cons c queue ih =>
      rw [List.nodup_cons] at nodup
      rw [drained]
      split
      next empty => simp [empty]
      next some_ =>
        have later : ∀ a ∈ wanted.erase c, a ∈ queue := by
          intro a member
          rw [Finset.mem_erase] at member
          exact (List.mem_cons.mp (inside a member.2)).resolve_left member.1
        rw [ih nodup.2 later (fun member => other (Finset.mem_of_mem_erase member))]
        by_cases same : b = c
        · -- it is taken before the last one that is wanted
          subst same
          obtain ⟨a, member⟩ := Finset.nonempty_iff_ne_empty.mpr some_
          have apart : a ≠ b := fun same => other (same ▸ member)
          have behind : a ∈ queue := (List.mem_cons.mp (inside a member)).resolve_left apart
          constructor
          · rintro ⟨here, -⟩
            exact absurd here nodup.1
          · rintro ⟨-, free⟩
            exact absurd ((List.singleton_sublist.mpr behind).cons_cons b) (free a member)
        · have skip (a : α) : [b, a].Sublist (c :: queue) ↔ [b, a].Sublist queue := by
            simp [List.sublist_cons_iff, same]
          simp only [skip, List.mem_cons, same, false_or, Finset.mem_erase, and_imp]
          constructor
          · rintro ⟨here, free⟩
            refine ⟨here, fun a member => ?_⟩
            by_cases first : a = c
            · subst first
              intro sub
              exact nodup.1 (sub.subset (by simp))
            · exact free a first member
          · rintro ⟨here, free⟩
            exact ⟨here, fun a _ member => free a member⟩

theorem sublist_drained (nodup : queue.Nodup) (inside : b ∈ drained wanted queue) :
    [b, a].Sublist (drained wanted queue) ↔ [b, a].Sublist queue := by
  obtain ⟨before, whole⟩ := drained_suffix wanted queue
  constructor
  · intro sub
    rw [whole]
    exact sub.trans (List.sublist_append_right before _)
  · intro sub
    rw [whole] at sub nodup
    have first : b ∉ before := fun here => (List.nodup_append.mp nodup).2.2 b here b inside rfl
    obtain ⟨l, r, cut, left, right⟩ := List.sublist_append_iff.mp sub
    cases l with
    | nil => simpa [cut] using right
    | cons c l =>
        rw [List.cons_append, List.cons.injEq] at cut
        exact absurd (left.subset (cut.1 ▸ List.mem_cons_self)) first

/-- The parties are served if and only if all they want is there and in turn. -/
theorem served_iff {parties : List (Finset α)} (nodup : queue.Nodup)
    (disjoint : parties.Pairwise Disjoint) :
    Served parties queue ↔ (∀ g ∈ parties, ∀ a ∈ g, a ∈ queue) ∧ InTurn queue parties := by
  induction parties generalizing queue with
  | nil => simp [Served, InTurn]
  | cons wanted parties ih =>
      rw [List.pairwise_cons] at disjoint
      rw [Served, ih (drained_nodup wanted nodup) disjoint.2]
      simp only [InTurn, List.mem_cons, forall_eq_or_imp, List.pairwise_cons]
      rw [and_assoc]
      apply and_congr_right
      intro here
      have left {g : Finset α} (later : g ∈ parties) {b : α} (member : b ∈ g) :
          b ∈ drained wanted queue ↔ b ∈ queue ∧ ∀ a ∈ wanted, ¬ [b, a].Sublist queue :=
        mem_drained nodup here fun both =>
          Finset.disjoint_left.mp (disjoint.1 g later) both member
      constructor
      · rintro ⟨there, turns⟩
        have kept {g : Finset α} (later : g ∈ parties) {b : α} (member : b ∈ g) :=
          (left later member).mp (there g later b member)
        refine ⟨fun g later b member => (kept later member).1,
          fun g later a first b member => (kept later member).2 a first, turns.imp_of_mem ?_⟩
        intro g k _ last free a first b member
        rw [← sublist_drained nodup (there k last b member)]
        exact free a first b member
      · rintro ⟨there, first, turns⟩
        have kept : ∀ g ∈ parties, ∀ b ∈ g, b ∈ drained wanted queue := by
          intro g later b member
          exact (left later member).mpr
            ⟨there g later b member, fun a before => first g later a before b member⟩
        refine ⟨kept, turns.imp_of_mem ?_⟩
        intro g k _ last free a before b member
        rw [sublist_drained nodup (kept k last b member)]
        exact free a before b member

end VanillaRtb.Lib
