import Mathlib

/-! # Numbered records

A log keeps one record for each call, numbered in the order of the calls; a later event
changes the record of one call. No record is ever taken away.
-/

namespace VanillaRtb.Lib

/-- Every record satisfies what is asked of its number. -/
def Each (P : Nat → α → Prop) (records : List α) : Prop :=
  ∀ k a, records[k]? = some a → P k a

variable {P : Nat → α → Prop} {records : List α}

theorem each_nil : Each P [] := by
  intro k a here
  simp at here

theorem Each.concat (each : Each P records) (new : P records.length a) :
    Each P (records ++ [a]) := by
  intro k b here
  rw [List.getElem?_append] at here
  split at here
  · exact each k b here
  · rename_i beyond
    have last : k = records.length := by
      have := (List.getElem?_eq_some_iff.mp here).1
      rw [List.length_singleton] at this
      omega
    subst last
    simp only [Nat.sub_self, List.getElem?_cons_zero, Option.some.injEq] at here
    exact here ▸ new

/-- All records satisfy what is asked of them, or there is a first that does not. -/
theorem each_or_first (P : Nat → α → Prop) (records : List α) :
    Each P records ∨ ∃ before a after, records = before ++ a :: after ∧ Each P before ∧
      ¬ P before.length a := by
  induction records using List.reverseRecOn with
  | nil => exact .inl each_nil
  | append_singleton records a ih =>
      rcases ih with each | ⟨before, b, after, split, each, fails⟩
      · by_cases last : P records.length a
        · exact .inl (each.concat last)
        · exact .inr ⟨records, a, [], rfl, each, last⟩
      · exact .inr ⟨before, b, after ++ [a], by simp [split], each, fails⟩

/-- One record changes, and still satisfies what is asked of it. -/
theorem Each.modify (each : Each P records) {f : α → α}
    (changed : ∀ a, records[k]? = some a → P k (f a)) : Each P (records.modify k f) := by
  intro j a here
  rw [List.getElem?_modify, Option.map_eq_map, Option.map_eq_some_iff] at here
  obtain ⟨old, before, rfl⟩ := here
  by_cases same : k = j
  · subst same
    simpa using changed old before
  · simpa [same] using each j old before

theorem modify_here (here : records[k]? = some a) (f : α → α) :
    (records.modify k f)[k]? = some (f a) := by
  rw [List.getElem?_modify_eq, here]
  rfl

theorem modify_other (other : j ≠ k) (f : α → α) : (records.modify j f)[k]? = records[k]? :=
  List.getElem?_modify_ne f records other

theorem modify_at (here : records[k]? = some a) (j : Nat) (f : α → α) :
    (records.modify j f)[k]? = some (if j = k then f a else a) := by
  by_cases same : j = k
  · subst same
    rw [if_pos rfl]
    exact modify_here here f
  · rw [if_neg same]
    exact (modify_other same f).trans here

section Grows

variable {R : α → α → Prop}

/-- Every record of the one log is still there in the other, related to what it was. -/
def Grows (R : α → α → Prop) (before after : List α) : Prop :=
  Each (fun k a => ∃ b, after[k]? = some b ∧ R a b) before

theorem Grows.refl (refl : ∀ a, R a a) (records : List α) : Grows R records records :=
  fun _ a here => ⟨a, here, refl a⟩

theorem Grows.trans {xs ys zs : List α} (trans : ∀ {a b c}, R a b → R b c → R a c)
    (first : Grows R xs ys) (second : Grows R ys zs) : Grows R xs zs := by
  intro k a here
  obtain ⟨b, here', related⟩ := first k a here
  obtain ⟨c, here'', related'⟩ := second k b here'
  exact ⟨c, here'', trans related related'⟩

theorem grows_concat (refl : ∀ a, R a a) (records : List α) (new : α) :
    Grows R records (records ++ [new]) := by
  intro k a here
  have known := (List.getElem?_eq_some_iff.mp here).1
  exact ⟨a, (List.getElem?_append_left known).trans here, refl a⟩

theorem grows_modify (refl : ∀ a, R a a) (k : Nat) {f : α → α} (grows : ∀ a, R a (f a)) :
    Grows R records (records.modify k f) := by
  intro j a here
  refine ⟨_, modify_at here k f, ?_⟩
  split
  · exact grows a
  · exact refl a

end Grows

end VanillaRtb.Lib
