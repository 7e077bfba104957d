import Mathlib

/-! # Runs of symbols

Languages that are put together from runs of symbols that pass a test and fixed symbols in
between, the way a scanner reads them: from the first symbol on. What a scanner has yet to
read shrinks by the symbol it reads.
-/

namespace VanillaRtb.Lib

variable {α : Type} {test : α → Bool} {sep xs : List α} {next : List α → Prop} {c : α}

/-- The symbols, then what follows. -/
def FixedThen (sep : List α) (next : List α → Prop) (xs : List α) : Prop :=
  ∃ rest, xs = sep ++ rest ∧ next rest

/-- A run that passes the test, the symbols that end it, then what follows. -/
def RunThen (test : α → Bool) (sep : List α) (next : List α → Prop) (xs : List α) : Prop :=
  ∃ run rest, (∀ c ∈ run, test c = true) ∧ xs = run ++ (sep ++ rest) ∧ next rest

/-- The same of a run with something in it. -/
def SomeRunThen (test : α → Bool) (sep : List α) (next : List α → Prop) (xs : List α) : Prop :=
  ∃ run rest, run ≠ [] ∧ (∀ c ∈ run, test c = true) ∧ xs = run ++ (sep ++ rest) ∧ next rest

theorem FixedThen.cons (rest : FixedThen sep next xs) (c : α) :
    FixedThen (c :: sep) next (c :: xs) := by
  obtain ⟨rest, rfl, more⟩ := rest
  exact ⟨rest, rfl, more⟩

theorem RunThen.cons (rest : RunThen test sep next xs) (passes : test c = true) :
    RunThen test sep next (c :: xs) := by
  obtain ⟨run, rest, all, rfl, more⟩ := rest
  exact ⟨c :: run, rest, List.forall_mem_cons.mpr ⟨passes, all⟩, rfl, more⟩

/-- The run is over where what ends it begins. -/
theorem RunThen.of_fixed (rest : FixedThen sep next xs) : RunThen test sep next xs := by
  obtain ⟨rest, rfl, more⟩ := rest
  exact ⟨[], rest, nofun, rfl, more⟩

theorem SomeRunThen.cons (rest : RunThen test sep next xs) (passes : test c = true) :
    SomeRunThen test sep next (c :: xs) := by
  obtain ⟨run, rest, all, rfl, more⟩ := rest
  exact ⟨c :: run, rest, List.cons_ne_nil c run, List.forall_mem_cons.mpr ⟨passes, all⟩, rfl, more⟩

end VanillaRtb.Lib
