import Mathlib

/-! # Lines of named fields

A block of lines ends with an empty one; every other line is a name and a value with a
separator between them. Line ends and separators are pairs of symbols, and a reader stops at
the first pair it meets, so what was written is what is read exactly if no pair occurs in it
too early.
-/

namespace VanillaRtb.Lib

variable {α : Type} [DecidableEq α] {a b c d : α}

/-- What stands before and behind the first `a b`. -/
def splitPair (a b : α) : List α → Option (List α × List α)
  | x :: y :: rest =>
      if x = a ∧ y = b then some ([], rest)
      else (splitPair a b (y :: rest)).map fun p => (x :: p.1, p.2)
  | _ => none

theorem splitPair_sound {xs l r : List α} (split : splitPair a b xs = some (l, r)) :
    xs = l ++ a :: b :: r ∧ ¬ [a, b] <:+: l := by
  induction xs generalizing l with
  | nil => cases split
  | cons x xs ih =>
      cases xs with
      | nil => cases split
      | cons y rest =>
          rw [splitPair] at split
          by_cases here : x = a ∧ y = b
          · rw [if_pos here] at split
            cases split
            exact ⟨by rw [here.1, here.2]; rfl, by simp⟩
          · rw [if_neg here] at split
            obtain ⟨⟨l', r'⟩, later, same⟩ := Option.map_eq_some_iff.mp split
            cases same
            obtain ⟨parts, clear⟩ := ih later
            refine ⟨congrArg (x :: ·) parts, ?_⟩
            intro inside
            rcases List.infix_cons_iff.mp inside with start | deeper
            · -- then the pair was already here
              obtain ⟨first, second⟩ := List.cons_prefix_cons.mp start
              cases l' with
              | nil => simp at second
              | cons z l' =>
                  obtain ⟨next, -⟩ := List.cons_prefix_cons.mp second
                  exact here ⟨first.symm, (List.cons.inj parts).1.trans next.symm⟩
            · exact clear deeper

theorem splitPair_append (apart : a ≠ b) {l : List α} (clear : ¬ [a, b] <:+: l) (r : List α) :
    splitPair a b (l ++ a :: b :: r) = some (l, r) := by
  induction l with
  | nil => exact if_pos ⟨rfl, rfl⟩
  | cons x l ih =>
      have later : ¬ [a, b] <:+: l := fun inside => clear (List.infix_cons inside)
      have rest := ih later
      cases l with
      | nil =>
          have here : ¬ (x = a ∧ a = b) := fun both => apart both.2
          change (if x = a ∧ a = b then _ else (splitPair a b (a :: b :: r)).map _) = _
          rw [if_neg here, show splitPair a b (a :: b :: r) = some ([], r) from rest]
          rfl
      | cons y l =>
          have here : ¬ (x = a ∧ y = b) := by
            rintro ⟨rfl, rfl⟩
            exact clear ⟨[], l, rfl⟩
          change (if x = a ∧ y = b then _ else (splitPair a b (y :: l ++ a :: b :: r)).map _) = _
          rw [if_neg here, rest]
          rfl

/-- Reads lines that end with `a b`, separated by `c d`, up to an empty one; `none` if there are
    more of them than expected. -/
def fieldLines (a b c d : α) : Nat → List α → Option (List (List α × List α) × List α)
  | 0, _ => none
  | n + 1, xs => do
      let (line, rest) ← splitPair a b xs
      if line = [] then some ([], rest)
      else do
        let field ← splitPair c d line
        let (fields, rest) ← fieldLines a b c d n rest
        some (field :: fields, rest)

def fieldLine (a b c d : α) (field : List α × List α) : List α :=
  field.1 ++ c :: d :: field.2 ++ [a, b]

/-- The line ends where it should, and its name ends where it should. -/
structure Legible (a b c d : α) (field : List α × List α) : Prop where
  oneLine : ¬ [a, b] <:+: field.1 ++ c :: d :: field.2
  name : ¬ [c, d] <:+: field.1

theorem fieldLines_cons {n : Nat} {field : List α × List α} {fields : List (List α × List α)}
    {rest body : List α} (ends : a ≠ b) (parts : c ≠ d) :
    fieldLines a b c d (n + 1) (fieldLine a b c d field ++ rest) = some (field :: fields, body) ↔
      Legible a b c d field ∧ fieldLines a b c d n rest = some (fields, body) := by
  have whole : fieldLine a b c d field ++ rest =
      (field.1 ++ c :: d :: field.2) ++ a :: b :: rest := by
    simp [fieldLine]
  have some_line : field.1 ++ c :: d :: field.2 ≠ [] := by simp
  rw [fieldLines, whole]
  constructor
  · intro read
    obtain ⟨⟨line, rest'⟩, split, read⟩ := Option.bind_eq_some_iff.mp read
    dsimp only at read
    split at read
    · cases read
    · obtain ⟨field', here, read⟩ := Option.bind_eq_some_iff.mp read
      obtain ⟨⟨fields', body'⟩, later, same⟩ := Option.bind_eq_some_iff.mp read
      cases same
      obtain ⟨lineParts, clearName⟩ := splitPair_sound here
      obtain ⟨cut, clearLine⟩ := splitPair_sound split
      rw [lineParts] at cut clearLine
      obtain rfl := (List.cons.inj (List.cons.inj (List.append_cancel_left cut)).2).2
      exact ⟨⟨clearLine, clearName⟩, later⟩
  · rintro ⟨legible, later⟩
    rw [splitPair_append ends legible.oneLine]
    simp only [Option.bind_eq_bind, Option.bind_some, if_neg some_line,
      splitPair_append parts legible.name, later]

/-- Fields are read as they were written exactly if all of them are legible. -/
theorem fieldLines_iff (ends : a ≠ b) (parts : c ≠ d) {n : Nat}
    {fields : List (List α × List α)} (enough : fields.length < n) (body : List α) :
    fieldLines a b c d n (fields.flatMap (fieldLine a b c d) ++ a :: b :: body) =
        some (fields, body) ↔
      ∀ field ∈ fields, Legible a b c d field := by
  induction fields generalizing n with
  | nil =>
      cases n with
      | zero => cases enough
      | succ n =>
          refine iff_of_true ?_ nofun
          have here : splitPair a b (a :: b :: body) = some ([], body) := if_pos ⟨rfl, rfl⟩
          rw [List.flatMap_nil, List.nil_append, fieldLines, here]
          rfl
  | cons field fields ih =>
      cases n with
      | zero => cases enough
      | succ n =>
          rw [List.flatMap_cons, List.append_assoc, fieldLines_cons ends parts,
            ih (Nat.lt_of_succ_lt_succ enough), List.forall_mem_cons]

end VanillaRtb.Lib
