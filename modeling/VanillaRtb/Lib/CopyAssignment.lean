import Mathlib.Data.List.Basic

/-! # Copy assignments that change what they copy from

An assignment takes what its two sides hold to what they hold afterwards. One between vectors
goes element by element as far as there are elements to assign to and constructs the others, if
the capacity is enough; else it constructs all of them. So what happens to the source depends on
how many elements there were and how many there was room for.
-/

namespace VanillaRtb.Lib

/-- What the left and the right side hold after an assignment. -/
abbrev Assignment (α : Type) := α → α → α × α

namespace Assignment

variable {α : Type}

def Receives (assign : Assignment α) : Prop := ∀ a b, (assign a b).1 = b

/-- The source stays as it is exactly where `R` holds. -/
def KeepsIff (assign : Assignment α) (R : α → α → Prop) : Prop :=
  ∀ a b, (assign a b).2 = b ↔ R a b

/-- The elements of a vector onto those of another. -/
def onto (assign : Assignment α) : Assignment (List α)
  | _, [] => ([], [])
  | [], b :: bs => (b :: bs, b :: bs)
  | a :: as, b :: bs =>
      ((assign a b).1 :: (onto assign as bs).1, (assign a b).2 :: (onto assign as bs).2)

variable {assign : Assignment α} {R : α → α → Prop}

theorem onto_length (as bs : List α) : (assign.onto as bs).1.length = bs.length := by
  induction as generalizing bs with
  | nil => cases bs <;> rfl
  | cons a as ih =>
      cases bs with
      | nil => rfl
      | cons b bs => simp [onto, ih]

theorem Receives.onto (receives : assign.Receives) : assign.onto.Receives := by
  intro as bs
  induction as generalizing bs with
  | nil => cases bs <;> rfl
  | cons a as ih =>
      cases bs with
      | nil => rfl
      | cons b bs => simp [Assignment.onto, receives a b, ih]

theorem KeepsIff.onto (keeps : assign.KeepsIff R) :
    assign.onto.KeepsIff fun as bs => ∀ p ∈ as.zip bs, R p.1 p.2 := by
  intro as bs
  induction as generalizing bs with
  | nil => cases bs <;> simp [Assignment.onto]
  | cons a as ih =>
      cases bs with
      | nil => simp [Assignment.onto]
      | cons b bs => simp [Assignment.onto, keeps a b, ih]

end Assignment

/-- A vector, with how many elements there is room for. -/
structure Vec (α : Type) where
  elems : List α
  capacity : Nat
  fits : elems.length ≤ capacity

namespace Vec

variable {α : Type} {assign : Assignment α} {R : α → α → Prop}

def copyAssign (assign : Assignment α) (a : Vec α) (b : List α) : Vec α × List α :=
  if enough : b.length ≤ a.capacity then
    (⟨(assign.onto a.elems b).1, a.capacity, Assignment.onto_length a.elems b ▸ enough⟩,
      (assign.onto a.elems b).2)
  else
    (⟨b, b.length, Nat.le_refl _⟩, b)

theorem copyAssign_elems (receives : assign.Receives) (a : Vec α) (b : List α) :
    (a.copyAssign assign b).1.elems = b := by
  rw [copyAssign]
  split
  · exact receives.onto a.elems b
  · rfl

theorem copyAssign_source_iff (keeps : assign.KeepsIff R) (a : Vec α) (b : List α) :
    (a.copyAssign assign b).2 = b ↔
      (b.length ≤ a.capacity → ∀ p ∈ a.elems.zip b, R p.1 p.2) := by
  rw [copyAssign]
  split
  next enough => simp [enough, keeps.onto a.elems b]
  next short => simp [short]

end Vec

end VanillaRtb.Lib
