import Mathlib.Logic.Basic

/-! # Computations that may fail

What comes out of a computation of several parts, and two of them that come to the same unless one
has failed in a given way.
-/

namespace VanillaRtb.Lib

universe u v

variable {E : Type u} {A B : Type v} {x y : Except E A}

theorem bind_eq_ok {f : A → Except E B} {b : B} :
    (x >>= f) = .ok b ↔ ∃ a, x = .ok a ∧ f a = .ok b := by
  cases x <;> simp [bind, Except.bind]

theorem map_eq_ok {f : A → B} {b : B} : x.map f = .ok b ↔ ∃ a, x = .ok a ∧ f a = b := by
  cases x <;> simp [Except.map]

/-- The second comes to the same as the first, unless the first has failed with `e`. -/
def SameUnless (e : E) (x y : Except E A) : Prop := x = .error e ∨ y = x

namespace SameUnless

variable {e : E}

theorem refl (x : Except E A) : SameUnless e x x := .inr rfl

theorem bind {f g : A → Except E B} (first : SameUnless e x y)
    (next : ∀ a, SameUnless e (f a) (g a)) : SameUnless e (x >>= f) (y >>= g) := by
  rcases first with failed | same
  · rw [failed]
    exact .inl rfl
  · subst same
    cases y with
    | error e => exact .refl _
    | ok a => exact next a

theorem eq_of_ne (same : SameUnless e x y) (fine : x ≠ .error e) : y = x :=
  same.resolve_left fine

end SameUnless

end VanillaRtb.Lib
