import Mathlib

/-! # Parsing expressions

Ordered choice and greedy repetition, run with fuel: an expression can fail, take the
front of the input, or never return. Read without order and greed an expression denotes a
language, which contains everything it takes. Where one symbol of lookahead decides every
choice and the end of every repetition, everything in the language is taken as well.
-/

namespace VanillaRtb.Lib

open scoped Computability

/-- Expressions on symbols of `α`; `ι` names the parts that are handed to the caller. -/
inductive Peg (α ι : Type) where
  | eps
  | sat (p : α → Bool)
  /-- A parser of its own, which tells how many symbols it takes. -/
  | scan (width : List α → Option Nat)
  /-- Takes nothing and hands it over. -/
  | attr (i : ι)
  | seq (e f : Peg α ι)
  | alt (e f : Peg α ι)
  | star (e : Peg α ι)
  /-- Takes nothing, and fails where `e` does not. -/
  | not (e : Peg α ι)
  /-- Hands over what `e` takes. -/
  | raw (i : ι) (e : Peg α ι)

namespace Peg

structure Match (α ι : Type) where
  text : List α
  parts : List (ι × List α)
  rest : List α
  deriving DecidableEq

variable {α ι : Type} {e f : Peg α ι} {s t rest : List α} {m m' : Match α ι} {n k : Nat}

def Match.then (m m' : Match α ι) : Match α ι := ⟨m.text ++ m'.text, m.parts ++ m'.parts, m'.rest⟩

def Match.hand (i : ι) (m : Match α ι) : Match α ι := ⟨m.text, [(i, m.text)], m.rest⟩

def plus (e : Peg α ι) : Peg α ι := seq e (star e)

def opt (e : Peg α ι) : Peg α ι := alt e eps

def many : Nat → Peg α ι → Peg α ι
  | 0, _ => eps
  | n + 1, e => seq e (many n e)

/-- At least `low` and at most `low + more` times. -/
def between (low more : Nat) (e : Peg α ι) : Peg α ι :=
  match more with
  | 0 => many low e
  | more + 1 => seq (many low e) (go more e)
where
  go : Nat → Peg α ι → Peg α ι
  | 0, e => opt e
  | more + 1, e => opt (seq e (go more e))

def lit [BEq α] (symbols : List α) : Peg α ι :=
  symbols.foldr (fun c e => seq (sat (· == c)) e) eps

/-- Nothing where the fuel does not suffice, otherwise whether the expression matches. -/
@[simp] def run : Nat → Peg α ι → List α → Option (Option (Match α ι))
  | 0, _, _ => none
  | _ + 1, eps, s => some (some ⟨[], [], s⟩)
  | _ + 1, sat _, [] => some none
  | _ + 1, sat p, c :: s => some (if p c then some ⟨[c], [], s⟩ else none)
  | _ + 1, scan width, s => some ((width s).map fun n => ⟨s.take n, [], s.drop n⟩)
  | _ + 1, attr i, s => some (some ⟨[], [(i, [])], s⟩)
  | n + 1, seq e f, s => (run n e s).bind fun
      | none => some none
      | some m => (run n f m.rest).map (Option.map m.then)
  | n + 1, alt e f, s => (run n e s).bind fun
      | none => run n f s
      | some m => some (some m)
  | n + 1, star e, s => (run n e s).bind fun
      | none => some (some ⟨[], [], s⟩)
      | some m => (run n (star e) m.rest).map (Option.map m.then)
  | n + 1, not e, s => (run n e s).map fun
      | none => some ⟨[], [], s⟩
      | some _ => none
  | n + 1, raw i e, s => (run n e s).map (Option.map (Match.hand i))

def Takes (e : Peg α ι) (s : List α) (m : Match α ι) : Prop := ∃ n, run n e s = some (some m)

def Fails (e : Peg α ι) (s : List α) : Prop := ∃ n, run n e s = some none

def Returns (e : Peg α ι) (s : List α) : Prop := ∃ n, (run n e s).isSome

section Fuel

theorem run_mono (more : n ≤ k) (done : run n e s = some r) : run k e s = some r := by
  induction n generalizing e s k r with
  | zero => simp [run] at done
  | succ n ih =>
      obtain ⟨k, rfl⟩ : ∃ l, k = l + 1 := ⟨k - 1, by omega⟩
      have less : n ≤ k := by omega
      cases e with
      | eps => simpa [run] using done
      | sat p => cases s <;> simpa [run] using done
      | scan width => simpa [run] using done
      | attr i => simpa [run] using done
      | seq e f =>
          simp only [run, Option.bind_eq_some_iff] at done ⊢
          obtain ⟨first, taken, after⟩ := done
          refine ⟨first, ih less taken, ?_⟩
          cases first with
          | none => exact after
          | some m =>
              simp only [Option.map_eq_some_iff] at after ⊢
              obtain ⟨second, taken, joined⟩ := after
              exact ⟨second, ih less taken, joined⟩
      | alt e f =>
          simp only [run, Option.bind_eq_some_iff] at done ⊢
          obtain ⟨first, taken, after⟩ := done
          refine ⟨first, ih less taken, ?_⟩
          cases first with
          | none => exact ih less after
          | some m => exact after
      | star e =>
          simp only [run, Option.bind_eq_some_iff] at done ⊢
          obtain ⟨first, taken, after⟩ := done
          refine ⟨first, ih less taken, ?_⟩
          cases first with
          | none => exact after
          | some m =>
              simp only [Option.map_eq_some_iff] at after ⊢
              obtain ⟨second, taken, joined⟩ := after
              exact ⟨second, ih less taken, joined⟩
      | not e =>
          simp only [run, Option.map_eq_some_iff] at done ⊢
          obtain ⟨first, taken, after⟩ := done
          exact ⟨first, ih less taken, after⟩
      | raw i e =>
          simp only [run, Option.map_eq_some_iff] at done ⊢
          obtain ⟨first, taken, after⟩ := done
          exact ⟨first, ih less taken, after⟩

theorem run_unique (here : run n e s = some r) (there : run k e s = some r') : r = r' := by
  have one := run_mono (Nat.le_max_left n k) here
  have other := run_mono (Nat.le_max_right n k) there
  exact Option.some.inj (one.symm.trans other)

/-- A sequence that has ended has ended its first part with the same fuel. -/
theorem run_seq_left (done : run n (seq e f) s = some r) : ∃ r', run n e s = some r' := by
  cases n with
  | zero => cases done
  | succ n =>
      simp only [run, Option.bind_eq_some_iff] at done
      obtain ⟨first, taken, -⟩ := done
      exact ⟨first, run_mono (Nat.le_succ n) taken⟩

theorem Takes.unique (here : Takes e s m) (there : Takes e s m') : m = m' := by
  obtain ⟨n, here⟩ := here
  obtain ⟨k, there⟩ := there
  exact Option.some.inj (run_unique here there)

theorem Takes.not_fails (taken : Takes e s m) : ¬ Fails e s := by
  intro failed
  obtain ⟨n, taken⟩ := taken
  obtain ⟨k, failed⟩ := failed
  cases run_unique taken failed

theorem returns_iff : Returns e s ↔ Fails e s ∨ ∃ m, Takes e s m := by
  constructor
  · intro done
    obtain ⟨n, done⟩ := done
    obtain ⟨r, same⟩ := Option.isSome_iff_exists.mp done
    cases r with
    | none => exact .inl ⟨n, same⟩
    | some m => exact .inr ⟨m, n, same⟩
  · intro either
    cases either with
    | inl failed =>
        obtain ⟨n, same⟩ := failed
        exact ⟨n, by simp [same]⟩
    | inr taken =>
        obtain ⟨m, n, same⟩ := taken
        exact ⟨n, by simp [same]⟩

end Fuel

section Rules

theorem takes_eps : Takes (eps : Peg α ι) s m ↔ m = ⟨[], [], s⟩ := by
  constructor
  · intro taken
    exact taken.unique ⟨1, rfl⟩
  · intro same
    exact ⟨1, by simp [run, same]⟩

theorem not_fails_eps : ¬ Fails (eps : Peg α ι) s := by
  have taken : Takes (eps : Peg α ι) s ⟨[], [], s⟩ := takes_eps.mpr rfl
  exact taken.not_fails

theorem takes_attr : Takes (attr i : Peg α ι) s m ↔ m = ⟨[], [(i, [])], s⟩ := by
  constructor
  · intro taken
    exact taken.unique ⟨1, rfl⟩
  · intro same
    exact ⟨1, by simp [run, same]⟩

theorem not_fails_attr : ¬ Fails (attr i : Peg α ι) s := by
  have taken : Takes (attr i : Peg α ι) s ⟨[], [(i, [])], s⟩ := takes_attr.mpr rfl
  exact taken.not_fails

theorem takes_sat {p : α → Bool} : Takes (sat p : Peg α ι) s m ↔
    ∃ c rest, s = c :: rest ∧ p c = true ∧ m = ⟨[c], [], rest⟩ := by
  constructor
  · intro taken
    obtain ⟨n, done⟩ := taken
    cases n with
    | zero => simp [run] at done
    | succ n =>
        cases s with
        | nil => simp [run] at done
        | cons c rest =>
            simp only [run, Option.some.injEq, Option.ite_none_right_eq_some] at done
            exact ⟨c, rest, rfl, done.1, done.2.symm⟩
  · intro front
    obtain ⟨c, rest, rfl, here, rfl⟩ := front
    exact ⟨1, by simp [run, here]⟩

theorem fails_sat {p : α → Bool} :
    Fails (sat p : Peg α ι) s ↔ ∀ c, s.head? = some c → p c = false := by
  constructor
  · intro failed c head
    obtain ⟨n, done⟩ := failed
    cases n with
    | zero => simp [run] at done
    | succ n =>
        cases s with
        | nil => cases head
        | cons d rest =>
            cases head
            simpa [run] using done
  · intro none_
    refine ⟨1, ?_⟩
    cases s with
    | nil => rfl
    | cons c rest => simp [run, none_ c rfl]

theorem takes_scan {width : List α → Option Nat} : Takes (scan width : Peg α ι) s m ↔
    ∃ n, width s = some n ∧ m = ⟨s.take n, [], s.drop n⟩ := by
  constructor
  · intro taken
    obtain ⟨n, done⟩ := taken
    cases n with
    | zero => simp [run] at done
    | succ n =>
        simp only [run, Option.some.injEq, Option.map_eq_some_iff] at done
        obtain ⟨w, wide, same⟩ := done
        exact ⟨w, wide, same.symm⟩
  · intro wide
    obtain ⟨n, wide, rfl⟩ := wide
    exact ⟨1, by simp [run, wide]⟩

theorem fails_scan {width : List α → Option Nat} :
    Fails (scan width : Peg α ι) s ↔ width s = none := by
  constructor
  · intro failed
    obtain ⟨n, done⟩ := failed
    cases n with
    | zero => simp [run] at done
    | succ n => simpa [run] using done
  · intro none_
    exact ⟨1, by simp [run, none_]⟩

theorem Takes.seq (first : Takes e s m) (second : Takes f m.rest m') :
    Takes (seq e f) s (m.then m') := by
  obtain ⟨n, first⟩ := first
  obtain ⟨k, second⟩ := second
  refine ⟨max n k + 1, ?_⟩
  simp [run, run_mono (Nat.le_max_left n k) first, run_mono (Nat.le_max_right n k) second]

theorem Fails.seq_left (failed : Fails e s) : Fails (seq e f) s := by
  obtain ⟨n, failed⟩ := failed
  exact ⟨n + 1, by simp [run, failed]⟩

theorem Fails.seq_right (first : Takes e s m) (failed : Fails f m.rest) : Fails (seq e f) s := by
  obtain ⟨n, first⟩ := first
  obtain ⟨k, failed⟩ := failed
  refine ⟨max n k + 1, ?_⟩
  simp [run, run_mono (Nat.le_max_left n k) first, run_mono (Nat.le_max_right n k) failed]

theorem Returns.seq (done : Returns (seq e f) s) :
    Fails e s ∨ ∃ m, Takes e s m ∧ Returns f m.rest := by
  obtain ⟨n, done⟩ := done
  cases n with
  | zero => simp [run] at done
  | succ n =>
      simp only [run] at done
      cases first : run n e s with
      | none => simp [first] at done
      | some r =>
          cases r with
          | none => exact .inl ⟨n, first⟩
          | some m => exact .inr ⟨m, ⟨n, first⟩, n, by simpa [first] using done⟩

theorem takes_seq : Takes (seq e f) s m ↔
    ∃ a b, Takes e s a ∧ Takes f a.rest b ∧ m = a.then b := by
  constructor
  · intro taken
    have done : Returns (Peg.seq e f) s := returns_iff.mpr (.inr ⟨m, taken⟩)
    cases done.seq with
    | inl failed => exact absurd failed.seq_left taken.not_fails
    | inr first =>
        obtain ⟨a, first, done⟩ := first
        cases returns_iff.mp done with
        | inl failed => exact absurd (Fails.seq_right first failed) taken.not_fails
        | inr second =>
            obtain ⟨b, second⟩ := second
            exact ⟨a, b, first, second, taken.unique (first.seq second)⟩
  · intro both
    obtain ⟨a, b, first, second, rfl⟩ := both
    exact first.seq second

theorem fails_seq : Fails (seq e f) s ↔ Fails e s ∨ ∃ m, Takes e s m ∧ Fails f m.rest := by
  constructor
  · intro failed
    have done : Returns (Peg.seq e f) s := returns_iff.mpr (.inl failed)
    cases done.seq with
    | inl first => exact .inl first
    | inr first =>
        obtain ⟨m, first, done⟩ := first
        cases returns_iff.mp done with
        | inl second => exact .inr ⟨m, first, second⟩
        | inr second =>
            obtain ⟨b, second⟩ := second
            exact absurd failed (first.seq second).not_fails
  · intro either
    cases either with
    | inl first => exact first.seq_left
    | inr second =>
        obtain ⟨m, first, second⟩ := second
        exact Fails.seq_right first second

theorem Takes.alt_left (taken : Takes e s m) : Takes (alt e f) s m := by
  obtain ⟨n, taken⟩ := taken
  exact ⟨n + 1, by simp only [run, taken, Option.bind_some]⟩

theorem Takes.alt_right (failed : Fails e s) (taken : Takes f s m) : Takes (alt e f) s m := by
  obtain ⟨n, failed⟩ := failed
  obtain ⟨k, taken⟩ := taken
  refine ⟨max n k + 1, ?_⟩
  simp only [run, run_mono (Nat.le_max_left n k) failed, Option.bind_some,
    run_mono (Nat.le_max_right n k) taken]

theorem Fails.alt (first : Fails e s) (second : Fails f s) : Fails (alt e f) s := by
  obtain ⟨n, first⟩ := first
  obtain ⟨k, second⟩ := second
  refine ⟨max n k + 1, ?_⟩
  simp only [run, run_mono (Nat.le_max_left n k) first, Option.bind_some,
    run_mono (Nat.le_max_right n k) second]

theorem Returns.alt (done : Returns (alt e f) s) :
    (∃ m, Takes e s m) ∨ Fails e s ∧ Returns f s := by
  obtain ⟨n, done⟩ := done
  cases n with
  | zero => simp [run] at done
  | succ n =>
      simp only [run] at done
      cases first : run n e s with
      | none => simp [first] at done
      | some r =>
          cases r with
          | none => exact .inr ⟨⟨n, first⟩, n, by simpa [first] using done⟩
          | some m => exact .inl ⟨m, n, first⟩

theorem takes_alt : Takes (alt e f) s m ↔ Takes e s m ∨ Fails e s ∧ Takes f s m := by
  constructor
  · intro taken
    have done : Returns (Peg.alt e f) s := returns_iff.mpr (.inr ⟨m, taken⟩)
    cases done.alt with
    | inl first =>
        obtain ⟨a, first⟩ := first
        cases taken.unique first.alt_left
        exact .inl first
    | inr second =>
        cases returns_iff.mp second.2 with
        | inl failed => exact absurd (second.1.alt failed) taken.not_fails
        | inr other =>
            obtain ⟨b, other⟩ := other
            cases taken.unique (Takes.alt_right second.1 other)
            exact .inr ⟨second.1, other⟩
  · intro either
    cases either with
    | inl first => exact first.alt_left
    | inr second => exact Takes.alt_right second.1 second.2

theorem fails_alt : Fails (alt e f) s ↔ Fails e s ∧ Fails f s := by
  constructor
  · intro failed
    have done : Returns (Peg.alt e f) s := returns_iff.mpr (.inl failed)
    cases done.alt with
    | inl first =>
        obtain ⟨a, first⟩ := first
        exact absurd failed first.alt_left.not_fails
    | inr second =>
        refine ⟨second.1, ?_⟩
        cases returns_iff.mp second.2 with
        | inl other => exact other
        | inr other =>
            obtain ⟨b, other⟩ := other
            exact absurd failed (Takes.alt_right second.1 other).not_fails
  · intro both
    exact both.1.alt both.2

theorem Takes.star_stop (failed : Fails e s) : Takes (star e) s ⟨[], [], s⟩ := by
  obtain ⟨n, failed⟩ := failed
  exact ⟨n + 1, by simp [run, failed]⟩

theorem Takes.star_step (first : Takes e s m) (later : Takes (star e) m.rest m') :
    Takes (star e) s (m.then m') := by
  obtain ⟨n, first⟩ := first
  obtain ⟨k, later⟩ := later
  refine ⟨max n k + 1, ?_⟩
  simp [run, run_mono (Nat.le_max_left n k) first, run_mono (Nat.le_max_right n k) later]

/-- A repetition that returns has come to where its body fails. -/
theorem Returns.star_induction {P : List α → Match α ι → Prop} (done : Returns (star e) s)
    (stop : ∀ s, Fails e s → P s ⟨[], [], s⟩)
    (step : ∀ s m m', Takes e s m → Takes (star e) m.rest m' → P m.rest m' → P s (m.then m')) :
    ∃ m, Takes (star e) s m ∧ P s m := by
  obtain ⟨n, done⟩ := done
  induction n generalizing s with
  | zero => simp [run] at done
  | succ n ih =>
      simp only [run] at done
      cases first : run n e s with
      | none => simp [first] at done
      | some r =>
          cases r with
          | none => exact ⟨⟨[], [], s⟩, .star_stop ⟨n, first⟩, stop s ⟨n, first⟩⟩
          | some m =>
              have rest : (run n (Peg.star e) m.rest).isSome := by simpa [first] using done
              obtain ⟨m', taken, holds⟩ := ih rest
              have here : Takes e s m := ⟨n, first⟩
              exact ⟨m.then m', here.star_step taken, step s m m' here taken holds⟩

theorem not_fails_star : ¬ Fails (star e) s := by
  intro failed
  have done : Returns (star e) s := returns_iff.mpr (.inl failed)
  obtain ⟨m, taken, -⟩ := done.star_induction (P := fun _ _ => True) (fun _ _ => trivial)
    (fun _ _ _ _ _ _ => trivial)
  exact taken.not_fails failed

theorem takes_star : Takes (star e) s m ↔ Fails e s ∧ m = ⟨[], [], s⟩ ∨
    ∃ a b, Takes e s a ∧ Takes (star e) a.rest b ∧ m = a.then b := by
  constructor
  · intro taken
    have done : Returns (star e) s := returns_iff.mpr (.inr ⟨m, taken⟩)
    obtain ⟨m', again, holds⟩ := done.star_induction
      (P := fun s m => Fails e s ∧ m = ⟨[], [], s⟩ ∨
        ∃ a b, Takes e s a ∧ Takes (star e) a.rest b ∧ m = a.then b)
      (fun s failed => .inl ⟨failed, rfl⟩)
      (fun s a b first later _ => .inr ⟨a, b, first, later, rfl⟩)
    cases taken.unique again
    exact holds
  · intro either
    cases either with
    | inl stopped => exact stopped.2 ▸ Takes.star_stop stopped.1
    | inr stepped =>
        obtain ⟨a, b, first, later, rfl⟩ := stepped
        exact first.star_step later

/-- A loop around a body that cannot fail never returns. -/
theorem not_returns_star (holds : ∀ s, ¬ Fails e s) : ¬ Returns (star e) s := by
  intro done
  obtain ⟨m, -, no⟩ := done.star_induction (P := fun _ _ => False) holds
    (fun _ _ _ _ _ no => no)
  exact no

theorem returns_seq (first : Returns e s) (second : ∀ m, Takes e s m → Returns f m.rest) :
    Returns (seq e f) s := by
  apply returns_iff.mpr
  cases returns_iff.mp first with
  | inl failed => exact .inl failed.seq_left
  | inr taken =>
      obtain ⟨m, taken⟩ := taken
      cases returns_iff.mp (second m taken) with
      | inl failed => exact .inl (Fails.seq_right taken failed)
      | inr after =>
          obtain ⟨m', after⟩ := after
          exact .inr ⟨_, taken.seq after⟩

theorem returns_alt (first : Returns e s) (second : Fails e s → Returns f s) :
    Returns (alt e f) s := by
  apply returns_iff.mpr
  cases returns_iff.mp first with
  | inr taken =>
      obtain ⟨m, taken⟩ := taken
      exact .inr ⟨m, taken.alt_left⟩
  | inl failed =>
      cases returns_iff.mp (second failed) with
      | inl other => exact .inl (failed.alt other)
      | inr after =>
          obtain ⟨m, after⟩ := after
          exact .inr ⟨m, .alt_right failed after⟩

theorem takes_not : Takes (not e) s m ↔ Fails e s ∧ m = ⟨[], [], s⟩ := by
  constructor
  · intro taken
    obtain ⟨n, done⟩ := taken
    cases n with
    | zero => simp [run] at done
    | succ n =>
        simp only [run, Option.map_eq_some_iff] at done
        obtain ⟨r, first, same⟩ := done
        cases r with
        | none => exact ⟨⟨n, first⟩, (Option.some.inj same).symm⟩
        | some a => cases same
  · intro failed
    obtain ⟨⟨n, first⟩, rfl⟩ := failed
    exact ⟨n + 1, by simp [run, first]⟩

theorem fails_not : Fails (not e) s ↔ ∃ m, Takes e s m := by
  constructor
  · intro failed
    obtain ⟨n, done⟩ := failed
    cases n with
    | zero => simp [run] at done
    | succ n =>
        simp only [run, Option.map_eq_some_iff] at done
        obtain ⟨r, first, same⟩ := done
        cases r with
        | none => cases same
        | some a => exact ⟨a, n, first⟩
  · intro taken
    obtain ⟨m, n, first⟩ := taken
    exact ⟨n + 1, by simp [run, first]⟩

theorem takes_raw : Takes (raw i e) s m ↔ ∃ a, Takes e s a ∧ m = a.hand i := by
  constructor
  · intro taken
    obtain ⟨n, done⟩ := taken
    cases n with
    | zero => simp [run] at done
    | succ n =>
        simp only [run, Option.map_eq_some_iff] at done
        obtain ⟨r, first, a, rfl, same⟩ := done
        exact ⟨a, ⟨n, first⟩, same.symm⟩
  · intro taken
    obtain ⟨a, ⟨n, first⟩, rfl⟩ := taken
    exact ⟨n + 1, by simp [run, first]⟩

theorem fails_raw : Fails (raw i e) s ↔ Fails e s := by
  constructor
  · intro failed
    obtain ⟨n, done⟩ := failed
    cases n with
    | zero => simp [run] at done
    | succ n =>
        simp only [run, Option.map_eq_some_iff, Option.map_eq_none_iff] at done
        obtain ⟨r, first, rfl⟩ := done
        exact ⟨n, first⟩
  · intro failed
    obtain ⟨n, first⟩ := failed
    exact ⟨n + 1, by simp [run, first]⟩

theorem takes_lit [BEq α] [LawfulBEq α] {w : List α} :
    Takes (lit w : Peg α ι) s m ↔ ∃ rest, s = w ++ rest ∧ m = ⟨w, [], rest⟩ := by
  induction w generalizing s m with
  | nil =>
      have same := takes_eps (s := s) (m := m)
      simpa [lit] using same
  | cons d w ih =>
      have unfolded : (lit (d :: w) : Peg α ι) = seq (sat (· == d)) (lit w) := rfl
      rw [unfolded, takes_seq]
      constructor
      · intro both
        obtain ⟨a, b, first, second, rfl⟩ := both
        obtain ⟨c, after, rfl, here, rfl⟩ := takes_sat.mp first
        obtain ⟨rest, rfl, rfl⟩ := ih.mp second
        cases eq_of_beq here
        exact ⟨rest, rfl, rfl⟩
      · intro front
        obtain ⟨rest, rfl, rfl⟩ := front
        exact ⟨⟨[d], [], w ++ rest⟩, ⟨w, [], rest⟩,
          takes_sat.mpr ⟨d, w ++ rest, rfl, beq_self_eq_true d, rfl⟩, ih.mpr ⟨rest, rfl, rfl⟩, rfl⟩

theorem returns_raw : Returns (raw i e) s ↔ Returns e s := by
  constructor
  · intro done
    apply returns_iff.mpr
    cases returns_iff.mp done with
    | inl failed => exact .inl (fails_raw.mp failed)
    | inr taken =>
        obtain ⟨m, taken⟩ := taken
        obtain ⟨a, inner, -⟩ := takes_raw.mp taken
        exact .inr ⟨a, inner⟩
  · intro done
    apply returns_iff.mpr
    cases returns_iff.mp done with
    | inl failed => exact .inl (fails_raw.mpr failed)
    | inr taken =>
        obtain ⟨m, taken⟩ := taken
        exact .inr ⟨_, takes_raw.mpr ⟨m, taken, rfl⟩⟩

end Rules

section Languages

/-- What an expression denotes without order, greed and lookahead. -/
def language : Peg α ι → Language α
  | eps => 1
  | sat p => {w | ∃ c, p c = true ∧ w = [c]}
  | scan width => {w | ∃ s n, width s = some n ∧ w = s.take n}
  | attr _ => 1
  | seq e f => language e * language f
  | alt e f => language e + language f
  | star e => (language e)∗
  | not _ => 1
  | raw _ e => language e

def nullable : Peg α ι → Bool
  | eps | scan _ | attr _ | star _ | not _ => true
  | sat _ => false
  | seq e f => nullable e && nullable f
  | alt e f => nullable e || nullable f
  | raw _ e => nullable e

/-- The symbols that a word of the language can begin with. -/
def firsts : Peg α ι → α → Bool
  | eps, _ | attr _, _ | not _, _ => false
  | scan _, _ => true
  | sat p, c => p c
  | seq e f, c => firsts e c || nullable e && firsts f c
  | alt e f, c => firsts e c || firsts f c
  | star e, c => firsts e c
  | raw _ e, c => firsts e c

/-- Every symbol of every word is one of `P`. -/
def Within (P : α → Bool) : Peg α ι → Prop
  | eps | attr _ | not _ => True
  | sat p => ∀ c, p c = true → P c = true
  | scan width => ∀ s n, width s = some n → (s.take n).all P = true
  | seq e f | alt e f => Within P e ∧ Within P f
  | star e => Within P e
  | raw _ e => Within P e

/-- The symbols that occur in words. -/
def symbols : Peg α ι → α → Bool
  | eps, _ | attr _, _ | not _, _ => false
  | scan _, _ => true
  | sat p, c => p c
  | seq e f, c | alt e f, c => symbols e c || symbols f c
  | star e, c | raw _ e, c => symbols e c

theorem within_of_symbols {P : α → Bool} (all : ∀ c, symbols e c = true → P c = true) :
    Within P e := by
  induction e with
  | eps | attr | not => trivial
  | sat p => exact all
  | scan width =>
      intro s n _
      rw [List.all_eq_true]
      intro c _
      exact all c rfl
  | seq e f ihe ihf | alt e f ihe ihf =>
      simp only [symbols, Bool.or_eq_true] at all
      exact ⟨ihe fun c here => all c (.inl here), ihf fun c here => all c (.inr here)⟩
  | star e ih | raw i e ih => exact ih all

theorem Within.word {P : α → Bool} (within : Within P e) (word : t ∈ language e) :
    t.all P = true := by
  induction e generalizing t with
  | eps | attr i | not e =>
      cases word
      rfl
  | sat p =>
      obtain ⟨c, here, rfl⟩ := word
      simp [within c here]
  | scan width =>
      obtain ⟨s, n, wide, rfl⟩ := word
      exact within s n wide
  | seq e f ihe ihf =>
      obtain ⟨a, first, b, second, rfl⟩ := Language.mem_mul.mp word
      rw [List.all_append, ihe within.1 first, ihf within.2 second, Bool.and_true]
  | alt e f ihe ihf =>
      cases word with
      | inl first => exact ihe within.1 first
      | inr second => exact ihf within.2 second
  | star e ih =>
      obtain ⟨words, rfl, all⟩ := Language.mem_kstar.mp word
      simp only [List.all_flatten, List.all_eq_true]
      intro w member
      exact List.all_eq_true.mp (ih within (all w member))
  | raw i e ih => exact ih within word

theorem Takes.append (taken : Takes e s m) : s = m.text ++ m.rest := by
  induction e generalizing s m with
  | eps => cases takes_eps.mp taken; rfl
  | sat p =>
      obtain ⟨c, rest, rfl, -, rfl⟩ := takes_sat.mp taken
      rfl
  | scan width =>
      obtain ⟨n, -, rfl⟩ := takes_scan.mp taken
      exact (List.take_append_drop n s).symm
  | attr i => cases takes_attr.mp taken; rfl
  | seq e f ihe ihf =>
      obtain ⟨a, b, first, second, rfl⟩ := takes_seq.mp taken
      calc s = a.text ++ a.rest := ihe first
        _ = a.text ++ (b.text ++ b.rest) := by rw [← ihf second]
        _ = (a.then b).text ++ (a.then b).rest := by simp [Match.then]
  | alt e f ihe ihf =>
      cases takes_alt.mp taken with
      | inl first => exact ihe first
      | inr second => exact ihf second.2
  | star e ih =>
      obtain ⟨m', again, holds⟩ := (returns_iff.mpr (.inr ⟨m, taken⟩)).star_induction
        (P := fun s m => s = m.text ++ m.rest) (fun _ _ => rfl) (by
          intro s a b first _ later
          calc s = a.text ++ a.rest := ih first
            _ = a.text ++ (b.text ++ b.rest) := by rw [← later]
            _ = (a.then b).text ++ (a.then b).rest := by simp [Match.then])
      exact taken.unique again ▸ holds
  | not e => obtain ⟨-, rfl⟩ := takes_not.mp taken; rfl
  | raw i e ih =>
      obtain ⟨a, first, rfl⟩ := takes_raw.mp taken
      simpa [Match.hand] using ih first

/-- Whatever order and greed choose is a word of the language. -/
theorem Takes.mem_language (taken : Takes e s m) : m.text ∈ language e := by
  induction e generalizing s m with
  | eps => cases takes_eps.mp taken; exact Language.nil_mem_one
  | sat p =>
      obtain ⟨c, rest, -, here, rfl⟩ := takes_sat.mp taken
      exact ⟨c, here, rfl⟩
  | scan width =>
      obtain ⟨n, wide, rfl⟩ := takes_scan.mp taken
      exact ⟨s, n, wide, rfl⟩
  | attr i => cases takes_attr.mp taken; exact Language.nil_mem_one
  | seq e f ihe ihf =>
      obtain ⟨a, b, first, second, rfl⟩ := takes_seq.mp taken
      exact Language.append_mem_mul (ihe first) (ihf second)
  | alt e f ihe ihf =>
      cases takes_alt.mp taken with
      | inl first => exact .inl (ihe first)
      | inr second => exact .inr (ihf second.2)
  | star e ih =>
      obtain ⟨m', again, holds⟩ := (returns_iff.mpr (.inr ⟨m, taken⟩)).star_induction
        (P := fun _ m => m.text ∈ (language e)∗) (fun _ _ => Language.nil_mem_kstar _) (by
          intro s a b first _ later
          obtain ⟨words, whole, all⟩ := Language.mem_kstar.mp later
          refine Language.mem_kstar.mpr ⟨a.text :: words, by simp [Match.then, whole], ?_⟩
          exact List.forall_mem_cons.mpr ⟨ih first, all⟩)
      exact taken.unique again ▸ holds
  | not e => obtain ⟨-, rfl⟩ := takes_not.mp taken; exact Language.nil_mem_one
  | raw i e ih =>
      obtain ⟨a, first, rfl⟩ := takes_raw.mp taken
      simpa [Match.hand, language] using ih first

/-- A run that takes all of a word shows that it is one. -/
theorem mem_language_of_run (n : Nat) (ran : run n e t = some (some ⟨t, [], []⟩)) :
    t ∈ language e :=
  Takes.mem_language ⟨n, ran⟩

theorem nullable_of_nil (empty : [] ∈ language e) : nullable e = true := by
  induction e with
  | sat p =>
      obtain ⟨c, -, no⟩ := empty
      cases no
  | seq e f ihe ihf =>
      obtain ⟨a, first, b, second, joined⟩ := Language.mem_mul.mp empty
      obtain ⟨rfl, rfl⟩ := List.append_eq_nil_iff.mp joined
      simp [nullable, ihe first, ihf second]
  | alt e f ihe ihf =>
      cases empty with
      | inl first => simp [nullable, ihe first]
      | inr second => simp [nullable, ihf second]
  | raw i e ih => exact ih empty
  | _ => rfl

theorem firsts_of_cons (word : c :: w ∈ language e) : firsts e c = true := by
  induction e generalizing c w with
  | eps | attr | not => cases word
  | sat p =>
      obtain ⟨d, here, same⟩ := word
      cases same
      exact here
  | scan => rfl
  | seq e f ihe ihf =>
      obtain ⟨a, first, b, second, joined⟩ := Language.mem_mul.mp word
      cases a with
      | nil =>
          cases joined
          simp [firsts, nullable_of_nil first, ihf second]
      | cons d a =>
          cases joined
          simp [firsts, ihe first]
  | alt e f ihe ihf =>
      cases word with
      | inl first => simp [firsts, ihe first]
      | inr second => simp [firsts, ihf second]
  | star e ih =>
      obtain ⟨words, whole, all⟩ := Language.mem_kstar_iff_exists_nonempty.mp word
      cases words with
      | nil => cases whole
      | cons v words =>
          obtain ⟨here, some_⟩ := all v List.mem_cons_self
          cases v with
          | nil => exact absurd rfl some_
          | cons d v =>
              cases whole
              exact ih here
  | raw i e ih => exact ih word

end Languages

section Termination

/-- Whether the body of every loop takes something each time. -/
def advances : Peg α ι → Bool
  | eps | sat _ | scan _ | attr _ => true
  | seq e f | alt e f => advances e && advances f
  | star e => advances e && !nullable e
  | not e | raw _ e => advances e

theorem returns_star (all : ∀ s, Returns e s) (some_ : nullable e = false) (s : List α) :
    Returns (star e) s := by
  generalize size : s.length = k
  induction k using Nat.strong_induction_on generalizing s with
  | h k ih =>
      cases returns_iff.mp (all s) with
      | inl failed => exact returns_iff.mpr (.inr ⟨_, .star_stop failed⟩)
      | inr first =>
          obtain ⟨m, first⟩ := first
          have longer : m.text ≠ [] := by
            intro empty
            have yes := nullable_of_nil (empty ▸ first.mem_language)
            simp [some_] at yes
          have whole : s.length = m.text.length + m.rest.length := by
            simp [first.append]
          have less : m.rest.length < k := by
            have := List.length_pos_iff.mpr longer
            omega
          cases returns_iff.mp (ih m.rest.length less m.rest rfl) with
          | inl failed => exact absurd failed not_fails_star
          | inr later =>
              obtain ⟨m', later⟩ := later
              exact returns_iff.mpr (.inr ⟨_, first.star_step later⟩)

theorem returns_of_advances (ok : advances e = true) (s : List α) : Returns e s := by
  induction e generalizing s with
  | eps => exact returns_iff.mpr (.inr ⟨_, takes_eps.mpr rfl⟩)
  | attr i => exact returns_iff.mpr (.inr ⟨_, takes_attr.mpr rfl⟩)
  | sat p =>
      cases s with
      | nil => exact ⟨1, rfl⟩
      | cons c s => exact ⟨1, by simp⟩
  | scan width => exact ⟨1, by simp⟩
  | seq e f ihe ihf =>
      simp only [advances, Bool.and_eq_true] at ok
      exact returns_seq (ihe ok.1 s) fun m _ => ihf ok.2 m.rest
  | alt e f ihe ihf =>
      simp only [advances, Bool.and_eq_true] at ok
      exact returns_alt (ihe ok.1 s) fun _ => ihf ok.2 s
  | star e ih =>
      simp only [advances, Bool.and_eq_true, Bool.not_eq_true'] at ok
      exact returns_star (ih ok.1) ok.2 s
  | not e ih =>
      apply returns_iff.mpr
      cases returns_iff.mp (ih ok s) with
      | inl failed => exact .inr ⟨_, takes_not.mpr ⟨failed, rfl⟩⟩
      | inr taken => exact .inl (fails_not.mpr taken)
  | raw i e ih => exact returns_raw.mpr (ih ok s)

theorem fails_or_takes (ok : advances e = true) (s : List α) : Fails e s ∨ ∃ m, Takes e s m :=
  returns_iff.mp (returns_of_advances ok s)

theorem advances_lit [BEq α] (w : List α) : advances (lit w : Peg α ι) = true := by
  induction w with
  | nil => rfl
  | cons d w ih => exact ih

theorem fails_lit [BEq α] [LawfulBEq α] {w : List α} :
    Fails (lit w : Peg α ι) s ↔ ¬ w <+: s := by
  constructor
  · intro failed front
    obtain ⟨rest, rfl⟩ := front
    exact (takes_lit.mpr ⟨rest, rfl, rfl⟩ : Takes (lit w) _ _).not_fails failed
  · intro other
    cases fails_or_takes (advances_lit w) s with
    | inl failed => exact failed
    | inr taken =>
        obtain ⟨m, taken⟩ := taken
        obtain ⟨rest, rfl, -⟩ := takes_lit.mp taken
        exact absurd ⟨rest, rfl⟩ other

end Termination

section Framing

/-- Whether the expression treats `tail` as it treats the end of the input. -/
def Stops : Peg α ι → List α → Prop
  | eps, _ | attr _, _ => True
  | sat p, tail => ∀ c, tail.head? = some c → p c = false
  | scan width, tail => ∀ s, width (s ++ tail) = width s ∧ ∀ n, width s = some n → n ≤ s.length
  | seq e f, tail | alt e f, tail => Stops e tail ∧ Stops f tail
  | star e, tail | not e, tail | raw _ e, tail => Stops e tail

def Match.extend (tail : List α) (m : Match α ι) : Match α ι := ⟨m.text, m.parts, m.rest ++ tail⟩

theorem run_append (stops : Stops e tail) (n : Nat) (s : List α) :
    run n e (s ++ tail) = (run n e s).map (Option.map (Match.extend tail)) := by
  induction n generalizing e s with
  | zero => rfl
  | succ n ih =>
      cases e with
      | eps => rfl
      | attr i => rfl
      | sat p =>
          cases s with
          | cons c s => by_cases here : p c <;> simp [here, Match.extend]
          | nil =>
              cases tail with
              | nil => rfl
              | cons d tail => simp [stops d rfl]
      | scan width =>
          obtain ⟨same, bound⟩ := stops s
          cases wide : width s with
          | none => simp [same, wide]
          | some k =>
              have inside := bound k wide
              simp [same, wide, Match.extend, List.take_append_of_le_length inside,
                List.drop_append_of_le_length inside]
      | seq e f =>
          simp only [run, ih stops.1]
          cases first : run n e s with
          | none => rfl
          | some r =>
              cases r with
              | none => rfl
              | some m =>
                  simp only [Option.map_some, Option.bind_some, Match.extend, ih stops.2,
                    Option.map_map]
                  congr 1
                  funext r
                  cases r <;> rfl
      | alt e f =>
          simp only [run, ih stops.1]
          cases first : run n e s with
          | none => rfl
          | some r =>
              cases r with
              | none => exact ih stops.2 s
              | some m => rfl
      | star e =>
          simp only [run, ih (e := e) stops]
          cases first : run n e s with
          | none => rfl
          | some r =>
              cases r with
              | none => rfl
              | some m =>
                  simp only [Option.map_some, Option.bind_some, Match.extend,
                    ih (e := star e) stops, Option.map_map]
                  congr 1
                  funext r
                  cases r <;> rfl
      | not e =>
          simp only [run, ih (e := e) stops]
          cases first : run n e s with
          | none => rfl
          | some r => cases r <;> rfl
      | raw i e =>
          simp only [run, ih (e := e) stops, Option.map_map]
          congr 1
          funext r
          cases r <;> rfl

theorem takes_append (stops : Stops e tail) :
    Takes e (s ++ tail) m ↔ ∃ a, Takes e s a ∧ m = a.extend tail := by
  constructor
  · intro taken
    obtain ⟨n, done⟩ := taken
    simp only [run_append stops, Option.map_eq_some_iff] at done
    obtain ⟨r, first, a, rfl, same⟩ := done
    exact ⟨a, ⟨n, first⟩, same.symm⟩
  · intro taken
    obtain ⟨a, ⟨n, first⟩, rfl⟩ := taken
    exact ⟨n, by simp [run_append stops, first]⟩

theorem fails_append (stops : Stops e tail) : Fails e (s ++ tail) ↔ Fails e s := by
  constructor
  · intro failed
    obtain ⟨n, done⟩ := failed
    simp only [run_append stops, Option.map_eq_some_iff, Option.map_eq_none_iff] at done
    obtain ⟨r, first, rfl⟩ := done
    exact ⟨n, first⟩
  · intro failed
    obtain ⟨n, first⟩ := failed
    exact ⟨n, by simp [run_append stops, first]⟩

end Framing

section Lookahead

/-- Whether the next symbol decides every choice and the end of every loop, where the expression is
    followed by nothing or by a symbol of `follow`. -/
def LL1 : Peg α ι → (α → Bool) → Prop
  | eps, _ | sat _, _ | attr _, _ => True
  | scan _, _ | not _, _ => False
  | seq e f, follow => LL1 e (fun c => firsts f c || nullable f && follow c) ∧ LL1 f follow
  | alt e f, follow => LL1 e follow ∧ LL1 f follow ∧ nullable e = false ∧
      ∀ c, (firsts e c && (firsts f c || nullable f && follow c)) = false
  | star e, follow => LL1 e (fun c => firsts e c || follow c) ∧ nullable e = false ∧
      ∀ c, (firsts e c && follow c) = false
  | raw _ e, follow => LL1 e follow

def decideLL1 [Fintype α] : (e : Peg α ι) → (follow : α → Bool) → Decidable (LL1 e follow)
  | eps, _ | sat _, _ | attr _, _ => inferInstanceAs (Decidable True)
  | scan _, _ | not _, _ => inferInstanceAs (Decidable False)
  | seq e f, follow =>
      have := decideLL1 e (fun c => firsts f c || nullable f && follow c)
      have := decideLL1 f follow
      inferInstanceAs (Decidable (_ ∧ _))
  | alt e f, follow =>
      have := decideLL1 e follow
      have := decideLL1 f follow
      inferInstanceAs (Decidable (_ ∧ _ ∧ _ ∧ _))
  | star e, follow =>
      have := decideLL1 e (fun c => firsts e c || follow c)
      inferInstanceAs (Decidable (_ ∧ _ ∧ _))
  | raw _ e, follow => decideLL1 e follow

instance [Fintype α] (e : Peg α ι) (follow : α → Bool) : Decidable (LL1 e follow) :=
  decideLL1 e follow

variable {follow : α → Bool}

theorem LL1.elsewhere (ll : LL1 e follow) (other : ∀ c, s.head? = some c → firsts e c = false) :
    if nullable e then ∃ parts, Takes e s ⟨[], parts, s⟩ else Fails e s := by
  induction e generalizing follow with
  | eps => exact ⟨[], takes_eps.mpr rfl⟩
  | sat p => exact fails_sat.mpr other
  | attr i => exact ⟨_, takes_attr.mpr rfl⟩
  | scan width => cases ll
  | not e => cases ll
  | raw i e ih =>
      have here := ih ll other
      cases empty : nullable e with
      | true =>
          simp only [nullable, empty, if_true] at here ⊢
          obtain ⟨parts, taken⟩ := here
          exact ⟨_, takes_raw.mpr ⟨_, taken, rfl⟩⟩
      | false =>
          simp only [nullable, empty, Bool.false_eq_true, if_false] at here ⊢
          exact fails_raw.mpr here
  | star e ih =>
      have here := ih ll.1 other
      simp only [ll.2.1, Bool.false_eq_true, if_false] at here
      exact ⟨[], .star_stop here⟩
  | alt e f ihe ihf =>
      simp only [firsts, Bool.or_eq_false_iff] at other
      have first := ihe ll.1 fun c head => (other c head).1
      simp only [ll.2.2.1, Bool.false_eq_true, if_false] at first
      have second := ihf ll.2.1 fun c head => (other c head).2
      cases empty : nullable f with
      | true =>
          simp only [nullable, ll.2.2.1, empty, Bool.or_true, if_true] at second ⊢
          obtain ⟨parts, taken⟩ := second
          exact ⟨parts, .alt_right first taken⟩
      | false =>
          simp only [nullable, ll.2.2.1, empty, Bool.or_false, Bool.false_eq_true,
            if_false] at second ⊢
          exact first.alt second
  | seq e f ihe ihf =>
      simp only [firsts, Bool.or_eq_false_iff] at other
      have first := ihe ll.1 fun c head => (other c head).1
      cases empty : nullable e with
      | false =>
          simp only [nullable, empty, Bool.false_and, Bool.false_eq_true, if_false] at first ⊢
          exact first.seq_left
      | true =>
          simp only [empty, if_true] at first
          obtain ⟨parts, taken⟩ := first
          have second := ihf ll.2 fun c head => by simpa [empty] using (other c head).2
          cases more : nullable f with
          | true =>
              simp only [nullable, empty, more, Bool.and_true, if_true] at second ⊢
              obtain ⟨others, after⟩ := second
              exact ⟨_, taken.seq after⟩
          | false =>
              simp only [nullable, empty, more, Bool.and_false, Bool.false_eq_true,
                if_false] at second ⊢
              exact Fails.seq_right taken second

theorem LL1.fails (ll : LL1 e follow) (some_ : nullable e = false)
    (other : ∀ c, s.head? = some c → firsts e c = false) : Fails e s := by
  simpa [some_] using ll.elsewhere other

/-- What follows a word begins with a symbol that can follow it. -/
theorem head_follows (word : w ∈ language f) (next : ∀ c, rest.head? = some c → follow c = true)
    (c : α) (head : (w ++ rest).head? = some c) :
    (firsts f c || nullable f && follow c) = true := by
  cases w with
  | nil => simp [nullable_of_nil word, next c head]
  | cons d w =>
      cases head
      simp [firsts_of_cons word]

/-- With one symbol of lookahead everything in the language is taken. -/
theorem LL1.takes (ll : LL1 e follow) (word : t ∈ language e)
    (next : ∀ c, rest.head? = some c → follow c = true) :
    ∃ parts, Takes e (t ++ rest) ⟨t, parts, rest⟩ := by
  induction e generalizing follow t rest with
  | eps =>
      cases word
      exact ⟨[], takes_eps.mpr rfl⟩
  | attr i =>
      cases word
      exact ⟨_, takes_attr.mpr rfl⟩
  | sat p =>
      obtain ⟨c, here, rfl⟩ := word
      exact ⟨[], takes_sat.mpr ⟨c, rest, rfl, here, rfl⟩⟩
  | scan width => cases ll
  | not e => cases ll
  | raw i e ih =>
      obtain ⟨parts, taken⟩ := ih ll word next
      exact ⟨_, takes_raw.mpr ⟨_, taken, rfl⟩⟩
  | seq e f ihe ihf =>
      obtain ⟨a, first, b, second, rfl⟩ := Language.mem_mul.mp word
      obtain ⟨parts, taken⟩ := ihe ll.1 first (head_follows second next)
      obtain ⟨others, after⟩ := ihf ll.2 second next
      rw [List.append_assoc]
      exact ⟨_, taken.seq after⟩
  | alt e f ihe ihf =>
      cases word with
      | inl first =>
          obtain ⟨parts, taken⟩ := ihe ll.1 first next
          exact ⟨parts, taken.alt_left⟩
      | inr second =>
          obtain ⟨parts, taken⟩ := ihf ll.2.1 second next
          have failed : Fails e (t ++ rest) := by
            apply ll.1.fails ll.2.2.1
            intro c head
            simpa [head_follows second next c head] using ll.2.2.2 c
          exact ⟨parts, .alt_right failed taken⟩
  | star e ih =>
      obtain ⟨words, rfl, all⟩ := Language.mem_kstar_iff_exists_nonempty.mp word
      clear word
      induction words with
      | nil =>
          have failed : Fails e rest := by
            apply ll.1.fails ll.2.1
            intro c head
            simpa [next c head] using ll.2.2 c
          exact ⟨[], .star_stop failed⟩
      | cons w words again =>
          rw [List.forall_mem_cons] at all
          have later : words.flatten ∈ language (Peg.star e) :=
            Language.mem_kstar_iff_exists_nonempty.mpr ⟨words, rfl, all.2⟩
          have between : ∀ c, (words.flatten ++ rest).head? = some c →
              (firsts e c || follow c) = true := by
            intro c head
            simpa [firsts, nullable] using head_follows later next c head
          obtain ⟨parts, taken⟩ := ih ll.1 all.1.1 between
          obtain ⟨others, after⟩ := again all.2
          rw [List.flatten_cons, List.append_assoc]
          exact ⟨_, taken.star_step after⟩

/-- Whether nothing is handed over. -/
def unnamed : Peg α ι → Bool
  | eps | sat _ | scan _ | not _ => true
  | attr _ | raw _ _ => false
  | seq e f | alt e f => unnamed e && unnamed f
  | star e => unnamed e

theorem Takes.parts_nil (plain : unnamed e = true) (taken : Takes e s m) : m.parts = [] := by
  induction e generalizing s m with
  | eps => cases takes_eps.mp taken; rfl
  | sat p =>
      obtain ⟨c, rest, -, -, rfl⟩ := takes_sat.mp taken
      rfl
  | scan width =>
      obtain ⟨n, -, rfl⟩ := takes_scan.mp taken
      rfl
  | attr i => cases plain
  | raw i e => cases plain
  | not e => obtain ⟨-, rfl⟩ := takes_not.mp taken; rfl
  | seq e f ihe ihf =>
      simp only [unnamed, Bool.and_eq_true] at plain
      obtain ⟨a, b, first, second, rfl⟩ := takes_seq.mp taken
      simp [Match.then, ihe plain.1 first, ihf plain.2 second]
  | alt e f ihe ihf =>
      simp only [unnamed, Bool.and_eq_true] at plain
      cases takes_alt.mp taken with
      | inl first => exact ihe plain.1 first
      | inr second => exact ihf plain.2 second.2
  | star e ih =>
      obtain ⟨m', again, holds⟩ := (returns_iff.mpr (.inr ⟨m, taken⟩)).star_induction
        (P := fun _ m => m.parts = []) (fun _ _ => rfl) (by
          intro s a b first _ later
          simp [Match.then, ih plain first, later])
      exact taken.unique again ▸ holds

theorem LL1.takes_unnamed (ll : LL1 e follow) (plain : unnamed e = true) (word : t ∈ language e)
    (next : ∀ c, rest.head? = some c → follow c = true) :
    Takes e (t ++ rest) ⟨t, [], rest⟩ := by
  obtain ⟨parts, taken⟩ := ll.takes word next
  cases taken.parts_nil plain
  exact taken

end Lookahead

end Peg

end VanillaRtb.Lib
