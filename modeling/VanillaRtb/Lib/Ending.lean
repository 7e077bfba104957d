import VanillaRtb.Lib.Transition

/-! # Runs that must come to an end

What is promised of an activity is promised of each of its runs, of whatever steps are
allowed: that it is short enough, that nothing is observed too often, and that it does not
stop before the goal. Such a promise follows from the one for every next state.
-/

namespace VanillaRtb.Lib.Transition

variable {step : S → A → Option S} {allowed : S → A → Prop} {obs : S → A → S → List E}
  {goal : S → Prop}

/-- Each run of allowed steps from `s` has at most `n` steps and `k` observations, and can go
    on if it has not come to the goal. -/
def Ends (step : S → A → Option S) (allowed : S → A → Prop) (obs : S → A → S → List E)
    (goal : S → Prop) (n k : Nat) (s : S) : Prop :=
  ∀ as t, Along step allowed s as → exec step s as = some t →
    as.length ≤ n ∧ (observe step obs s as).length ≤ k ∧
      (goal t ∨ ∃ a, allowed t a ∧ (step t a).isSome)

namespace Ends

/-- At the goal, where nothing more can be done. -/
theorem of_goal (reached : goal s) (idle : ∀ a, allowed s a → step s a = none) :
    Ends step allowed obs goal 0 k s := by
  intro as t met run
  cases as with
  | nil =>
      cases run
      exact ⟨le_rfl, Nat.zero_le k, .inl reached⟩
  | cons a as =>
      obtain ⟨m, first, _⟩ := exec_cons.mp run
      rw [idle a met.1] at first
      cases first

theorem of_steps (goes : ∃ a, allowed s a ∧ (step s a).isSome)
    (next : ∀ a t, allowed s a → step s a = some t →
      (obs s a t).length ≤ k ∧ Ends step allowed obs goal n (k - (obs s a t).length) t) :
    Ends step allowed obs goal (n + 1) k s := by
  intro as t met run
  cases as with
  | nil =>
      cases run
      exact ⟨Nat.zero_le _, Nat.zero_le k, .inr goes⟩
  | cons a as =>
      obtain ⟨u, first, rest⟩ := exec_cons.mp run
      obtain ⟨few, ends⟩ := next a u met.1 first
      obtain ⟨short, seldom, further⟩ := ends as t (met.2 u first) rest
      rw [observe_cons first, List.length_append, List.length_cons]
      exact ⟨Nat.succ_le_succ short, by omega, further⟩

theorem mono (ends : Ends step allowed obs goal n k s) (less : n ≤ m) :
    Ends step allowed obs goal m k s := by
  intro as t met run
  obtain ⟨short, others⟩ := ends as t met run
  exact ⟨le_trans short less, others⟩

/-- What is promised holds from every next state on, with what has been observed used up. -/
theorem follow (ends : Ends step allowed obs goal n k s) (may : allowed s a)
    (first : step s a = some t) :
    (obs s a t).length ≤ k ∧ Ends step allowed obs goal n (k - (obs s a t).length) t := by
  have here : Along step allowed s [a] := ⟨may, fun u _ => trivial⟩
  have once := (ends [a] t here (exec_cons.mpr ⟨t, first, rfl⟩)).2.1
  rw [observe_cons first, observe, List.append_nil] at once
  refine ⟨once, ?_⟩
  intro as u met run
  have whole : Along step allowed s (a :: as) := by
    refine ⟨may, ?_⟩
    intro t' first'
    obtain rfl := Option.some.inj (first.symm.trans first')
    exact met
  obtain ⟨short, seldom, further⟩ := ends (a :: as) u whole (exec_cons.mpr ⟨t, first, run⟩)
  rw [observe_cons first, List.length_append] at seldom
  rw [List.length_cons] at short
  exact ⟨by omega, by omega, further⟩

/-- A run does not stop before the goal. -/
theorem goes_on (ends : Ends step allowed obs goal n k s) :
    goal s ∨ ∃ a, allowed s a ∧ (step s a).isSome :=
  (ends [] s trivial rfl).2.2

end Ends

/-- The same for runs of whatever length they have at most. -/
def EndsIn (step : S → A → Option S) (allowed : S → A → Prop) (obs : S → A → S → List E)
    (goal : S → Prop) (k : Nat) (s : S) : Prop :=
  ∃ n, Ends step allowed obs goal n k s

/-- Where there are two ways to go on, what is promised is promised of both. -/
theorem endsIn_pair (only : ∀ c v, allowed s c → step s c = some v → c = a ∨ c = b)
    (may : allowed s a) (first : step s a = some t)
    (may' : allowed s b) (first' : step s b = some u) :
    EndsIn step allowed obs goal k s ↔
      ((obs s a t).length ≤ k ∧ EndsIn step allowed obs goal (k - (obs s a t).length) t) ∧
        ((obs s b u).length ≤ k ∧ EndsIn step allowed obs goal (k - (obs s b u).length) u) := by
  constructor
  · intro promise
    obtain ⟨n, ends⟩ := promise
    obtain ⟨few, left⟩ := ends.follow may first
    obtain ⟨few', right⟩ := ends.follow may' first'
    exact ⟨⟨few, n, left⟩, few', n, right⟩
  · intro promises
    obtain ⟨⟨few, n, left⟩, few', m, right⟩ := promises
    refine ⟨max n m + 1, .of_steps ⟨a, may, by rw [first]; rfl⟩ ?_⟩
    intro c v allows taken
    rcases only c v allows taken with rfl | rfl
    · obtain rfl := Option.some.inj (first.symm.trans taken)
      exact ⟨few, left.mono (le_max_left n m)⟩
    · obtain rfl := Option.some.inj (first'.symm.trans taken)
      exact ⟨few', right.mono (le_max_right n m)⟩

/-- Where there is one, it is promised of the state it leads to. -/
theorem endsIn_single (only : ∀ c v, allowed s c → step s c = some v → c = a)
    (may : allowed s a) (first : step s a = some t) :
    EndsIn step allowed obs goal k s ↔
      (obs s a t).length ≤ k ∧ EndsIn step allowed obs goal (k - (obs s a t).length) t := by
  rw [endsIn_pair (fun c v allows taken => .inl (only c v allows taken)) may first may first,
    and_self]

/-- Nothing is promised of a state short of the goal from which there is no way to go on. -/
theorem not_endsIn_of_stuck (short : ¬ goal s) (stuck : ∀ a, step s a = none) :
    ¬ EndsIn step allowed obs goal k s := by
  intro promise
  obtain ⟨n, ends⟩ := promise
  rcases ends.goes_on with reached | ⟨a, _, goes⟩
  · exact short reached
  · rw [stuck a] at goes
    cases goes

end VanillaRtb.Lib.Transition
