import Mathlib

/-! # Finite runs of a partial step function

A system is its step function; a run is a list of actions, each enabled where it
is taken. Conditions speak about the state before a step and the action taken
there, so that an assumption about an environment can be placed on the steps
of a run instead of on the states it happens to reach.
-/

namespace VanillaRtb.Lib.Transition

/-- The state after the listed actions, if each of them is enabled in turn. -/
def exec (step : S → A → Option S) : S → List A → Option S
  | s, [] => some s
  | s, a :: as => (step s a).bind fun t => exec step t as

/-- Every step of the run from `s` meets `cond` in the state it is taken in. -/
def Along (step : S → A → Option S) (cond : S → A → Prop) : S → List A → Prop
  | _, [] => True
  | s, a :: as => cond s a ∧ ∀ t, step s a = some t → Along step cond t as

/-- `I` holds of every state the run from `s` goes through. -/
def Always (step : S → A → Option S) (I : S → Prop) : S → List A → Prop
  | s, [] => I s
  | s, a :: as => I s ∧ ∀ t, step s a = some t → Always step I t as

section

variable {step : S → A → Option S} {cond : S → A → Prop} {I : S → Prop}

theorem exec_cons : exec step s (a :: as) = some u ↔
    ∃ t, step s a = some t ∧ exec step t as = some u := by
  simp only [exec, Option.bind_eq_some_iff]

theorem exec_append : exec step s (as ++ bs) = some u ↔
    ∃ t, exec step s as = some t ∧ exec step t bs = some u := by
  induction as generalizing s with
  | nil => simp [exec]
  | cons a as ih =>
      rw [List.cons_append, exec_cons]
      simp only [ih, exec_cons]
      grind

/-- What every step preserves, every run preserves. -/
theorem exec_invariant (I : S → Prop)
    (preserved : ∀ s a t, I s → step s a = some t → I t)
    (start : I s) (run : exec step s as = some u) : I u := by
  induction as generalizing s with
  | nil => exact Option.some.inj run ▸ start
  | cons a as ih =>
      obtain ⟨t, first, rest⟩ := exec_cons.mp run
      exact ih (preserved s a t start first) rest

/-- The same for runs all of whose steps meet the condition. -/
theorem exec_invariant_along (I : S → Prop)
    (preserved : ∀ s a t, I s → cond s a → step s a = some t → I t)
    (start : I s) (met : Along step cond s as) (run : exec step s as = some u) : I u := by
  induction as generalizing s with
  | nil => exact Option.some.inj run ▸ start
  | cons a as ih =>
      obtain ⟨t, first, rest⟩ := exec_cons.mp run
      exact ih (preserved s a t start met.1 first) (met.2 t first) rest

theorem always_start (always : Always step I s as) : I s := by
  cases as with
  | nil => exact always
  | cons a as => exact always.1

/-- The states of a run are the ones that its first actions lead to. -/
theorem always_iff_reached : Always step I s as ↔
    ∀ before after t, as = before ++ after → exec step s before = some t → I t := by
  constructor
  · intro always before after t split reach
    subst split
    induction before generalizing s with
    | nil => exact Option.some.inj reach ▸ always_start always
    | cons a before ih =>
        obtain ⟨m, first, rest⟩ := exec_cons.mp reach
        exact ih rest (always.2 m first)
  · intro reached
    induction as generalizing s with
    | nil => exact reached [] [] s rfl rfl
    | cons a as ih =>
        refine ⟨reached [] (a :: as) s rfl rfl, ?_⟩
        intro t first
        apply ih
        intro before after u split reach
        exact reached (a :: before) after u (by rw [split]; rfl) (exec_cons.mpr ⟨t, first, reach⟩)

/-- Where every step can be taken and keeps `I` exactly under a condition, so does a run. `J`
    is what else is known of the states. -/
theorem always_iff_along (J : S → Prop)
    (taken : ∀ s a, J s → ∃ t, step s a = some t ∧ J t ∧ (I s → (I t ↔ cond s a)))
    (known : J s) : Always step I s as ↔ I s ∧ Along step cond s as := by
  induction as generalizing s with
  | nil => exact (and_iff_left trivial).symm
  | cons a as ih =>
      refine and_congr_right ?_
      intro start
      obtain ⟨t, first, next, sharp⟩ := taken s a known
      have only : ∀ t', step s a = some t' → t' = t := by
        intro t' first'
        exact Option.some.inj (first'.symm.trans first)
      constructor
      · intro later
        obtain ⟨kept, rest⟩ := (ih next).mp (later t first)
        refine ⟨(sharp start).mp kept, ?_⟩
        intro t' first'
        obtain rfl := only t' first'
        exact rest
      · rintro ⟨here, rest⟩ t' first'
        obtain rfl := only t' first'
        exact (ih next).mpr ⟨(sharp start).mpr here, rest t' first'⟩

/-- Conditions that agree in the states of an invariant agree along runs. -/
theorem along_congr {cond' : S → A → Prop} (J : S → Prop)
    (agree : ∀ s a, J s → (cond s a ↔ cond' s a))
    (preserved : ∀ s a t, J s → step s a = some t → J t) (known : J s) :
    Along step cond s as ↔ Along step cond' s as := by
  induction as generalizing s with
  | nil => exact Iff.rfl
  | cons a as ih =>
      refine and_congr (agree s a known) ?_
      exact forall_congr' fun t => forall_congr' fun first => ih (preserved s a t known first)

/-- A condition that an invariant gives where another condition is met holds along with it. -/
theorem along_of_invariant {cond' : S → A → Prop} (J : S → Prop)
    (gives : ∀ s a, J s → cond s a → cond' s a)
    (preserved : ∀ s a t, J s → cond s a → step s a = some t → J t)
    (known : J s) (met : Along step cond s as) : Along step cond' s as := by
  induction as generalizing s with
  | nil => trivial
  | cons a as ih =>
      refine ⟨gives s a known met.1, ?_⟩
      intro t first
      exact ih (preserved s a t known met.1 first) (met.2 t first)

/-- Two conditions along a run are one. -/
theorem along_and {cond' : S → A → Prop} :
    Along step (fun s a => cond s a ∧ cond' s a) s as ↔
      Along step cond s as ∧ Along step cond' s as := by
  induction as generalizing s with
  | nil => exact (and_self_iff (a := True)).symm
  | cons a as ih =>
      simp only [Along, ih, forall_and]
      exact and_and_and_comm

/-- A condition along a run is one along its first part and along what follows from there. -/
theorem along_append : Along step cond s (as ++ bs) ↔
    Along step cond s as ∧ ∀ t, exec step s as = some t → Along step cond t bs := by
  induction as generalizing s with
  | nil =>
      refine ⟨fun met => ⟨trivial, ?_⟩, fun met => met.2 s rfl⟩
      intro t here
      cases here
      exact met
  | cons a as ih =>
      simp only [List.cons_append, Along, ih, and_assoc]
      refine and_congr_right fun _ => ?_
      constructor
      · intro met
        refine ⟨fun t first => (met t first).1, ?_⟩
        intro u run
        obtain ⟨t, first, rest⟩ := exec_cons.mp run
        exact (met t first).2 u rest
      · rintro ⟨met, later⟩ t first
        exact ⟨met t first, fun u rest => later u (exec_cons.mpr ⟨t, first, rest⟩)⟩

theorem not_along_of_reached (reach : exec step s before = some t) (fails : ¬ cond t a) :
    ¬ Along step cond s (before ++ a :: after) := by
  intro met
  exact fails ((along_append.mp met).2 t reach).1

/-- Whether a run meets a decidable condition can be computed. -/
instance decidableAlong [∀ s a, Decidable (cond s a)] :
    (s : S) → (as : List A) → Decidable (Along step cond s as)
  | _, [] => inferInstanceAs (Decidable True)
  | s, a :: as =>
      have : Decidable (∀ t, step s a = some t → Along step cond t as) :=
        match taken : step s a with
        | none => isTrue (by intro t first; cases first)
        | some t =>
            have := decidableAlong t as
            decidable_of_iff (Along step cond t as)
              ⟨fun met t' first => Option.some.inj first ▸ met, fun met => met t rfl⟩
      inferInstanceAs (Decidable (_ ∧ _))

/-- A run that does not meet the condition throughout has a first step that breaks it. -/
theorem exec_first_break (broken : ¬ Along step cond s as) (run : exec step s as = some u) :
    ∃ before a after m t, as = before ++ a :: after ∧
      exec step s before = some m ∧ Along step cond s before ∧
      ¬ cond m a ∧ step m a = some t ∧ exec step t after = some u := by
  induction as generalizing s with
  | nil => exact absurd trivial broken
  | cons a as ih =>
      obtain ⟨t, first, rest⟩ := exec_cons.mp run
      by_cases here : cond s a
      · have later : ¬ Along step cond t as := by
          intro met
          refine broken ⟨here, ?_⟩
          intro t' first'
          obtain rfl := Option.some.inj (first.symm.trans first')
          exact met
        obtain ⟨before, b, after, m, t', rfl, reach, met, fails, breaks, remains⟩ := ih later rest
        refine ⟨a :: before, b, after, m, t', rfl, ?_, ⟨here, ?_⟩, fails, breaks, remains⟩
        · exact exec_cons.mpr ⟨t, first, reach⟩
        · intro t'' first''
          obtain rfl := Option.some.inj (first.symm.trans first'')
          exact met
      · exact ⟨[], a, as, s, t, rfl, rfl, trivial, here, first, rest⟩

end

section Observation

variable {step : S → A → Option S} {cond : S → A → Prop} {obs : S → A → S → List E}

/-- What is observed of the steps of a run, from the first to the last. -/
def observe (step : S → A → Option S) (obs : S → A → S → List E) : S → List A → List E
  | _, [] => []
  | s, a :: as =>
      match step s a with
      | none => []
      | some t => obs s a t ++ observe step obs t as

/-- What every step preserves, with what is observed of it added, holds of a run and its
    observations. -/
theorem observe_invariant (J : S → List E → Prop)
    (preserved : ∀ s h a t, J s h → step s a = some t → J t (h ++ obs s a t))
    (known : J s h) (run : exec step s as = some t) : J t (h ++ observe step obs s as) := by
  induction as generalizing s h with
  | nil =>
      cases run
      rw [observe, List.append_nil]
      exact known
  | cons a as ih =>
      obtain ⟨m, first, rest⟩ := exec_cons.mp run
      rw [observe, first, ← List.append_assoc]
      exact ih (preserved s h a m known first) rest

theorem observe_cons (first : step s a = some t) :
    observe step obs s (a :: as) = obs s a t ++ observe step obs t as := by
  rw [observe, first]

/-- Where every step keeps `J` exactly under a condition, the states of a run have it with
    what has been observed by then exactly if the run meets the condition. -/
theorem observe_always_iff (J : S → List E → Prop)
    (sharp : ∀ s h a t, J s h → step s a = some t → (J t (h ++ obs s a t) ↔ cond s a))
    (idle : ∀ s a, step s a = none → cond s a) (known : J s h) :
    (∀ before after t, as = before ++ after → exec step s before = some t →
        J t (h ++ observe step obs s before)) ↔ Along step cond s as := by
  induction as generalizing s h with
  | nil =>
      refine iff_of_true ?_ trivial
      intro before after t split reach
      obtain ⟨rfl, rfl⟩ := List.append_eq_nil_iff.mp split.symm
      cases reach
      simpa [observe] using known
  | cons a as ih =>
      constructor
      · intro always
        cases taken : step s a with
        | none =>
            refine ⟨idle s a taken, ?_⟩
            intro t first
            exact absurd (taken.symm.trans first) (by simp)
        | some m =>
            have next : J m (h ++ obs s a m) := by
              have here := always [a] as m rfl (exec_cons.mpr ⟨m, taken, rfl⟩)
              simpa [observe, taken] using here
            refine ⟨(sharp s h a m known taken).mp next, ?_⟩
            intro t first
            obtain rfl := Option.some.inj (taken.symm.trans first)
            apply (ih next).mp
            intro before after t split reach
            have later := always (a :: before) after t (congrArg (a :: ·) split)
              (exec_cons.mpr ⟨m, taken, reach⟩)
            rwa [observe_cons taken, ← List.append_assoc] at later
      · intro met before after t split reach
        cases before with
        | nil =>
            cases reach
            simpa [observe] using known
        | cons b before =>
            obtain ⟨rfl, later⟩ := List.cons.inj split
            obtain ⟨m, taken, reach⟩ := exec_cons.mp reach
            have next := (sharp s h a m known taken).mpr met.1
            rw [observe_cons taken, ← List.append_assoc]
            exact (ih next).mpr (met.2 m taken) before after t later reach

end Observation

end VanillaRtb.Lib.Transition
