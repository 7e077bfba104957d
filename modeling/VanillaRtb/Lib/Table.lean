import Mathlib

/-! # Partial tables

What a store with unique keys holds, by key. A write to a key that is not there does
nothing, a new entry does not displace an old one, and an entry that is moved to a
key that is taken is lost.
-/

namespace VanillaRtb.Lib

abbrev Table (K V : Type) := K → Option V

namespace Table

variable {K V : Type} [DecidableEq K] {t : Table K V} {k k' : K} {v w : V}

def empty : Table K V := fun _ => none

/-- A value for a key that is there. -/
def replace (t : Table K V) (k : K) (v : V) : Table K V :=
  if (t k).isSome then Function.update t k (some v) else t

/-- A value for a key that is not. -/
def add (t : Table K V) (k : K) (v : V) : Table K V :=
  if (t k).isSome then t else Function.update t k (some v)

def drop (t : Table K V) (k : K) : Table K V := Function.update t k none

/-- The entry under `old` becomes a value under `new`. -/
def rekey (t : Table K V) (old new : K) (v : V) : Table K V :=
  if (t old).isSome then (t.drop old).add new v else t

theorem replace_eq_rekey (t : Table K V) (k : K) (v : V) : t.replace k v = t.rekey k k v := by
  unfold replace rekey add drop
  split
  · simp
  · rfl

theorem replace_absent (absent : t k = none) (v : V) : t.replace k v = t := by
  rw [replace, absent]
  rfl

@[simp] theorem replace_same (there : t k = some w) (v : V) : t.replace k v k = some v := by
  rw [replace, there]
  exact Function.update_self k (some v) t

@[simp] theorem replace_other (other : k' ≠ k) (v : V) : t.replace k v k' = t k' := by
  unfold replace
  split
  · exact Function.update_of_ne other (some v) t
  · rfl

/-- A write under one key can be told from no other key. -/
theorem replace_at (t : Table K V) (k k' : K) (v : V) :
    t.replace k v k' = if k' = k then (t k).map fun _ => v else t k' := by
  by_cases same : k' = k
  · subst same
    rw [if_pos rfl]
    cases there : t k' with
    | none => rw [replace_absent there, there]; rfl
    | some w => rw [replace_same there]; rfl
  · rw [if_neg same, replace_other same]

section Keyed

/-- Every value tells the key it is under. -/
def Keyed (name : V → K) (t : Table K V) : Prop := ∀ k v, t k = some v → name v = k

variable {name : V → K}

omit [DecidableEq K] in
theorem keyed_empty : Keyed name (empty : Table K V) := by
  intro k v none
  cases none

theorem keyed_drop (keyed : Keyed name t) (k : K) : Keyed name (t.drop k) := by
  intro k' v there
  by_cases same : k' = k
  · rw [same, drop, Function.update_self] at there
    cases there
  · rw [drop, Function.update_of_ne same] at there
    exact keyed k' v there

/-- An addition keeps every value under its key exactly if it is under its own, or not made. -/
theorem keyed_add_iff (keyed : Keyed name t) (k : K) (v : V) :
    Keyed name (t.add k v) ↔ name v = k ∨ (t k).isSome := by
  unfold add
  by_cases taken : (t k).isSome
  · rw [if_pos taken]
    exact iff_of_true keyed (.inr taken)
  · rw [if_neg taken]
    constructor
    · intro after
      exact .inl (after k v (Function.update_self k (some v) t))
    · rintro (own | there)
      · intro k' w found
        by_cases same : k' = k
        · rw [same, Function.update_self] at found
          rw [← Option.some.inj found, own, same]
        · rw [Function.update_of_ne same] at found
          exact keyed k' w found
      · exact absurd there taken

theorem keyed_rekey_iff (keyed : Keyed name t) (old new : K) (v : V) :
    Keyed name (t.rekey old new v) ↔
      name v = new ∨ t old = none ∨ (new ≠ old ∧ (t new).isSome) := by
  unfold rekey
  cases there : t old with
  | none => exact iff_of_true keyed (.inr (.inl rfl))
  | some w =>
      rw [Option.isSome_some, if_pos rfl, keyed_add_iff (keyed_drop keyed old)]
      have taken : (t.drop old new).isSome ↔ new ≠ old ∧ (t new).isSome := by
        by_cases same : new = old
        · rw [same, drop, Function.update_self]
          simp
        · rw [drop, Function.update_of_ne same]
          simp [same]
      rw [taken]
      simp

omit [DecidableEq K] in
theorem keyed_iff_of_name {g : V → V} (same : ∀ v, name (g v) = name v) :
    Keyed name (fun k => (t k).map g) ↔ Keyed name t := by
  constructor
  · intro keyed k v there
    rw [← same v]
    exact keyed k (g v) (congrArg (Option.map g) there)
  · intro keyed k v there
    obtain ⟨w, found, rfl⟩ := Option.map_eq_some_iff.mp there
    rw [same w]
    exact keyed k w found

/-- The first of the values added under a key that is not there yet is what is there. -/
theorem foldl_add (vs : List V) (t : Table K V) (k : K) :
    vs.foldl (fun t v => t.add (name v) v) t k = (t k).or (vs.find? fun v => name v = k) := by
  induction vs generalizing t with
  | nil => simp
  | cons v vs ih =>
      rw [List.foldl_cons, ih, add]
      by_cases here : name v = k
      · subst here
        cases there : t (name v) <;> simp [there]
      · rw [List.find?_cons_of_neg (by simpa using here)]
        split
        · rfl
        · rw [Function.update_of_ne (Ne.symm here)]

/-- A value of a table whose values tell their keys is found by its key. -/
theorem find_keyed {vs : List V} (keyed : Keyed name t)
    (values : ∀ v, v ∈ vs ↔ ∃ k, t k = some v) (k : K) :
    (vs.find? fun v => name v = k) = t k := by
  cases found : vs.find? fun v => name v = k with
  | none =>
      cases there : t k with
      | none => rfl
      | some v =>
          have absent := List.find?_eq_none.mp found v ((values v).mpr ⟨k, there⟩)
          exact absurd (keyed k v there) (by simpa using absent)
  | some v =>
      obtain ⟨k', there⟩ := (values v).mp (List.mem_of_find?_eq_some found)
      have here : name v = k := by simpa using List.find?_some found
      rw [← here, keyed k' v there, there]

end Keyed

section Values

variable {r : K → K → Prop} [Std.Antisymm r] [Std.Irrefl r] {keys those : List K}

/-- The values under the listed keys, in their order. -/
def values (t : Table K V) (keys : List K) : List V := keys.filterMap t

omit [DecidableEq K] in
theorem mem_values : v ∈ t.values keys ↔ ∃ k ∈ keys, t k = some v := List.mem_filterMap

omit [DecidableEq K] in
/-- Keys that are not there do not matter. -/
theorem values_eq (ordered : keys.Pairwise r) (thoseOrdered : those.Pairwise r)
    (all : ∀ k, k ∈ keys) (there : ∀ k, k ∈ those ↔ (t k).isSome) :
    t.values keys = t.values those := by
  have kept : keys.filter (fun k => (t k).isSome) = those := by
    apply (ordered.filter _).eq_of_mem_iff thoseOrdered
    intro k
    simp [there, all]
  rw [values, values, ← kept, List.filterMap_filter]
  apply List.filterMap_congr
  intro k _
  cases t k <;> rfl

end Values

end Table

end VanillaRtb.Lib
