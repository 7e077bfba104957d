import Mathlib.Data.Int.ModEq
import Mathlib.Data.List.Nodup

/-! # Tuples whose components have tags

A `tagged_tuple` is given by one list in which tags and types take turns. `extract` takes such a
list apart with a countdown that starts at the first element wanted and begins again at `n - 1`
behind each; a tag is then looked for among the tags, and the component at its place is taken.
Types are given by their names, and a type that is not defined is nothing here.
-/

namespace VanillaRtb.Core

section Typelists

variable {α : Type}

/-- `extract_impl` -/
def extractImpl (n : Int) : Int → List α → List α
  | _, [] => []
  | m, t :: ts => if m = 0 then t :: extractImpl n (n - 1) ts else extractImpl n (m - 1) ts

def extract (n m : Int) (ts : List α) : List α := extractImpl n m ts

/-- The first place of a type. -/
def index [DecidableEq α] (t : α) : List α → Option Int
  | [] => none
  | u :: us => if t = u then some 0 else (index t us).map (· + 1)

def nthElement : Int → List α → Option α
  | _, [] => none
  | n, t :: ts => if n = 0 then some t else nthElement (n - 1) ts

/-- The elements whose positions, the first one being `k`, leave `m` when divided by `n`. -/
def congruent (n m : Int) (k : Nat) (ts : List α) : List α :=
  ((ts.zipIdx k).filter fun p => (p.2 : Int) % n = m).map Prod.fst

/-- The countdown at position `k` is how far it is to the next one that leaves `m`. -/
theorem extractImpl_eq {n m c : Int} {k : Nat} (started : 0 ≤ c) (within : c < n)
    (next : (k + c) % n = m) (ts : List α) : extractImpl n c ts = congruent n m k ts := by
  induction ts generalizing c k with
  | nil => rfl
  | cons t ts ih =>
      rw [extractImpl, congruent, List.zipIdx_cons]
      by_cases here : c = 0
      · subst here
        have leaves : (k : Int) % n = m := by rwa [Int.add_zero] at next
        have later : ((k + 1 : Nat) + (n - 1)) % n = m := by
          have whole : ((k + 1 : Nat) + (n - 1) : Int) = k + n := by omega
          rw [whole, Int.add_emod_right, leaves]
        have rest := ih (by omega) (by omega) later
        rw [if_pos rfl, rest, List.filter_cons_of_pos (by simpa using leaves), List.map_cons]
        rfl
      · have leaves : (k : Int) % n ≠ m := by
          intro same
          have zero : c % n = 0 := by
            have apart : ((k + c : Int) - k) % n = 0 :=
              Int.emod_eq_zero_of_dvd (Int.ModEq.dvd (same.trans next.symm))
            rwa [add_sub_cancel_left] at apart
          rw [Int.emod_eq_of_lt started within] at zero
          exact here zero
        have later : ((k + 1 : Nat) + (c - 1)) % n = m := by
          have same : ((k + 1 : Nat) + (c - 1) : Int) = k + c := by omega
          rw [same, next]
        have rest := ih (by omega) (by omega) later
        rw [if_neg here, rest, List.filter_cons_of_neg (by simpa using leaves)]
        rfl

theorem extract_eq {n m : Int} (lower : 0 ≤ m) (upper : m < n) (ts : List α) :
    extract n m ts = congruent n m 0 ts := by
  have first : (((0 : Nat) : Int) + m) % n = m := by
    rw [Nat.cast_zero, Int.zero_add, Int.emod_eq_of_lt lower upper]
  exact extractImpl_eq lower upper first ts

end Typelists

section Tuples

variable {α : Type} {val : α → Type}

/-- `std::tuple`: `val t` are the values of the type `t`. -/
inductive StdTuple (val : α → Type) : List α → Type where
  | nil : StdTuple val []
  | cons {t : α} {ts : List α} (value : val t) (rest : StdTuple val ts) : StdTuple val (t :: ts)

/-- `std::get`, with the type of what it finds. -/
def StdTuple.get {ts : List α} : Int → StdTuple val ts → Option (Σ t, val t)
  | _, .nil => none
  | i, .cons value rest => if i = 0 then some ⟨_, value⟩ else rest.get (i - 1)

variable [DecidableEq α]

/-- The constructor takes one argument for each component, of the component's type. -/
def StdTuple.make : (ts : List α) → List (Σ t, val t) → Option (StdTuple val ts)
  | [], [] => some .nil
  | t :: ts, ⟨u, value⟩ :: args =>
      if same : u = t then (StdTuple.make ts args).map (.cons (same ▸ value)) else none
  | _, _ => none

/-- `tagged_tuple`, and `tagged_tuple_impl` that it rests on. -/
structure TaggedTuple (val : α → Type) (ts : List α) where
  tuple : StdTuple val (extract 2 1 ts)

def TaggedTuple.make (ts : List α) (args : List (Σ t, val t)) : Option (TaggedTuple val ts) :=
  (StdTuple.make (extract 2 1 ts) args).map TaggedTuple.mk

/-- What is found is returned as the `nth_element` of the types, and has to be of that type. -/
def TaggedTuple.get {ts : List α} (tag : α) (t : TaggedTuple val ts) : Option (Σ u, val u) := do
  let i ← index tag (extract 2 0 ts)
  let declared ← nthElement i (extract 2 1 ts)
  let found ← t.tuple.get i
  if found.1 = declared then some found else none

/-- A tag, the type that follows it, and the value for it. -/
structure Entry (val : α → Type) where
  tag : α
  type : α
  value : val type

def Entry.component (e : Entry val) : Σ t, val t := ⟨e.type, e.value⟩

/-- The arguments of a `tagged_tuple`. -/
def pairs (entries : List (Entry val)) : List α := entries.flatMap fun e => [e.tag, e.type]

omit [DecidableEq α] in
theorem extract_tags (entries : List (Entry val)) :
    extract 2 0 (pairs entries) = entries.map Entry.tag := by
  induction entries with
  | nil => rfl
  | cons e entries ih =>
      simp only [extract, pairs] at ih
      simp [extract, pairs, extractImpl, ih]

omit [DecidableEq α] in
theorem extract_types (entries : List (Entry val)) :
    extract 2 1 (pairs entries) = entries.map Entry.type := by
  induction entries with
  | nil => rfl
  | cons e entries ih =>
      simp only [extract, pairs] at ih
      simp [extract, pairs, extractImpl, ih]

theorem index_nonneg {t : α} {ts : List α} {i : Int} (found : index t ts = some i) : 0 ≤ i := by
  induction ts generalizing i with
  | nil => cases found
  | cons u us ih =>
      by_cases same : t = u
      · simp only [index, if_pos same, Option.some.injEq] at found
        omega
      · simp only [index, if_neg same, Option.map_eq_some_iff] at found
        obtain ⟨j, later, rfl⟩ := found
        have := ih later
        omega

/-- The three recursions, over a list of entries, stop at the same one. -/
theorem components_line_up (entries : List (Entry val))
    (distinct : (entries.map Entry.tag).Nodup) :
    ∃ tuple, StdTuple.make (entries.map Entry.type) (entries.map Entry.component) = some tuple ∧
      ∀ e ∈ entries, ∃ i, index e.tag (entries.map Entry.tag) = some i ∧
        nthElement i (entries.map Entry.type) = some e.type ∧
        tuple.get i = some e.component := by
  induction entries with
  | nil => exact ⟨.nil, rfl, by simp⟩
  | cons first entries ih =>
      rw [List.map_cons, List.nodup_cons] at distinct
      obtain ⟨rest, made, lines⟩ := ih distinct.2
      have built : StdTuple.make (first.type :: entries.map Entry.type)
          (⟨first.type, first.value⟩ :: entries.map Entry.component) =
          some (.cons first.value rest) := by
        simp [StdTuple.make, made]
      refine ⟨.cons first.value rest, built, ?_⟩
      intro e member
      rcases List.mem_cons.mp member with rfl | later
      · exact ⟨0, by simp [index], by simp [nthElement], by simp [StdTuple.get, Entry.component]⟩
      · obtain ⟨i, at_, type_, value_⟩ := lines e later
        have other : e.tag ≠ first.tag := by
          intro same
          exact distinct.1 (same ▸ List.mem_map_of_mem later)
        have positive : i + 1 ≠ 0 := by
          have := index_nonneg at_
          omega
        exact ⟨i + 1, by simp [index, other, at_], by simp [nthElement, positive, type_],
          by simp [StdTuple.get, positive, value_]⟩

theorem TaggedTuple.make_get (entries : List (Entry val))
    (distinct : (entries.map Entry.tag).Nodup) :
    ∃ t, TaggedTuple.make (pairs entries) (entries.map Entry.component) = some t ∧
      ∀ e ∈ entries, t.get e.tag = some e.component := by
  have lines := components_line_up entries distinct
  rw [← extract_types, ← extract_tags] at lines
  obtain ⟨tuple, made, finds⟩ := lines
  refine ⟨⟨tuple⟩, by rw [TaggedTuple.make, made]; rfl, ?_⟩
  intro e member
  obtain ⟨i, at_, type_, value_⟩ := finds e member
  simp [TaggedTuple.get, at_, type_, value_, Entry.component]

/-- `extract` takes the elements at the positions that leave `m`; so each component is read back
by its tag. -/
theorem tagged_tuple_gets (val : α → Type) :
    (∀ (n m : Int) (ts : List α), 0 ≤ m → m < n → extract n m ts = congruent n m 0 ts) ∧
      ∀ entries : List (Entry val), (entries.map Entry.tag).Nodup →
        ∃ t, TaggedTuple.make (pairs entries) (entries.map Entry.component) = some t ∧
          ∀ e ∈ entries, t.get e.tag = some ⟨e.type, e.value⟩ := by
  constructor
  · intro n m ts lower upper
    exact extract_eq lower upper ts
  · exact TaggedTuple.make_get

/-- The keys of the ads, at width 300 and height 250: two types are the same. -/
theorem tagged_tuple_gets_of_keys :
    ∃ t, TaggedTuple.make
        ["campaign_tag", "uint32_t", "width_tag", "uint16_t", "height_tag", "uint16_t",
          "ad_id_tag", "uint64_t"]
        [⟨"uint32_t", 5⟩, ⟨"uint16_t", 300⟩, ⟨"uint16_t", 250⟩, ⟨"uint64_t", 91⟩] = some t ∧
      t.get "height_tag" = some (⟨"uint16_t", 250⟩ : Σ _ : String, Nat) := by
  have keys := (tagged_tuple_gets fun _ : String => Nat).2
    [⟨"campaign_tag", "uint32_t", 5⟩, ⟨"width_tag", "uint16_t", 300⟩,
      ⟨"height_tag", "uint16_t", 250⟩, ⟨"ad_id_tag", "uint64_t", 91⟩] (by decide)
  obtain ⟨t, made, gets⟩ := keys
  exact ⟨t, made, gets ⟨"height_tag", "uint16_t", 250⟩ (by simp)⟩

end Tuples

end VanillaRtb.Core
