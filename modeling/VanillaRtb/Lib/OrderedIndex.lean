import Mathlib

/-! # Ordered unique indices on composite keys

A composite key is the list of its fields, compared field by field, so a search by
the first fields of the key is a search by a prefix. The index keeps its elements
sorted by key without repetition. Range lookups are read off the order, and agree
with selecting the elements whose key begins with the fields asked for.
-/

namespace VanillaRtb.Lib

/-- The elements of an index by `key`, in index order. -/
structure OrderedUnique [LinearOrder φ] (key : α → List φ) where
  entries : List α
  sorted : entries.Pairwise fun a b => key a < key b

def OrderedUnique.empty [LinearOrder φ] (key : α → List φ) : OrderedUnique key := ⟨[], .nil⟩

/-- The run of elements from the lower bound of `p` to its upper bound. -/
def rangeOf [LinearOrder κ] (part : α → κ) (p : κ) (xs : List α) : List α :=
  (xs.dropWhile fun a => part a < p).takeWhile fun a => part a ≤ p

section Range

variable [LinearOrder κ] [DecidableEq κ] {part : α → κ} {xs : List α} {p : κ}

private theorem takeWhile_of_le (sorted : xs.Pairwise fun a b => part a ≤ part b)
    (reached : ∀ a ∈ xs, p ≤ part a) :
    (xs.takeWhile fun a => part a ≤ p) = xs.filter fun a => part a = p := by
  induction xs with
  | nil => rfl
  | cons a as ih =>
      obtain ⟨first, rest⟩ := List.pairwise_cons.mp sorted
      have here := reached a List.mem_cons_self
      by_cases above : part a ≤ p
      · have same : part a = p := le_antisymm above here
        rw [List.takeWhile_cons_of_pos (by simpa using above),
          List.filter_cons_of_pos (by simpa using same),
          ih rest fun b hb => reached b (List.mem_cons_of_mem _ hb)]
      · -- past the upper bound nothing further equals `p`
        have none : ∀ b ∈ as, part b ≠ p := by
          intro b hb same
          exact above (same ▸ first b hb)
        rw [List.takeWhile_cons_of_neg (by simpa using above),
          List.filter_cons_of_neg (by simpa using fun same => above (le_of_eq same))]
        exact (List.filter_eq_nil_iff.mpr (by simpa using none)).symm

theorem rangeOf_eq_filter (sorted : xs.Pairwise fun a b => part a ≤ part b) (p : κ) :
    rangeOf part p xs = xs.filter fun a => part a = p := by
  unfold rangeOf
  induction xs with
  | nil => rfl
  | cons a as ih =>
      obtain ⟨first, rest⟩ := List.pairwise_cons.mp sorted
      by_cases below : part a < p
      · rw [List.dropWhile_cons_of_pos (by simpa using below),
          List.filter_cons_of_neg (by simpa using ne_of_lt below), ih rest]
      · rw [List.dropWhile_cons_of_neg (by simpa using below)]
        apply takeWhile_of_le sorted
        intro b hb
        have here : p ≤ part a := le_of_not_gt below
        rcases List.mem_cons.mp hb with rfl | later
        · exact here
        · exact le_trans here (first b later)

end Range

private theorem lt_of_take_lt [LinearOrder φ] {xs ys : List φ} {n : Nat}
    (h : xs.take n < ys.take n) : xs < ys := by
  induction n generalizing xs ys with
  | zero => simp at h
  | succ n ih =>
      cases ys with
      | nil => simp at h
      | cons y ys =>
          cases xs with
          | nil => exact List.nil_lt_cons y ys
          | cons x xs =>
              simp only [List.take_succ_cons, List.cons_lt_cons_iff] at h ⊢
              rcases h with less | ⟨same, rest⟩
              · exact .inl less
              · exact .inr ⟨same, ih rest⟩

/-- Cutting two keys to their first fields keeps their order. -/
theorem take_le_take [LinearOrder φ] {xs ys : List φ} (h : xs ≤ ys) (n : Nat) :
    xs.take n ≤ ys.take n := by
  rw [← not_lt] at h ⊢
  exact mt lt_of_take_lt h

namespace OrderedUnique

variable [LinearOrder φ] {key : α → List φ}

/-- `equal_range` on the first fields of the key. -/
def equalRange (c : OrderedUnique key) (fields : List φ) : List α :=
  rangeOf (fun a => (key a).take fields.length) fields c.entries

/-- `find`: the first element whose key begins with the fields, if any. -/
def find (c : OrderedUnique key) (fields : List φ) : Option α :=
  (c.equalRange fields).head?

theorem equalRange_eq_filter (c : OrderedUnique key) (fields : List φ) :
    c.equalRange fields = c.entries.filter fun a => (key a).take fields.length = fields := by
  apply rangeOf_eq_filter
  exact c.sorted.imp fun less => take_le_take (le_of_lt less) _

@[simp] theorem mem_equalRange {c : OrderedUnique key} {fields : List φ} :
    a ∈ c.equalRange fields ↔ a ∈ c.entries ∧ (key a).take fields.length = fields := by
  simp only [equalRange_eq_filter, List.mem_filter, decide_eq_true_eq]

theorem find_key {c : OrderedUnique key} {fields : List φ} (found : c.find fields = some a) :
    a ∈ c.entries ∧ (key a).take fields.length = fields :=
  mem_equalRange.mp (List.mem_of_mem_head? (Option.mem_def.mpr found))

theorem head?_eq_some_iff_least {xs : List α} (sorted : xs.Pairwise fun a b => key a < key b) :
    xs.head? = some a ↔ a ∈ xs ∧ ∀ b ∈ xs, key a ≤ key b := by
  cases xs with
  | nil => simp
  | cons x xs =>
      obtain ⟨first, -⟩ := List.pairwise_cons.mp sorted
      constructor
      · intro head
        cases head
        refine ⟨List.mem_cons_self, ?_⟩
        intro b member
        cases member with
        | head => exact le_refl _
        | tail _ later => exact le_of_lt (first b later)
      · intro least
        obtain ⟨member, least⟩ := least
        cases member with
        | head => rfl
        | tail _ later =>
            exact absurd (first a later) (not_lt_of_ge (least x List.mem_cons_self))

theorem find_eq_some_iff {c : OrderedUnique key} {fields : List φ} :
    c.find fields = some a ↔ (a ∈ c.entries ∧ (key a).take fields.length = fields) ∧
      ∀ b ∈ c.entries, (key b).take fields.length = fields → key a ≤ key b := by
  have sorted : (c.equalRange fields).Pairwise fun a b => key a < key b := by
    rw [equalRange_eq_filter]
    exact c.sorted.filter _
  rw [find, head?_eq_some_iff_least sorted, mem_equalRange]
  simp only [mem_equalRange, and_imp]

section Insert

variable {c d : OrderedUnique key} {xs records : List α} {a b : α}

private theorem orderedInsert_sorted (sorted : xs.Pairwise fun a b => key a < key b)
    (free : key a ∉ xs.map key) :
    (xs.orderedInsert (fun a b => key a ≤ key b) a).Pairwise fun a b => key a < key b := by
  have total : Std.Total fun a b : α => key a ≤ key b := ⟨fun a b => le_total (key a) (key b)⟩
  have trans : IsTrans α fun a b => key a ≤ key b := ⟨fun _ _ _ => le_trans⟩
  have weak := (sorted.imp le_of_lt).orderedInsert a xs
  have apart : (a :: xs).Pairwise fun a b => key a ≠ key b := by
    rw [List.pairwise_cons]
    refine ⟨fun b inside same => free (same ▸ List.mem_map_of_mem inside), ?_⟩
    exact sorted.imp ne_of_lt
  have same := List.perm_orderedInsert (fun a b => key a ≤ key b) a xs
  have spread := apart.perm same.symm Ne.symm
  exact (weak.and spread).imp fun both => lt_of_le_of_ne both.1 both.2

/-- `insert`: an element whose key is taken stays out. -/
def insert (c : OrderedUnique key) (a : α) : OrderedUnique key × Bool :=
  if free : key a ∉ c.entries.map key then
    (⟨c.entries.orderedInsert (fun a b => key a ≤ key b) a, orderedInsert_sorted c.sorted free⟩,
      true)
  else (c, false)

theorem mem_insert : b ∈ (c.insert a).1.entries ↔
    b ∈ c.entries ∨ b = a ∧ key a ∉ c.entries.map key := by
  rw [insert]
  split
  · rename_i free
    rw [List.mem_orderedInsert, or_comm, and_iff_left free]
  · rename_i taken
    rw [or_iff_left fun both => taken both.2]

theorem ext (same : ∀ a, a ∈ c.entries ↔ a ∈ d.entries) : c = d := by
  have irrefl : Std.Irrefl fun a b : α => key a < key b := ⟨fun a => lt_irrefl (key a)⟩
  have entries := c.sorted.eq_of_mem_iff d.sorted same
  cases c
  cases d
  cases entries
  rfl

/-- The elements are those that are the first of their key in a sequence. -/
def FirstOfEach (c : OrderedUnique key) (records : List α) : Prop :=
  ∀ a, a ∈ c.entries ↔ records.find? (fun r => key r = key a) = some a

theorem FirstOfEach.unique (one : c.FirstOfEach records) (other : d.FirstOfEach records) :
    c = d :=
  ext fun a => (one a).trans (other a).symm

theorem firstOfEach_empty : (empty key).FirstOfEach [] := by
  intro a
  exact iff_of_false List.not_mem_nil (by simp)

theorem FirstOfEach.taken_iff (first : c.FirstOfEach records) :
    key b ∈ c.entries.map key ↔ (records.find? fun r => key r = key b).isSome = true := by
  rw [List.mem_map]
  constructor
  · rintro ⟨a, inside, same⟩
    rw [← same, (first a).mp inside]
    rfl
  · intro some_
    obtain ⟨a, found⟩ := Option.isSome_iff_exists.mp some_
    have same : key a = key b := by simpa using List.find?_some found
    refine ⟨a, (first a).mpr ?_, same⟩
    rw [same]
    exact found

/-- An insertion makes it the firsts of one element more. -/
theorem FirstOfEach.insert (first : c.FirstOfEach records) (a : α) :
    (c.insert a).1.FirstOfEach (records ++ [a]) := by
  intro b
  rw [mem_insert, first b, first.taken_iff, List.find?_append]
  cases found : records.find? fun r => key r = key b with
  | some r =>
      have same : key r = key b := by simpa using List.find?_some found
      rw [Option.some_or, or_iff_left]
      rintro ⟨rfl, free⟩
      exact free (by rw [found]; rfl)
  | none =>
      rw [Option.none_or, or_iff_right (by simp)]
      constructor
      · rintro ⟨rfl, free⟩
        simp
      · intro last
        have same : b = a := by simpa using List.mem_of_find?_eq_some last
        subst same
        exact ⟨rfl, by rw [found]; simp⟩

def insertAll (c : OrderedUnique key) (xs : List α) : OrderedUnique key :=
  xs.foldl (fun c a => (c.insert a).1) c

theorem FirstOfEach.insertAll (first : c.FirstOfEach records) (xs : List α) :
    (c.insertAll xs).FirstOfEach (records ++ xs) := by
  induction xs generalizing c records with
  | nil => rwa [List.append_nil]
  | cons a xs ih =>
      have later := ih (first.insert a)
      rwa [List.append_assoc, List.singleton_append] at later

end Insert

end OrderedUnique

end VanillaRtb.Lib
