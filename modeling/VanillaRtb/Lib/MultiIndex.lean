import VanillaRtb.Lib.OrderedIndex

/-! # Containers with several ordered indices

Every index is a view of the same elements, sorted by what its tag reads off their keys;
the key as a whole is unique. Changing one element moves it in every view to where it now
belongs, unless it is still in order where it stands. A position in a view is named by the
key of the element there, and the end by nothing.
-/

namespace VanillaRtb.Lib

section Sequence

variable [LinearOrder κ] {rank : α → κ} {before after xs : List α} {e : α}

/-- Behind the last element that does not come after `e`. -/
def insertUpper (rank : α → κ) (e : α) (xs : List α) : List α :=
  (xs.takeWhile fun a => rank a ≤ rank e) ++ e :: xs.dropWhile fun a => rank a ≤ rank e

/-- `e` takes the place between `before` and `after` if it is in order there. -/
def relink (rank : α → κ) (before after : List α) (e : α) : List α :=
  if (∀ a ∈ before, rank a ≤ rank e) ∧ ∀ a ∈ after, rank e ≤ rank a then before ++ e :: after
  else insertUpper rank e (before ++ after)

theorem relink_eq (rank : α → κ) (before after : List α) (e : α) :
    ∃ l r, l ++ r = before ++ after ∧ relink rank before after e = l ++ e :: r := by
  unfold relink
  split
  · exact ⟨before, after, rfl, rfl⟩
  · exact ⟨_, _, List.takeWhile_append_dropWhile, rfl⟩

theorem relink_perm (rank : α → κ) (before after : List α) (e : α) :
    (relink rank before after e).Perm (e :: (before ++ after)) := by
  obtain ⟨l, r, same, eq⟩ := relink_eq rank before after e
  rw [eq, ← same]
  exact List.perm_middle

theorem insertUpper_perm (rank : α → κ) (e : α) (xs : List α) :
    (insertUpper rank e xs).Perm (e :: xs) := by
  have whole : xs = (xs.takeWhile fun a => rank a ≤ rank e) ++ xs.dropWhile fun a => rank a ≤ rank e :=
    List.takeWhile_append_dropWhile.symm
  conv_rhs => rw [whole]
  exact List.perm_middle

theorem rank_lt_of_dropWhile (sorted : xs.Pairwise fun a b => rank a ≤ rank b)
    (later : a ∈ xs.dropWhile fun b => rank b ≤ rank e) : rank e < rank a := by
  induction xs with
  | nil => exact absurd later List.not_mem_nil
  | cons x xs ih =>
      obtain ⟨first, rest⟩ := List.pairwise_cons.mp sorted
      by_cases below : rank x ≤ rank e
      · rw [List.dropWhile_cons_of_pos (by simpa using below)] at later
        exact ih rest later
      · rw [List.dropWhile_cons_of_neg (by simpa using below)] at later
        have here : rank e < rank x := lt_of_not_ge below
        rcases List.mem_cons.mp later with rfl | inside
        · exact here
        · exact lt_of_lt_of_le here (first a inside)

theorem sorted_middle (sorted : (before ++ after).Pairwise fun a b => rank a ≤ rank b)
    (below : ∀ a ∈ before, rank a ≤ rank e) (above : ∀ a ∈ after, rank e ≤ rank a) :
    (before ++ e :: after).Pairwise fun a b => rank a ≤ rank b := by
  obtain ⟨front, back, across⟩ := List.pairwise_append.mp sorted
  rw [List.pairwise_append, List.pairwise_cons]
  refine ⟨front, ⟨above, back⟩, ?_⟩
  intro a ha b hb
  rcases List.mem_cons.mp hb with rfl | later
  · exact below a ha
  · exact across a ha b later

theorem insertUpper_sorted (sorted : xs.Pairwise fun a b => rank a ≤ rank b) :
    (insertUpper rank e xs).Pairwise fun a b => rank a ≤ rank b := by
  apply sorted_middle
  case sorted => rwa [List.takeWhile_append_dropWhile]
  case below => exact fun a ha => by simpa using List.mem_takeWhile_imp ha
  case above => exact fun a ha => le_of_lt (rank_lt_of_dropWhile sorted ha)

theorem relink_sorted (sorted : (before ++ after).Pairwise fun a b => rank a ≤ rank b) :
    (relink rank before after e).Pairwise fun a b => rank a ≤ rank b := by
  unfold relink
  split
  case isTrue inPlace => exact sorted_middle sorted inPlace.1 inPlace.2
  case isFalse => exact insertUpper_sorted sorted

/-- From the lower bound of `p` on. -/
def fromLower (rank : α → κ) (p : κ) (xs : List α) : List α := xs.dropWhile fun a => rank a < p

/-- From the upper bound of `p` on. -/
def fromUpper (rank : α → κ) (p : κ) (xs : List α) : List α := xs.dropWhile fun a => rank a ≤ p

theorem fromUpper_fromLower (rank : α → κ) (p : κ) (xs : List α) :
    fromUpper rank p (fromLower rank p xs) = fromUpper rank p xs := by
  induction xs with
  | nil => rfl
  | cons x xs ih =>
      by_cases below : rank x < p
      · have above : rank x ≤ p := le_of_lt below
        simp only [fromLower, fromUpper, List.dropWhile_cons, below, above, decide_true, if_true]
        exact ih
      · rw [fromLower, List.dropWhile_cons_of_neg (by simpa using below)]

theorem exists_append_fromLower (rank : α → κ) (p : κ) (xs : List α) :
    ∃ before, before ++ fromLower rank p xs = xs :=
  ⟨_, List.takeWhile_append_dropWhile⟩

theorem fromLower_eq (rank : α → κ) (p : κ) (xs : List α) :
    fromLower rank p xs = rangeOf rank p xs ++ fromUpper rank p xs := by
  rw [← fromUpper_fromLower]
  exact List.takeWhile_append_dropWhile.symm

end Sequence

section Keys

variable [DecidableEq κ] {key : α → κ} {k : κ} {x : α} {before after xs : List α}

/-- What stands before and behind the element with a key. -/
def aheadOf (key : α → κ) (k : κ) (xs : List α) : List α := xs.takeWhile fun a => key a ≠ k

def behindOf (key : α → κ) (k : κ) (xs : List α) : List α :=
  (xs.dropWhile fun a => key a ≠ k).tail

def UniqueBy (key : α → κ) (xs : List α) : Prop := (xs.map key).Nodup

omit [DecidableEq κ] in
theorem UniqueBy.append_cons (unique : UniqueBy key (before ++ x :: after)) :
    ∀ a ∈ before ++ after, key a ≠ key x := by
  have parts := List.perm_middle.map key |>.nodup_iff.mp unique
  rw [List.map_cons, List.nodup_cons] at parts
  intro a ha same
  exact parts.1 (same ▸ List.mem_map_of_mem ha)

theorem aheadOf_append_cons (unique : UniqueBy key (before ++ x :: after)) :
    aheadOf key (key x) (before ++ x :: after) = before := by
  have others := unique.append_cons
  have fresh : ∀ a ∈ before, decide (key a ≠ key x) = true := fun a ha =>
    decide_eq_true (others a (List.mem_append_left _ ha))
  rw [aheadOf, List.takeWhile_append_of_pos fresh, List.takeWhile_cons_of_neg (by simp),
    List.append_nil]

theorem behindOf_append_cons (unique : UniqueBy key (before ++ x :: after)) :
    behindOf key (key x) (before ++ x :: after) = after := by
  have others := unique.append_cons
  have fresh : ∀ a ∈ before, decide (key a ≠ key x) = true := fun a ha =>
    decide_eq_true (others a (List.mem_append_left _ ha))
  rw [behindOf, List.dropWhile_append_of_pos fresh, List.dropWhile_cons_of_neg (by simp),
    List.tail_cons]

theorem aheadOf_append_behindOf (unique : UniqueBy key xs) (k : κ) :
    aheadOf key k xs ++ behindOf key k xs = xs.filter fun a => key a ≠ k := by
  induction xs with
  | nil => rfl
  | cons x xs ih =>
      obtain ⟨fresh, rest⟩ := List.nodup_cons.mp unique
      by_cases here : key x = k
      · -- no other element has the key
        have all : ∀ a ∈ xs, decide (key a ≠ k) = true := by
          intro a ha
          refine decide_eq_true fun same => fresh ?_
          rw [here, ← same]
          exact List.mem_map_of_mem ha
        simp only [aheadOf, behindOf, List.takeWhile_cons, List.dropWhile_cons, here, ne_eq,
          not_true_eq_false, decide_false, Bool.false_eq_true, if_false, List.nil_append,
          List.tail_cons, List.filter_cons]
        exact (List.filter_eq_self.mpr all).symm
      · have step := ih rest
        simp only [aheadOf, behindOf] at step
        simp only [aheadOf, behindOf, List.takeWhile_cons, List.dropWhile_cons, here, ne_eq,
          not_false_eq_true, decide_true, if_true, List.cons_append, List.filter_cons, step]

end Keys

variable {α κ φ Tag : Type}

/-- A container of elements with a unique `key`, sorted by `part t` in the view of `t`. -/
structure MultiIndex [LinearOrder φ] (key : α → κ) (part : Tag → κ → List φ) where
  view : Tag → List α
  same : ∀ s t, (view s).Perm (view t)
  sorted : ∀ t, (view t).Pairwise fun a b => part t (key a) ≤ part t (key b)
  unique : ∀ t, UniqueBy key (view t)

namespace MultiIndex

variable [LinearOrder φ] {key : α → κ} {part : Tag → κ → List φ}

def empty : MultiIndex key part where
  view _ := []
  same _ _ := .refl _
  sorted _ := .nil
  unique _ := List.nodup_nil

section Entries

variable [Inhabited Tag]

/-- The elements, in no order to speak of. -/
def entries (c : MultiIndex key part) : List α := c.view default

theorem view_perm (c : MultiIndex key part) (t : Tag) : (c.view t).Perm c.entries :=
  c.same t default

def hasKey (c : MultiIndex key part) (k : κ) : Prop := k ∈ c.entries.map key

theorem hasKey_iff (c : MultiIndex key part) (k : κ) (t : Tag) :
    c.hasKey k ↔ k ∈ (c.view t).map key :=
  ((c.view_perm t).map key).mem_iff.symm

end Entries

section Ranges

variable {before behind : List α}

/-- The iterator to the first element of a list. -/
def iteratorTo (key : α → κ) (xs : List α) : Option κ := xs.head?.map key

/-- `equal_range` on the first fields of a tag. -/
def equalRange (c : MultiIndex key part) (t : Tag) (fields : List φ) : Option κ × Option κ :=
  (iteratorTo key (fromLower (fun a => (part t (key a)).take fields.length) fields (c.view t)),
    iteratorTo key (fromUpper (fun a => (part t (key a)).take fields.length) fields (c.view t)))

/-- The elements that agree with the fields. -/
def matching (c : MultiIndex key part) (t : Tag) (fields : List φ) : List α :=
  (c.view t).filter fun a => (part t (key a)).take fields.length = fields

def others (c : MultiIndex key part) (t : Tag) (fields : List φ) : List α :=
  (c.view t).filter fun a => (part t (key a)).take fields.length ≠ fields

theorem matching_eq_rangeOf (c : MultiIndex key part) (t : Tag) (fields : List φ) :
    c.matching t fields =
      rangeOf (fun a => (part t (key a)).take fields.length) fields (c.view t) := by
  rw [matching, rangeOf_eq_filter]
  exact (c.sorted t).imp fun le => take_le_take le _

/-- The range is the matching elements, which follow each other in the view. -/
theorem equalRange_split (c : MultiIndex key part) (t : Tag) (fields : List φ) :
    ∃ before behind, c.view t = before ++ (c.matching t fields ++ behind) ∧
      c.equalRange t fields =
        (iteratorTo key (c.matching t fields ++ behind), iteratorTo key behind) := by
  have lower := fromLower_eq (fun a => (part t (key a)).take fields.length) fields (c.view t)
  rw [← matching_eq_rangeOf] at lower
  obtain ⟨before, split⟩ :=
    exists_append_fromLower (fun a => (part t (key a)).take fields.length) fields (c.view t)
  rw [lower] at split
  exact ⟨before, _, split.symm, by rw [equalRange, lower]⟩

theorem others_perm {c : MultiIndex key part} {t : Tag} {fields : List φ}
    (split : c.view t = before ++ (c.matching t fields ++ behind)) :
    (before ++ behind).Perm (c.others t fields) := by
  have all : (c.matching t fields ++ c.others t fields).Perm (c.view t) := by
    have parted := List.filter_append_perm
      (fun a => decide ((part t (key a)).take fields.length = fields)) (c.view t)
    simpa only [matching, others, decide_not] using parted
  rw [split] at all
  -- the matching elements go to the front
  have moved : (before ++ (c.matching t fields ++ behind)).Perm
      (c.matching t fields ++ (before ++ behind)) := by
    rw [← List.append_assoc, ← List.append_assoc]
    exact List.perm_append_comm.append_right behind
  exact ((List.perm_append_left_iff _).mp (all.trans moved)).symm

end Ranges

section Changes

variable [DecidableEq κ] {before after ahead behind l r : List α} {x e : α}

/-- An element put anywhere into a sequence leaves the first elements of its later parts
    where they are, unless the part in question was empty. -/
theorem split_insert (same : l ++ r = before ++ (ahead ++ behind)) (e : α) :
    ∃ before' ahead' behind', l ++ e :: r = before' ++ (ahead' ++ behind') ∧
      (ahead' ++ behind').head? = (ahead ++ behind).head? ∧ behind'.head? = behind.head? ∧
      (ahead' = ahead ∨ ahead ≠ [] ∧ ahead'.Perm (e :: ahead)) := by
  rcases List.append_eq_append_iff.mp same with ⟨m, rfl, rfl⟩ | ⟨m, rfl, rest⟩
  · exact ⟨l ++ e :: m, ahead, behind, by simp, rfl, rfl, .inl rfl⟩
  rcases List.append_eq_append_iff.mp rest with ⟨m', rfl, rfl⟩ | ⟨m', rfl, rfl⟩
  · -- `e` falls behind the whole of `ahead`
    cases m' with
    | nil =>
        cases ahead with
        | nil => exact ⟨before ++ [e], [], r, by simp, rfl, rfl, .inl rfl⟩
        | cons a ahead =>
            refine ⟨before, a :: ahead ++ [e], r, by simp, rfl, rfl, .inr ⟨by simp, ?_⟩⟩
            exact List.perm_append_singleton e (a :: ahead)
    | cons b m' =>
        exact ⟨before, ahead, b :: m' ++ e :: r, by simp, by cases ahead <;> rfl, rfl, .inl rfl⟩
  · cases m with
    | nil => exact ⟨before ++ [e], m', behind, by simp, rfl, rfl, .inl rfl⟩
    | cons a m =>
        refine ⟨before, a :: m ++ e :: m', behind, by simp, rfl, rfl, .inr ⟨by simp, ?_⟩⟩
        exact List.perm_middle

/-- The iterator behind the element under `k`. -/
def next (c : MultiIndex key part) (t : Tag) (k : κ) : Option κ :=
  iteratorTo key (behindOf key k (c.view t))

theorem next_eq {c : MultiIndex key part} (at_x : c.view t = before ++ x :: after) :
    c.next t (key x) = iteratorTo key after := by
  have unique := c.unique t
  rw [at_x] at unique
  rw [next, at_x, behindOf_append_cons unique]

/-- Every view with the element under `k` taken out. -/
def erase (c : MultiIndex key part) (k : κ) : MultiIndex key part where
  view t := (c.view t).filter fun a => key a ≠ k
  same s t := (c.same s t).filter _
  sorted t := (c.sorted t).filter _
  unique t := (c.unique t).sublist (List.filter_sublist.map key)

theorem erase_view {c : MultiIndex key part} (at_x : c.view t = before ++ x :: after) :
    (c.erase (key x)).view t = before ++ after := by
  have unique := c.unique t
  have kept := aheadOf_append_behindOf unique (key x)
  rw [at_x] at unique
  rw [at_x, aheadOf_append_cons unique, behindOf_append_cons unique, ← at_x] at kept
  exact kept.symm

/-- Every view with `e` in the place of the element under `k`, or where it belongs. -/
def replaceView (part : Tag → κ → List φ) (key : α → κ) (t : Tag) (xs : List α) (k : κ) (e : α) :
    List α :=
  relink (fun a => part t (key a)) (aheadOf key k xs) (behindOf key k xs) e

theorem replaceView_perm (c : MultiIndex key part) (t : Tag) (k : κ) (e : α) :
    (replaceView part key t (c.view t) k e).Perm (e :: (c.erase k).view t) := by
  have kept := aheadOf_append_behindOf (c.unique t) k
  exact (relink_perm _ _ _ _).trans (.cons e (.of_eq kept))

variable [Inhabited Tag]

instance (c : MultiIndex key part) (k : κ) : Decidable (c.hasKey k) :=
  inferInstanceAs (Decidable (_ ∈ _))

def replace (c : MultiIndex key part) (k : κ) (e : α) (free : key e ≠ k → ¬ c.hasKey (key e)) :
    MultiIndex key part where
  view t := replaceView part key t (c.view t) k e
  same s t := by
    have rest := ((c.erase k).same s t).cons e
    exact (c.replaceView_perm s k e).trans (rest.trans (c.replaceView_perm t k e).symm)
  sorted t := by
    apply relink_sorted
    rw [aheadOf_append_behindOf (c.unique t)]
    exact (c.erase k).sorted t
  unique t := by
    apply ((c.replaceView_perm t k e).map key).nodup_iff.mpr
    rw [List.map_cons, List.nodup_cons]
    refine ⟨?_, (c.erase k).unique t⟩
    intro taken
    obtain ⟨a, ha, same⟩ := List.mem_map.mp taken
    obtain ⟨here, other⟩ := List.mem_filter.mp ha
    have moved : key e ≠ k := same ▸ of_decide_eq_true other
    exact free moved ((c.hasKey_iff _ t).mpr (same ▸ List.mem_map_of_mem here))

/-- `modify` with a functor that assigns `e`: an element whose new key is taken is erased. -/
def modify (c : MultiIndex key part) (k : κ) (e : α) : MultiIndex key part × Bool :=
  if taken : key e ≠ k ∧ c.hasKey (key e) then (c.erase k, false)
  else (c.replace k e fun moved there => taken ⟨moved, there⟩, true)

/-- An element whose key is taken is not inserted. -/
def insert (c : MultiIndex key part) (e : α) : MultiIndex key part × Bool :=
  if taken : c.hasKey (key e) then (c, false)
  else
    ({ view := fun t => insertUpper (fun a => part t (key a)) e (c.view t)
       same := fun s t =>
         (insertUpper_perm _ e _).trans (((c.same s t).cons e).trans (insertUpper_perm _ e _).symm)
       sorted := fun t => insertUpper_sorted (c.sorted t)
       unique := fun t => by
         apply ((insertUpper_perm _ e _).map key).nodup_iff.mpr
         exact List.nodup_cons.mpr ⟨fun there => taken ((c.hasKey_iff _ t).mpr there), c.unique t⟩ },
      true)

/-- The element at `x` becomes `e`, or goes if another element has the key of `e`. -/
theorem modify_cases {c : MultiIndex key part} (at_x : c.view t = before ++ x :: after) (e : α) :
    (key e ∈ (before ++ after).map key ∧ (c.modify (key x) e).2 = false ∧
      (c.modify (key x) e).1.view t = before ++ after) ∨
    (key e ∉ (before ++ after).map key ∧ (c.modify (key x) e).2 = true ∧
      ∃ l r, l ++ r = before ++ after ∧ (c.modify (key x) e).1.view t = l ++ e :: r ∧
        (key e = key x → l = before)) := by
  have unique := c.unique t
  have sorted := c.sorted t
  rw [at_x] at unique sorted
  have taken_iff : (key e ≠ key x ∧ c.hasKey (key e)) ↔ key e ∈ (before ++ after).map key := by
    rw [c.hasKey_iff (key e) t, at_x, (List.perm_middle.map key).mem_iff, List.map_cons,
      List.mem_cons]
    constructor
    · rintro ⟨moved, here | there⟩
      · exact absurd here moved
      · exact there
    · intro there
      obtain ⟨a, ha, eq⟩ := List.mem_map.mp there
      exact ⟨eq ▸ unique.append_cons a ha, .inr there⟩
  by_cases taken : key e ≠ key x ∧ c.hasKey (key e)
  · exact .inl ⟨taken_iff.mp taken, by rw [modify, dif_pos taken],
      by rw [modify, dif_pos taken, erase_view at_x]⟩
  · have put : (c.modify (key x) e).1.view t =
        relink (fun a => part t (key a)) before after e := by
      rw [modify, dif_neg taken]
      change replaceView part key t (c.view t) (key x) e = _
      rw [replaceView, at_x, aheadOf_append_cons unique, behindOf_append_cons unique]
    refine .inr ⟨fun there => taken (taken_iff.mpr there), by rw [modify, dif_neg taken], ?_⟩
    by_cases here : key e = key x
    · -- the element is still in order where it stands
      obtain ⟨-, back, across⟩ := List.pairwise_append.mp sorted
      have inPlace : (∀ a ∈ before, part t (key a) ≤ part t (key e)) ∧
          ∀ a ∈ after, part t (key e) ≤ part t (key a) := by
        rw [here]
        exact ⟨fun a ha => across a ha x List.mem_cons_self, (List.pairwise_cons.mp back).1⟩
      exact ⟨before, after, rfl, by rw [put, relink, if_pos inPlace], fun _ => rfl⟩
    · obtain ⟨l, r, same, eq⟩ := relink_eq (fun a => part t (key a)) before after e
      exact ⟨l, r, same, put.trans eq, fun there => absurd there here⟩

/-- `erase` of an `equal_range`. -/
def eraseRange (c : MultiIndex key part) (t : Tag) (fields : List φ) : MultiIndex key part where
  view s := (c.view s).filter fun a => (part t (key a)).take fields.length ≠ fields
  same r s := (c.same r s).filter _
  sorted s := (c.sorted s).filter _
  unique s := (c.unique s).sublist (List.filter_sublist.map key)

theorem insert_taken {c : MultiIndex key part} (taken : c.hasKey (key e)) :
    c.insert e = (c, false) := by
  unfold insert
  exact dif_pos taken

theorem insert_entries {c : MultiIndex key part} (free : ¬ c.hasKey (key e)) :
    (c.insert e).1.entries.Perm (e :: c.entries) := by
  unfold insert
  rw [dif_neg free]
  exact insertUpper_perm _ e _

end Changes

end MultiIndex

end VanillaRtb.Lib
