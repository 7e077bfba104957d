import Mathlib

/-! # Sorting and maximum of a range under a caller's comparator

The standard algorithms promise nothing unless the comparator is a strict weak
ordering of the elements they are given, so the contract of `sort` is stated on
one list and not on the whole type. An unstable sort is any function that meets
the contract; nothing is assumed about the order of equivalent elements.
-/

namespace VanillaRtb.Lib

/-- A strict weak ordering of the elements of `xs`: asymmetric, and whatever lies
    strictly between two elements separates every third one from one of them. -/
structure StrictWeakOn (lt : α → α → Bool) (xs : List α) : Prop where
  asymm : ∀ a ∈ xs, ∀ b ∈ xs, lt a b = true → lt b a = false
  cotrans : ∀ a ∈ xs, ∀ b ∈ xs, ∀ c ∈ xs, lt a c = true → lt a b = true ∨ lt b c = true

/-- A comparator on optional keys that puts everything without a key last. -/
def optionalBefore (keyLt : κ → κ → Bool) : Option κ → Option κ → Bool
  | none, _ => false
  | some _, none => true
  | some p, some q => keyLt p q

namespace StrictWeakOn

theorem subset {lt : α → α → Bool} (h : StrictWeakOn lt xs) (inside : ys ⊆ xs) :
    StrictWeakOn lt ys where
  asymm a ha b hb := h.asymm a (inside ha) b (inside hb)
  cotrans a ha b hb c hc := h.cotrans a (inside ha) b (inside hb) c (inside hc)

theorem not_trans {lt : α → α → Bool} (h : StrictWeakOn lt xs)
    (ha : a ∈ xs) (hb : b ∈ xs) (hc : c ∈ xs)
    (hab : lt a b = false) (hbc : lt b c = false) : lt a c = false := by
  by_contra hac
  rcases h.cotrans a ha b hb c hc (by simpa using hac) with first | last
  · simp [first] at hab
  · simp [last] at hbc

/-- Comparing the keys of a linear order. -/
theorem of_key [LinearOrder κ] {lt : α → α → Bool} {xs : List α} (key : α → κ)
    (reads : ∀ a ∈ xs, ∀ b ∈ xs, lt a b = true ↔ key a < key b) : StrictWeakOn lt xs where
  asymm a ha b hb hab := by
    have below := (reads a ha b hb).mp hab
    have notAbove := mt (reads b hb a ha).mp (lt_asymm below)
    simpa using notAbove
  cotrans a ha b hb c hc hac := by
    have below := (reads a ha c hc).mp hac
    rcases lt_or_ge (key a) (key b) with hab | hba
    · exact .inl ((reads a ha b hb).mpr hab)
    · exact .inr ((reads b hb c hc).mpr (lt_of_le_of_lt hba below))

/-- Comparing optional keys is as good as the comparator used on those that are there. -/
theorem of_optional {keyLt : κ → κ → Bool} {lt : α → α → Bool} {xs : List α} (key : α → Option κ)
    (reads : ∀ a b, lt a b = optionalBefore keyLt (key a) (key b))
    (keys : StrictWeakOn keyLt (xs.filterMap key)) : StrictWeakOn lt xs where
  asymm a ha b hb hab := by
    rw [reads] at hab ⊢
    cases hka : key a with
    | none => simp [hka, optionalBefore] at hab
    | some p =>
        cases hkb : key b with
        | none => rfl
        | some q =>
            simp only [hka, hkb, optionalBefore] at hab ⊢
            exact keys.asymm p (List.mem_filterMap.mpr ⟨a, ha, hka⟩)
              q (List.mem_filterMap.mpr ⟨b, hb, hkb⟩) hab
  cotrans a ha b hb c hc hac := by
    rw [reads] at hac
    rw [reads, reads]
    cases hka : key a with
    | none => simp [hka, optionalBefore] at hac
    | some p =>
        cases hkb : key b with
        | none => exact .inl rfl
        | some q =>
            cases hkc : key c with
            | none => exact .inr rfl
            | some r =>
                simp only [hka, hkc, optionalBefore] at hac ⊢
                exact keys.cotrans p (List.mem_filterMap.mpr ⟨a, ha, hka⟩)
                  q (List.mem_filterMap.mpr ⟨b, hb, hkb⟩)
                  r (List.mem_filterMap.mpr ⟨c, hc, hkc⟩) hac

end StrictWeakOn

/-- What `std::sort` promises: a reordering of the range in which no element is
    followed by one that the comparator puts before it. -/
structure StdSort where
  sort : {α : Type} → (α → α → Bool) → List α → List α
  perm : ∀ {α : Type} {lt : α → α → Bool} {xs : List α},
    StrictWeakOn lt xs → (sort lt xs).Perm xs
  ordered : ∀ {α : Type} {lt : α → α → Bool} {xs : List α},
    StrictWeakOn lt xs → (sort lt xs).Pairwise fun a b => lt b a = false

namespace StdSort

/-- The element that a sort puts first is in the range and nothing precedes it. -/
theorem head_first (s : StdSort) {lt : α → α → Bool} {xs : List α} (h : StrictWeakOn lt xs)
    (sorted : s.sort lt xs = a :: rest) : a ∈ xs ∧ ∀ b ∈ xs, lt b a = false := by
  have reordered : (a :: rest).Perm xs := sorted ▸ s.perm h
  have ordered := s.ordered h
  rw [sorted, List.pairwise_cons] at ordered
  have inside : a ∈ xs := reordered.subset List.mem_cons_self
  refine ⟨inside, ?_⟩
  intro b hb
  rcases List.mem_cons.mp (reordered.symm.subset hb) with rfl | later
  · by_contra hbb
    have self : lt b b = true := by simpa using hbb
    simp [h.asymm b inside b inside self] at self
  · exact ordered.1 b later

theorem sort_ne_nil (s : StdSort) {lt : α → α → Bool} {xs : List α} (h : StrictWeakOn lt xs)
    (nonempty : xs ≠ []) : s.sort lt xs ≠ [] := by
  intro empty
  have reordered := s.perm h
  rw [empty] at reordered
  exact nonempty reordered.nil_eq.symm

/-- Merge sort on the elements of the range meets the contract. -/
def merge : StdSort where
  sort lt xs := (xs.attach.mergeSort fun a b => !lt b.1 a.1).map Subtype.val
  perm {_ lt xs} _ := by
    have := (List.mergeSort_perm xs.attach fun a b => !lt b.1 a.1).map Subtype.val
    rwa [List.attach_map_subtype_val] at this
  ordered {_ lt xs} h := by
    rw [List.pairwise_map]
    have sorted := @List.pairwise_mergeSort _ (fun a b : {a // a ∈ xs} => !lt b.1 a.1)
      (fun a b c hab hbc => by
        simp only [Bool.not_eq_true'] at hab hbc ⊢
        exact h.not_trans c.2 b.2 a.2 hbc hab)
      (fun a b => by
        cases hba : lt b.1 a.1 with
        | false => rfl
        | true => simp [h.asymm b.1 b.2 a.1 a.2 hba])
      xs.attach
    exact sorted.imp (by simp)

end StdSort

/-- The scan of `std::max_element`: the candidate changes only for an element
    that the comparator puts strictly above it, so the first maximum is kept. -/
def maxElement (lt : α → α → Bool) : List α → Option α
  | [] => none
  | a :: as => some (as.foldl (fun best x => if lt best x then x else best) a)

private theorem scan_mem (lt : α → α → Bool) (as : List α) (a : α) :
    as.foldl (fun best x => if lt best x then x else best) a ∈ a :: as := by
  induction as generalizing a with
  | nil => simp
  | cons b as ih =>
      rw [List.foldl_cons]
      split
      · exact List.mem_cons_of_mem _ (ih b)
      · rcases List.mem_cons.mp (ih a) with same | later
        · simp [same]
        · exact List.mem_cons_of_mem _ (List.mem_cons_of_mem _ later)

private theorem scan_max {lt : α → α → Bool} (as : List α) (a : α)
    (h : StrictWeakOn lt (a :: as)) :
    ∀ x ∈ a :: as, lt (as.foldl (fun best x => if lt best x then x else best) a) x = false := by
  induction as generalizing a with
  | nil =>
      intro x hx
      obtain rfl := List.mem_singleton.mp hx
      by_contra self
      have self : lt x x = true := by simpa using self
      simp [h.asymm x (by simp) x (by simp) self] at self
  | cons b as ih =>
      have dropFirst : b :: as ⊆ a :: b :: as := List.subset_cons_self a _
      have dropSecond : a :: as ⊆ a :: b :: as := by
        intro x hx
        rcases List.mem_cons.mp hx with rfl | later
        · exact List.mem_cons_self
        · exact List.mem_cons_of_mem _ (List.mem_cons_of_mem _ later)
      rw [List.foldl_cons]
      intro x hx
      split
      · rename_i above
        have rest := ih b (h.subset dropFirst)
        have found := scan_mem lt as b
        rcases List.mem_cons.mp hx with rfl | later
        · -- the old candidate lies below the new one, hence below the result
          exact h.not_trans (dropFirst found) (dropFirst List.mem_cons_self) hx
            (rest b List.mem_cons_self) (h.asymm x hx b (by simp) above)
        · exact rest x later
      · rename_i notAbove
        have rest := ih a (h.subset dropSecond)
        have found := scan_mem lt as a
        rcases List.mem_cons.mp hx with rfl | later
        · exact rest x List.mem_cons_self
        rcases List.mem_cons.mp later with rfl | later
        · exact h.not_trans (dropSecond found) List.mem_cons_self hx
            (rest a List.mem_cons_self) (by simpa using notAbove)
        · exact rest x (List.mem_cons_of_mem _ later)

theorem maxElement_mem {lt : α → α → Bool} (h : maxElement lt xs = some m) : m ∈ xs := by
  cases xs with
  | nil => simp [maxElement] at h
  | cons a as =>
      obtain rfl := Option.some.inj h
      exact scan_mem lt as a

theorem maxElement_max {lt : α → α → Bool} (order : StrictWeakOn lt xs)
    (h : maxElement lt xs = some m) : ∀ x ∈ xs, lt m x = false := by
  cases xs with
  | nil => simp [maxElement] at h
  | cons a as =>
      obtain rfl := Option.some.inj h
      exact scan_max as a order

@[simp] theorem maxElement_eq_none {lt : α → α → Bool} : maxElement lt xs = none ↔ xs = [] := by
  cases xs <;> simp [maxElement]

/-- Elements of which each is above the one before it, up to the last. -/
inductive Climb (lt : α → α → Bool) : List α → α → Prop where
  | start (a : α) : Climb lt [a] a
  | up (before : Climb lt chain a) (above : lt a b = true) : Climb lt (chain ++ [b]) b

/-- A climb through elements of `xs` ends with `m`, and each of the other elements is not above
    some element of the climb. -/
def Reaches (lt : α → α → Bool) (xs : List α) (m : α) : Prop :=
  ∃ chain others, Climb lt chain m ∧ xs.Perm (chain ++ others) ∧
    ∀ y ∈ others, ∃ b ∈ chain, lt b y = false

theorem Climb.last_mem {lt : α → α → Bool} (climb : Climb lt chain m) : m ∈ chain := by
  cases climb with
  | start => exact List.mem_singleton_self m
  | up before above => exact List.mem_append_right _ (List.mem_singleton_self m)

theorem maxElement_append {lt : α → α → Bool} (found : maxElement lt xs = some m) (ys : List α) :
    maxElement lt (xs ++ ys) =
      some (ys.foldl (fun best x => if lt best x then x else best) m) := by
  cases xs with
  | nil => cases found
  | cons a as =>
      obtain rfl := Option.some.inj found
      rw [List.cons_append, maxElement, List.foldl_append]

/-- The candidate stays if nothing that follows is above it. -/
theorem maxElement_append_kept {lt : α → α → Bool} (found : maxElement lt xs = some m)
    (below : ∀ y ∈ ys, lt m y = false) : maxElement lt (xs ++ ys) = some m := by
  rw [maxElement_append found]
  induction ys with
  | nil => rfl
  | cons y ys ih =>
      rw [List.foldl_cons, below y List.mem_cons_self, if_neg Bool.false_ne_true]
      exact ih fun z later => below z (List.mem_cons_of_mem y later)

/-- The candidates of a scan are a climb. -/
theorem reaches_of_maxElement {lt : α → α → Bool} (found : maxElement lt xs = some m) :
    Reaches lt xs m := by
  induction xs using List.reverseRecOn generalizing m with
  | nil => cases found
  | append_singleton xs x ih =>
      cases first : maxElement lt xs with
      | none =>
          obtain rfl := maxElement_eq_none.mp first
          cases found
          exact ⟨[x], [], .start x, List.Perm.refl _, nofun⟩
      | some best =>
          obtain ⟨chain, others, climb, perm, below⟩ := ih first
          rw [maxElement_append first, List.foldl_cons, List.foldl_nil] at found
          split at found
          next above =>
            obtain rfl := Option.some.inj found
            refine ⟨chain ++ [x], others, climb.up above, ?_, ?_⟩
            · refine (perm.append_right [x]).trans ?_
              rw [List.append_assoc, List.append_assoc]
              exact List.perm_append_comm.append_left chain
            · intro y other
              obtain ⟨b, here, notAbove⟩ := below y other
              exact ⟨b, List.mem_append_left _ here, notAbove⟩
          next notAbove =>
            obtain rfl := Option.some.inj found
            refine ⟨chain, others ++ [x], climb, ?_, ?_⟩
            · rw [← List.append_assoc]
              exact perm.append_right [x]
            · intro y other
              rcases List.mem_append.mp other with earlier | last
              · exact below y earlier
              · rw [List.mem_singleton.mp last]
                exact ⟨best, climb.last_mem, Bool.eq_false_iff.mpr notAbove⟩

/-- Some order of the elements lets a scan find the end of a climb. -/
theorem maxElement_of_climb {lt : α → α → Bool} (climb : Climb lt chain m)
    (below : ∀ y ∈ others, ∃ b ∈ chain, lt b y = false) :
    ∃ ys, ys.Perm (chain ++ others) ∧ maxElement lt ys = some m := by
  induction climb generalizing others with
  | start a =>
      refine ⟨a :: others, List.Perm.refl _, ?_⟩
      have alone : maxElement lt [a] = some a := rfl
      refine maxElement_append_kept alone ?_
      intro y other
      obtain ⟨b, here, notAbove⟩ := below y other
      rwa [List.mem_singleton.mp here] at notAbove
  | @up chain a b before above ih =>
      -- the others that are not above an earlier element go before `b`, the rest behind it
      let early (y : α) : Bool := chain.any fun c => !lt c y
      have below_early : ∀ y ∈ others.filter early, ∃ c ∈ chain, lt c y = false := by
        intro y other
        obtain ⟨c, here, notAbove⟩ := List.any_eq_true.mp (List.mem_filter.mp other).2
        exact ⟨c, here, (Bool.not_eq_true' _).mp notAbove⟩
      obtain ⟨ys, order, found⟩ := ih below_early
      have added : maxElement lt (ys ++ [b]) = some b := by
        rw [maxElement_append found, List.foldl_cons, List.foldl_nil, if_pos above]
      refine ⟨ys ++ [b] ++ others.filter (fun y => !early y), ?_, ?_⟩
      · have swap : (chain ++ others.filter early ++ [b]).Perm
            (chain ++ [b] ++ others.filter early) := by
          rw [List.append_assoc, List.append_assoc]
          exact List.perm_append_comm.append_left chain
        refine (((order.append_right [b]).trans swap).append_right _).trans ?_
        rw [List.append_assoc]
        exact (List.filter_append_perm early others).append_left (chain ++ [b])
      · refine maxElement_append_kept added ?_
        intro y other
        obtain ⟨inside, late⟩ := List.mem_filter.mp other
        obtain ⟨c, here, notAbove⟩ := below y inside
        rcases List.mem_append.mp here with earlier | last
        · have : early y = true := List.any_eq_true.mpr ⟨c, earlier, by rw [notAbove]; rfl⟩
          rw [this] at late
          cases late
        · rwa [List.mem_singleton.mp last] at notAbove

/-- What some order of the elements lets `max_element` find. -/
theorem reaches_iff {lt : α → α → Bool} :
    Reaches lt xs m ↔ ∃ ys, ys.Perm xs ∧ maxElement lt ys = some m := by
  constructor
  · rintro ⟨chain, others, climb, perm, below⟩
    obtain ⟨ys, order, found⟩ := maxElement_of_climb climb below
    exact ⟨ys, order.trans perm.symm, found⟩
  · rintro ⟨ys, order, found⟩
    obtain ⟨chain, others, climb, perm, below⟩ := reaches_of_maxElement found
    exact ⟨chain, others, climb, order.symm.trans perm, below⟩

end VanillaRtb.Lib
