import VanillaRtb.Datacache.Updates
import VanillaRtb.Lib.NodeIndex

/-! # One segment, several processes

The container of a named segment is shared by the processes that map it. Whoever runs out of
memory makes the segment longer, and the others keep the length they mapped until they
attach anew, which only an insertion does. Where the entries are stored and which of them a
search passes is up to the segment: a call says both of itself.
-/

namespace VanillaRtb.Datacache

open Lib

variable {α κ φ Tag : Type} [LinearOrder φ] [DecidableEq κ] [Inhabited Tag] {key : α → κ}
  {part : Tag → κ → List φ}

/-- `ends` is where the storage of a node ends, `mapped` how much of the segment a process
    sees. -/
structure SharedSegment (key : α → κ) (part : Tag → κ → List φ) where
  index : NodeIndex key part
  ends : Nat → Nat
  length : Nat
  mapped : Nat → Nat

namespace SharedSegment

/-- `path` are the nodes that a search passes, by id, `place` and `grown` where the storage of
    an insertion ends before and after the segment has grown, and `places` where that of the
    item of an update ends in each round. A place behind the segment is none. -/
inductive Call (α φ Tag : Type) where
  | construct
  | clear
  | insert (e : α) (path : List Nat) (place grown : Nat)
  | update (t : Tag) (e : α) (fields : List φ) (path : List Nat) (places : Nat → Nat)
  | remove (t : Tag) (fields : List φ) (path : List Nat)
  | find (t : Tag) (fields : List φ) (path : List Nat)
  | retrieve (t : Tag) (fields : List φ) (entries : List α) (path : List Nat)
  | retrieveRaw (t : Tag) (fields : List φ) (path : List Nat)
  | retrieveAll (entries : List α)

inductive Answer (α : Type) where
  | done
  | success (b : Bool)
  | badAlloc
  | entry (found : Option α)
  | entries (found : Bool) (out : List α)
  | iterators (range : Option Nat × Option Nat)
  deriving DecidableEq

/-- The segment as the first process creates it, mapped by all of them. -/
def start (memorySize : Nat) : SharedSegment key part where
  index := NodeIndex.empty
  ends := fun _ => 0
  length := memorySize
  mapped := fun _ => memorySize

variable (memorySize : Nat) (s : SharedSegment key part) (p : Nat)

/-- An access to a node. -/
def touch (i : Nat) : Except Fault Unit :=
  if s.ends i < s.mapped p then .ok () else .error .undefined

def touchAll (ids : List Nat) : Except Fault Unit := ids.forM (touch s p)

/-- The nodes of the index among those of a path. -/
def passed (path : List Nat) : List Nat :=
  path.filter fun i => i ∈ s.index.entries.map Node.id

def rangeIds (t : Tag) (fields : List φ) : List Nat := (s.index.range t fields).map Node.id

/-- `open_or_create_segment`, and `attach`. -/
def attach : SharedSegment key part :=
  { s with mapped := Function.update s.mapped p s.length }

def growMemory : SharedSegment key part := attach { s with length := s.length + memorySize } p

def clear : Except Fault (SharedSegment key part × Answer α) := do
  touchAll s p (s.index.entries.map Node.id)
  pure ({ s with index := s.index.clear }, .done)

def insertData (e : α) (path : List Nat) (place : Nat) :
    Except Fault (SharedSegment key part × Answer α) :=
  let s := attach s p
  if place < s.length then do
    if place < s.mapped p then pure () else .error .undefined
    touchAll s p (passed s path)
    pure ({ s with
        index := s.index.insert e
        ends := Function.update s.ends s.index.fresh place },
      .success (decide ¬ s.index.nodes.hasKey (key e)))
  else .error .badAlloc

/-- `insert`, of which a second exception is the caller's. -/
def insert (e : α) (path : List Nat) (place grown : Nat) :
    Except Fault (SharedSegment key part × Answer α) :=
  match insertData s p e path place with
  | .error .badAlloc =>
      let s := growMemory memorySize (attach s p) p
      match insertData s p e path grown with
      | .error .badAlloc => .ok (attach s p, .badAlloc)
      | outcome => outcome
  | outcome => outcome

/-- A round of `update`. If the item does not fit, the segment grows, and the retry follows an
    iterator into the mapping that was given up for it. -/
def updateOne (t : Tag) (e : α) (i place : Nat) :
    Except Fault (SharedSegment key part × Bool) :=
  if place < s.length then do
    if place < s.mapped p then pure () else .error .undefined
    pure ({ s with
        index := s.index.modify t i e
        ends := Function.update s.ends i (max (s.ends i) place) },
      s.index.modifies t i e)
  else .error .undefined

/-- The loop of `update`, in its `n`-th round; more rounds than the fuel counts as undefined. -/
def updateLoop (t : Tag) (e : α) (last : Option Nat) (places : Nat → Nat) :
    Nat → Nat → SharedSegment key part → Option Nat → Bool →
      Except Fault (SharedSegment key part × Bool)
  | 0, _, s, first, success => if first = last then .ok (s, success) else .error .undefined
  | fuel + 1, n, s, first, success =>
      if first = last then .ok (s, success)
      else
        match first with
        | some i => do
            let following := s.index.next t i
            let (s, modified) ← updateOne s p t e i (places n)
            updateLoop t e last places fuel (n + 1) s following (success || modified)
        | none => .error .undefined

def update (t : Tag) (e : α) (fields : List φ) (path : List Nat) (places : Nat → Nat) :
    Except Fault (SharedSegment key part × Answer α) := do
  touchAll s p (passed s path)
  touchAll s p (rangeIds s t fields)
  let (first, last) := s.index.equalRange t fields
  let (s, success) ← updateLoop p t e last places (2 * (s.index.view t).length + 1) 0 s first false
  pure (s, .success success)

def remove (t : Tag) (fields : List φ) (path : List Nat) :
    Except Fault (SharedSegment key part × Answer α) := do
  touchAll s p (passed s path)
  touchAll s p (rangeIds s t fields)
  pure ({ s with index := s.index.remove t fields }, .done)

/-- `retrieve` into one entry. -/
def find (t : Tag) (fields : List φ) (path : List Nat) :
    Except Fault (SharedSegment key part × Answer α) := do
  touchAll s p (passed s path)
  touchAll s p ((rangeIds s t fields).take 1)
  pure (s, .entry ((s.index.range t fields).head?.map Node.element))

/-- `retrieve` into a vector, behind what it has already. -/
def retrieve (t : Tag) (fields : List φ) (entries : List α) (path : List Nat) :
    Except Fault (SharedSegment key part × Answer α) := do
  touchAll s p (passed s path)
  touchAll s p (rangeIds s t fields)
  let entries := entries ++ (s.index.range t fields).map Node.element
  pure (s, .entries (!entries.isEmpty) entries)

def retrieveRaw (t : Tag) (fields : List φ) (path : List Nat) :
    Except Fault (SharedSegment key part × Answer α) := do
  touchAll s p (passed s path)
  pure (s, .iterators (s.index.equalRange t fields))

def retrieveAll (entries : List α) : Except Fault (SharedSegment key part × Answer α) := do
  touchAll s p (s.index.entries.map Node.id)
  let entries := entries ++ s.index.entries.map Node.element
  pure (s, .entries (!entries.isEmpty) entries)

def perform : Call α φ Tag → Except Fault (SharedSegment key part × Answer α)
  | .construct => .ok (attach s p, .done)
  | .clear => clear s p
  | .insert e path place grown => insert memorySize s p e path place grown
  | .update t e fields path places => update s p t e fields path places
  | .remove t fields path => remove s p t fields path
  | .find t fields path => find s p t fields path
  | .retrieve t fields entries path => retrieve s p t fields entries path
  | .retrieveRaw t fields path => retrieveRaw s p t fields path
  | .retrieveAll entries => retrieveAll s p entries

/-- The next call, by the process that makes it. -/
def step (a : Nat × Call α φ Tag) : Option (SharedSegment key part) :=
  (perform memorySize s a.1 a.2).toOption.map Prod.fst

/-- What a call on the contents `c` leaves and answers. -/
def Call.Meets (c d : NodeIndex key part) (answer : Answer α) : Call α φ Tag → Prop
  | .construct => d = c ∧ answer = .done
  | .clear => d = c.clear ∧ answer = .done
  | .insert e _ _ _ =>
      (d = c.insert e ∧ answer = .success (decide ¬ c.nodes.hasKey (key e))) ∨
        (d = c ∧ answer = .badAlloc)
  | .update t e fields _ _ =>
      d = c.update t e fields ∧ answer = .success ((c.updateRounds t e fields).any id)
  | .remove t fields _ => d = c.remove t fields ∧ answer = .done
  | .find t fields _ => d = c ∧ answer = .entry ((c.range t fields).head?.map Node.element)
  | .retrieve t fields entries _ =>
      d = c ∧ answer = .entries (!(entries ++ (c.range t fields).map Node.element).isEmpty)
        (entries ++ (c.range t fields).map Node.element)
  | .retrieveRaw t fields _ => d = c ∧ answer = .iterators (c.equalRange t fields)
  | .retrieveAll entries =>
      d = c ∧ answer = .entries (!(entries ++ c.entries.map Node.element).isEmpty)
        (entries ++ c.entries.map Node.element)

/-- The call stays within the mapping of its process, and works on the contents that the last
    writer left. -/
def Served (a : Nat × Call α φ Tag) : Prop :=
  ∃ t answer, perform memorySize s a.1 a.2 = .ok (t, answer) ∧
    a.2.Meets s.index t.index answer

/-- The process sees the nodes. -/
def Sees (ids : List Nat) : Prop := ∀ i ∈ ids, s.ends i < s.mapped p

/-- The nodes that a call reaches. -/
def reached : Call α φ Tag → List Nat
  | .construct | .insert _ _ _ _ => []
  | .clear | .retrieveAll _ => s.index.entries.map Node.id
  | .update t _ fields path _ | .remove t fields path | .retrieve t fields _ path =>
      passed s path ++ rangeIds s t fields
  | .find t fields path => passed s path ++ (rangeIds s t fields).take 1
  | .retrieveRaw _ _ path => passed s path

/-- The process sees what its call reaches, and where an update puts its item. -/
def Covered (a : Nat × Call α φ Tag) : Prop :=
  Sees s a.1 (reached s a.2) ∧
    match a.2 with
    | .update t e fields _ places =>
        ∀ n < (s.index.updateRounds t e fields).length, places n < s.mapped a.1
    | _ => True

/-- Every node is stored within the segment, and nobody maps more of it than there is. -/
structure Sound : Prop where
  within : ∀ n ∈ s.index.entries, s.ends n.id < s.length
  mapped : ∀ p, s.mapped p ≤ s.length

section Accesses

variable {memorySize s p} {ids : List Nat} {call : Call α φ Tag}

instance (s : SharedSegment key part) (p : Nat) (ids : List Nat) : Decidable (Sees s p ids) :=
  inferInstanceAs (Decidable (∀ i ∈ ids, s.ends i < s.mapped p))

omit [DecidableEq κ] in
theorem touchAll_eq (s : SharedSegment key part) (p : Nat) (ids : List Nat) :
    touchAll s p ids = if Sees s p ids then .ok () else .error .undefined := by
  induction ids with
  | nil => exact (if_pos nofun).symm
  | cons i ids ih =>
      have first : touchAll s p (i :: ids) = touch s p i >>= fun _ => touchAll s p ids :=
        List.forM_cons ..
      have both : Sees s p (i :: ids) ↔ s.ends i < s.mapped p ∧ Sees s p ids :=
        List.forall_mem_cons
      rw [first, touch, ih]
      by_cases here : s.ends i < s.mapped p
      · simp only [here, both, if_true, true_and]
        rfl
      · simp only [here, both, if_false, false_and]
        rfl

omit [DecidableEq κ] in
theorem touchAll_bind {β : Type} (rest : Except Fault β) :
    (touchAll s p ids >>= fun _ => rest) =
      if Sees s p ids then rest else .error .undefined := by
  rw [touchAll_eq]
  split <;> rfl

omit [DecidableEq κ] in
theorem touchAll_append {β : Type} {ids' : List Nat} (rest : Except Fault β) :
    (touchAll s p ids >>= fun _ => touchAll s p ids' >>= fun _ => rest) =
      if Sees s p (ids ++ ids') then rest else .error .undefined := by
  have both : Sees s p (ids ++ ids') ↔ Sees s p ids ∧ Sees s p ids' := List.forall_mem_append
  rw [touchAll_bind, touchAll_bind, if_congr both rfl rfl, ite_and]

omit [DecidableEq κ] in
theorem Sound.sees (sound : Sound s) (whole : s.mapped p = s.length)
    (inside : ∀ i ∈ ids, ∃ n ∈ s.index.entries, n.id = i) : Sees s p ids := by
  intro i reached
  obtain ⟨n, there, rfl⟩ := inside i reached
  rw [whole]
  exact sound.within n there

omit [DecidableEq κ] in
theorem mem_passed {path : List Nat} {i : Nat} (passes : i ∈ passed s path) :
    ∃ n ∈ s.index.entries, n.id = i :=
  List.mem_map.mp (of_decide_eq_true (List.mem_filter.mp passes).2)

omit [DecidableEq κ] in
theorem mem_rangeIds {t : Tag} {fields : List φ} {i : Nat} (inside : i ∈ rangeIds s t fields) :
    ∃ n ∈ s.index.entries, n.id = i := by
  obtain ⟨n, there, rfl⟩ := List.mem_map.mp inside
  have viewed := (List.takeWhile_prefix _).sublist.subset there
  exact ⟨n, (NodeIndex.mem_view t).mp ((List.dropWhile_suffix _).sublist.subset viewed), rfl⟩

omit [DecidableEq κ] in
theorem Sound.attach (sound : Sound s) (p : Nat) : Sound (attach s p) where
  within := sound.within
  mapped q := by
    by_cases same : q = p
    · rw [same]
      exact le_of_eq (Function.update_self ..)
    · exact le_of_eq_of_le (Function.update_of_ne same ..) (sound.mapped q)

omit [DecidableEq κ] in
theorem Sound.grow (sound : Sound s) (memorySize p : Nat) : Sound (growMemory memorySize s p) := by
  apply Sound.attach
  constructor
  · intro n inside
    exact Nat.lt_add_right memorySize (sound.within n inside)
  · intro q
    exact Nat.le_add_right_of_le (sound.mapped q)

omit [DecidableEq κ] in
/-- Nodes that were there before, at their places or at a new one within the segment. -/
theorem Sound.placed (sound : Sound s) {index : NodeIndex key part} {i place : Nat}
    (fits : place < s.length)
    (known : ∀ n ∈ index.entries, n.id = i ∨ ∃ m ∈ s.index.entries, m.id = n.id) :
    Sound { s with index, ends := Function.update s.ends i place } where
  within n inside := by
    change Function.update s.ends i place n.id < s.length
    by_cases same : n.id = i
    · rw [same, Function.update_self]
      exact fits
    · obtain new | ⟨m, old, there⟩ := known n inside
      · exact absurd new same
      · rw [Function.update_of_ne same, ← there]
        exact sound.within m old
  mapped := sound.mapped

end Accesses

section Insertions

variable {memorySize s p} {e : α} {path : List Nat} {place grown : Nat}

/-- What an insertion leaves if its storage ends at `place`. -/
def inserted (s : SharedSegment key part) (p : Nat) (e : α) (place : Nat) :
    SharedSegment key part :=
  { attach s p with
    index := s.index.insert e
    ends := Function.update s.ends s.index.fresh place }

theorem Sound.inserted (sound : Sound s) (p : Nat) (e : α) (fits : place < s.length) :
    Sound (inserted s p e place) := by
  apply (sound.attach p).placed fits
  intro n inside
  rcases NodeIndex.write_entries s.index (.insert e : IndexWrite α φ Tag) n inside with
    old | ⟨new, -⟩
  · exact .inr old
  · exact .inl new

/-- An insertion attaches first, so it sees the whole segment. -/
theorem insertData_eq (sound : Sound s) :
    insertData s p e path place =
      if place < s.length then
        .ok (inserted s p e place, .success (decide ¬ s.index.nodes.hasKey (key e)))
      else .error .badAlloc := by
  have whole : (attach s p).mapped p = s.length := Function.update_self ..
  have sees : Sees (attach s p) p (passed (attach s p) path) :=
    (sound.attach p).sees whole fun i passes => mem_passed passes
  unfold insertData
  by_cases fits : place < s.length
  · have here : place < (attach s p).mapped p := whole ▸ fits
    rw [if_pos fits]
    simp only [show place < (attach s p).length from fits, here, if_true, touchAll_eq, sees]
    rfl
  · rw [if_neg fits]
    exact if_neg fits

theorem insert_spec (sound : Sound s) : ∃ t answer,
    insert memorySize s p e path place grown = .ok (t, answer) ∧ Sound t ∧
      (.insert e path place grown : Call α φ Tag).Meets s.index t.index answer := by
  unfold insert
  rw [insertData_eq sound]
  by_cases fits : place < s.length
  · rw [if_pos fits]
    exact ⟨_, _, rfl, sound.inserted p e fits, .inl ⟨rfl, rfl⟩⟩
  · have larger := (sound.attach p).grow memorySize p
    rw [if_neg fits]
    simp only [insertData_eq larger]
    by_cases room : grown < (growMemory memorySize (attach s p) p).length
    · rw [if_pos room]
      exact ⟨_, _, rfl, larger.inserted p e room, .inl ⟨rfl, rfl⟩⟩
    · rw [if_neg room]
      exact ⟨_, _, rfl, larger.attach p, .inr ⟨rfl, rfl⟩⟩

end Insertions

section Updates

variable {s p} {t : Tag} {e : α} {i n place fuel : Nat} {first last : Option Nat}
  {rest : List (Node α)} {places : Nat → Nat} {success : Bool}

/-- What a round leaves if the item's storage ends at `place`. -/
def modified (s : SharedSegment key part) (t : Tag) (e : α) (i place : Nat) :
    SharedSegment key part :=
  { s with
    index := s.index.modify t i e
    ends := Function.update s.ends i (max (s.ends i) place) }

theorem updateOne_eq (sound : Sound s) :
    updateOne s p t e i place =
      if place < s.mapped p then .ok (modified s t e i place, s.index.modifies t i e)
      else .error .undefined := by
  unfold updateOne
  by_cases here : place < s.mapped p
  · have fits : place < s.length := lt_of_lt_of_le here (sound.mapped p)
    rw [if_pos here, if_pos fits, if_pos here]
    rfl
  · rw [if_neg here, if_neg here]
    split <;> rfl

theorem Sound.modified (sound : Sound s) (fits : place < s.length) (there : s.ends i < s.length)
    (t : Tag) (e : α) : Sound (modified s t e i place) := by
  apply sound.placed (max_lt there fits)
  intro n inside
  exact .inr (NodeIndex.modify_entries s.index t i e n inside)

/-- The process sees where the rounds from the `n`-th on put the item. -/
def Places (m : Nat) (places : Nat → Nat) (n : Nat) (rounds : List Bool) : Prop :=
  ∀ i < rounds.length, places (n + i) < m

theorem places_nil {m : Nat} : Places m places n [] := by
  intro i none
  exact absurd none (Nat.not_lt_zero i)

theorem places_cons {m : Nat} {b : Bool} {rounds : List Bool} :
    Places m places n (b :: rounds) ↔ places n < m ∧ Places m places (n + 1) rounds := by
  rw [Places, List.length_cons, Nat.forall_lt_succ_left]
  refine and_congr Iff.rfl ?_
  simp only [Places, Nat.add_assoc, Nat.add_comm 1]

theorem updateLoop_done (done : first = last) :
    updateLoop p t e last places fuel n s first success = .ok (s, success) := by
  cases fuel <;> exact if_pos done

theorem updateLoop_round (sound : Sound s) (more : some i ≠ last) :
    updateLoop p t e last places (fuel + 1) n s (some i) success =
      if places n < s.mapped p then
        updateLoop p t e last places fuel (n + 1) (modified s t e i (places n)) (s.index.next t i)
          (success || s.index.modifies t i e)
      else .error .undefined := by
  have round : updateLoop p t e last places (fuel + 1) n s (some i) success =
      updateOne s p t e i (places n) >>= fun r =>
        updateLoop p t e last places fuel (n + 1) r.1 (s.index.next t i) (success || r.2) :=
    if_neg more
  rw [round, updateOne_eq sound]
  split <;> rfl

/-- The loop goes on to the end exactly if the process sees where it puts the item. -/
theorem updateLoop_cases (p n : Nat) (places : Nat → Nat) (success : Bool) (sound : Sound s)
    (ahead : s.index.Ahead t first last rest)
    (enough : NodeIndex.visits key e rest ≤ fuel) :
    (Places (s.mapped p) places n (NodeIndex.rounds t e last fuel s.index first) ∧
      ∃ u, updateLoop p t e last places fuel n s first success = .ok
          (u, success || (NodeIndex.rounds t e last fuel s.index first).any id) ∧ Sound u ∧
        u.index = NodeIndex.updateLoop t e last fuel s.index first) ∨
    (¬ Places (s.mapped p) places n (NodeIndex.rounds t e last fuel s.index first) ∧
      updateLoop p t e last places fuel n s first success = .error .undefined) := by
  induction fuel generalizing s first rest n success with
  | zero =>
      cases rest with
      | nil =>
          refine .inl ⟨places_nil, s, ?_, sound, rfl⟩
          rw [updateLoop_done (ahead.done_iff.mpr rfl), NodeIndex.rounds, List.any_nil,
            Bool.or_false]
      | cons x rest =>
          rw [NodeIndex.visits_cons] at enough
          split at enough <;> omega
  | succ fuel ih =>
      cases rest with
      | nil =>
          have done := ahead.done_iff.mpr rfl
          rw [NodeIndex.rounds_done done, NodeIndex.updateLoop_done done, updateLoop_done done,
            List.any_nil, Bool.or_false]
          exact .inl ⟨places_nil, s, rfl, sound, rfl⟩
      | cons x rest =>
          have more := mt ahead.done_iff.mp (List.cons_ne_nil x rest)
          obtain ⟨here, found, -⟩ := ahead.head
          obtain ⟨rest', ahead', fewer⟩ := ahead.modify e
          have there : s.ends x.id < s.length :=
            sound.within x ((NodeIndex.mem_view t).mp (List.mem_of_find?_eq_some found))
          subst here
          rw [NodeIndex.rounds_more more, NodeIndex.updateLoop_more more,
            updateLoop_round sound more]
          simp only [places_cons, List.any_cons, id]
          by_cases sees : places n < s.mapped p
          · rw [if_pos sees, and_iff_right sees, ← Bool.or_assoc]
            have fits := lt_of_lt_of_le sees (sound.mapped p)
            exact ih _ _ (sound.modified fits there t e) ahead' (by omega)
          · rw [if_neg sees]
            exact .inr ⟨fun both => sees both.1, rfl⟩

end Updates

section Calls

variable {memorySize s p} {call : Call α φ Tag}

/-- What a call does: it is covered and meets what it is for, or it leaves its mapping. -/
def Outcome (memorySize : Nat) (s : SharedSegment key part) (p : Nat) (call : Call α φ Tag) :
    Prop :=
  (Covered s (p, call) ∧ ∃ t answer, perform memorySize s p call = .ok (t, answer) ∧ Sound t ∧
    call.Meets s.index t.index answer) ∨
  (¬ Covered s (p, call) ∧ perform memorySize s p call = .error .undefined)

theorem outcome_of_eq {x : SharedSegment key part × Answer α}
    (covered : Covered s (p, call) ↔ Sees s p (reached s call))
    (run : perform memorySize s p call =
      if Sees s p (reached s call) then .ok x else .error .undefined)
    (sound : Sound x.1) (meets : call.Meets s.index x.1.index x.2) :
    Outcome memorySize s p call := by
  rw [Outcome, covered, run]
  by_cases sees : Sees s p (reached s call)
  · rw [if_pos sees]
    exact .inl ⟨sees, _, _, rfl, sound, meets⟩
  · rw [if_neg sees]
    exact .inr ⟨sees, rfl⟩

omit [DecidableEq κ] in
theorem Sound.sub (sound : Sound s) {index : NodeIndex key part}
    (sub : ∀ n ∈ index.entries, n ∈ s.index.entries) : Sound { s with index } :=
  ⟨fun n inside => sound.within n (sub n inside), sound.mapped⟩

theorem update_outcome (sound : Sound s) (t : Tag) (e : α) (fields : List φ) (path : List Nat)
    (places : Nat → Nat) : Outcome memorySize s p (.update t e fields path places) := by
  have enough : NodeIndex.visits key e (s.index.range t fields) ≤
      2 * (s.index.view t).length + 1 := by
    have some : NodeIndex.visits key e (s.index.range t fields) ≤ _ := NodeIndex.visits_le e _
    have inside : (s.index.range t fields).length ≤ (s.index.view t).length :=
      (List.takeWhile_prefix _).length_le.trans (List.dropWhile_suffix _).length_le
    omega
  have loop := updateLoop_cases p 0 places false sound (s.index.ahead_range t fields) enough
  have run : perform memorySize s p (.update t e fields path places) =
      if Sees s p (reached s (.update t e fields path places)) then
        updateLoop p t e (s.index.equalRange t fields).2 places
          (2 * (s.index.view t).length + 1) 0 s (s.index.equalRange t fields).1 false >>= fun r =>
            .ok (r.1, .success r.2)
      else .error .undefined := touchAll_append _
  have covered : Covered s (p, .update t e fields path places) ↔
      Sees s p (reached s (.update t e fields path places)) ∧
        Places (s.mapped p) places 0 (s.index.updateRounds t e fields) := by
    simp only [Covered, Places, Nat.zero_add]
  rw [Outcome, covered, run]
  by_cases sees : Sees s p (reached s (.update t e fields path places))
  · rw [if_pos sees, and_iff_right sees]
    rcases loop with ⟨fits, u, ran, sound', left⟩ | ⟨outside, ran⟩
    · rw [ran]
      exact .inl ⟨fits, u, _, rfl, sound', left, rfl⟩
    · rw [ran]
      exact .inr ⟨outside, rfl⟩
  · rw [if_neg sees]
    exact .inr ⟨fun both => sees both.1, rfl⟩

theorem outcome (sound : Sound s) (p : Nat) (call : Call α φ Tag) :
    Outcome memorySize s p call := by
  cases call with
  | construct =>
      exact .inl ⟨⟨nofun, trivial⟩, _, _, rfl, sound.attach p, rfl, rfl⟩
  | insert e path place grown =>
      exact .inl ⟨⟨nofun, trivial⟩, insert_spec sound⟩
  | update t e fields path places => exact update_outcome sound t e fields path places
  | clear =>
      exact outcome_of_eq (and_iff_left trivial) (touchAll_bind _) (sound.sub nofun) ⟨rfl, rfl⟩
  | remove t fields path =>
      have sub : Sound { s with index := s.index.remove t fields } :=
        sound.sub fun n kept => (List.mem_filter.mp kept).1
      exact outcome_of_eq (x := (_, .done)) (and_iff_left trivial) (touchAll_append _) sub
        ⟨rfl, rfl⟩
  | find t fields path =>
      exact outcome_of_eq (and_iff_left trivial) (touchAll_append _) sound ⟨rfl, rfl⟩
  | retrieve t fields entries path =>
      exact outcome_of_eq (and_iff_left trivial) (touchAll_append _) sound ⟨rfl, rfl⟩
  | retrieveRaw t fields path =>
      exact outcome_of_eq (and_iff_left trivial) (touchAll_bind _) sound ⟨rfl, rfl⟩
  | retrieveAll entries =>
      exact outcome_of_eq (and_iff_left trivial) (touchAll_bind _) sound ⟨rfl, rfl⟩

theorem served_iff_covered (sound : Sound s) (a : Nat × Call α φ Tag) :
    Served memorySize s a ↔ Covered s a := by
  rcases (outcome sound a.1 a.2 : Outcome memorySize s a.1 a.2) with
    ⟨covered, t, answer, ran, -, meets⟩ | ⟨uncovered, ran⟩
  · exact iff_of_true ⟨t, answer, ran, meets⟩ covered
  · refine iff_of_false ?_ uncovered
    rintro ⟨t, answer, ran', -⟩
    rw [ran] at ran'
    cases ran'

theorem step_sound {t : SharedSegment key part} (a : Nat × Call α φ Tag) (sound : Sound s)
    (taken : step memorySize s a = some t) : Sound t := by
  rw [step] at taken
  rcases (outcome sound a.1 a.2 : Outcome memorySize s a.1 a.2) with
    ⟨-, u, answer, ran, sound', -⟩ | ⟨-, ran⟩
  · rw [ran] at taken
    cases taken
    exact sound'
  · rw [ran] at taken
    cases taken

omit [DecidableEq κ] in
theorem start_sound (memorySize : Nat) : Sound (start memorySize : SharedSegment key part) :=
  ⟨nofun, fun _ => le_refl _⟩

omit [DecidableEq κ] in
theorem sees_of_whole (sound : Sound s) (whole : s.mapped p = s.length) (call : Call α φ Tag) :
    Sees s p (reached s call) := by
  apply sound.sees whole
  intro i inside
  cases call with
  | construct => cases inside
  | insert e path place grown => cases inside
  | clear => exact List.mem_map.mp inside
  | retrieveAll entries => exact List.mem_map.mp inside
  | retrieveRaw t fields path => exact mem_passed inside
  | find t fields path =>
      rcases List.mem_append.mp inside with passes | ranged
      · exact mem_passed passes
      · exact mem_rangeIds (List.mem_of_mem_take ranged)
  | update t e fields path places =>
      exact (List.mem_append.mp inside).elim mem_passed mem_rangeIds
  | remove t fields path => exact (List.mem_append.mp inside).elim mem_passed mem_rangeIds
  | retrieve t fields entries path =>
      exact (List.mem_append.mp inside).elim mem_passed mem_rangeIds

/-- A process that maps all of the segment is served, unless an update runs out of memory. -/
theorem served_of_whole (sound : Sound s) (whole : s.mapped p = s.length) (call : Call α φ Tag)
    (fits : ∀ t e fields path places, call = .update t e fields path places →
      Places s.length places 0 (s.index.updateRounds t e fields)) :
    Served memorySize s (p, call) := by
  apply (served_iff_covered sound _).mpr
  refine ⟨sees_of_whole sound whole call, ?_⟩
  cases call with
  | update t e fields path places =>
      intro n inside
      have here := fits t e fields path places rfl n inside
      rwa [Nat.zero_add, ← whole] at here
  | _ => trivial

end Calls

section Runs

/-- Every call of a run is served, whichever processes make them. -/
def AllServed (memorySize : Nat) (s : SharedSegment key part)
    (actions : List (Nat × Call α φ Tag)) : Prop :=
  Transition.Along (step memorySize) (Served memorySize) s actions

def AllCovered (memorySize : Nat) (s : SharedSegment key part)
    (actions : List (Nat × Call α φ Tag)) : Prop :=
  Transition.Along (step memorySize) Covered s actions

/-- Every call is served exactly if each process sees, of what the others stored, what its
    calls reach. -/
theorem processes_served_iff (memorySize : Nat) (actions : List (Nat × Call α φ Tag)) :
    AllServed memorySize (start memorySize : SharedSegment key part) actions ↔
      AllCovered memorySize (start memorySize : SharedSegment key part) actions := by
  apply Transition.along_congr Sound
  · exact fun s a sound => served_iff_covered sound a
  · exact fun s a t sound taken => step_sound a sound taken
  · exact start_sound memorySize

abbrev CampaignSegment : Type :=
  SharedSegment (Entity.key : Entity UInt32 Unit → UInt32) campaignPart

/-- The second entry is stored behind what the other process maps. -/
def outgrown : List (Nat × Call (Entity UInt32 Unit) Nat Unit) :=
  [(0, .insert ⟨1, ()⟩ [] 67108000 0), (0, .insert ⟨2, ()⟩ [0] 67108864 67109000),
    (1, .retrieve () [2] [] [])]

/-- One process makes the segment longer, and another one looks for what was stored there. -/
theorem outgrown_mapping : ¬ ∀ actions : List (Nat × Call (Entity UInt32 Unit) Nat Unit),
    AllServed 67108864 (start 67108864 : CampaignSegment) actions := by
  intro served
  obtain ⟨t, answer, ran, -⟩ := (((served outgrown).2 _ rfl).2 _ rfl).1
  have outside : (Except.ok (t, answer) : Except Fault _) = .error .undefined := ran.symm.trans rfl
  cases outside

end Runs

end SharedSegment

end VanillaRtb.Datacache
