import VanillaRtb.Lib.MultiIndex
import VanillaRtb.Lib.Transition

/-! # Iterators into an index that others change

The elements of an ordered unique index live in nodes of their own. An iterator names a
node, not a key or a position: it is good for as long as the node is in the index, and goes
wherever the node goes. A reader takes the range of some fields and walks it one iterator
step at a time, and writers may come in between any two of its steps.
-/

namespace VanillaRtb.Lib

structure Node (α : Type) where
  id : Nat
  element : α

variable {α κ φ Tag R : Type} [LinearOrder φ] [DecidableEq κ] [Inhabited Tag] {key : α → κ}
  {part : Tag → κ → List φ}

/-- The nodes by the keys of their elements; ids are given out once. -/
structure NodeIndex (key : α → κ) (part : Tag → κ → List φ) where
  nodes : MultiIndex (fun n : Node α => key n.element) part
  fresh : Nat
  ids : UniqueBy Node.id nodes.entries
  below : ∀ n ∈ nodes.entries, n.id < fresh

namespace NodeIndex

def view (c : NodeIndex key part) (t : Tag) : List (Node α) := c.nodes.view t

/-- All nodes, in no order to speak of. -/
def entries (c : NodeIndex key part) : List (Node α) := c.nodes.entries

def leading (key : α → κ) (part : Tag → κ → List φ) (t : Tag) (fields : List φ) (n : Node α) :
    List φ :=
  (part t (key n.element)).take fields.length

/-- The nodes that begin with the fields. -/
def range (c : NodeIndex key part) (t : Tag) (fields : List φ) : List (Node α) :=
  rangeOf (leading key part t fields) fields (c.view t)

/-- The iterator to the first of some nodes. -/
def iteratorTo (xs : List (Node α)) : Option Nat := MultiIndex.iteratorTo Node.id xs

def equalRange (c : NodeIndex key part) (t : Tag) (fields : List φ) : Option Nat × Option Nat :=
  (iteratorTo (fromLower (leading key part t fields) fields (c.view t)),
    iteratorTo (fromUpper (leading key part t fields) fields (c.view t)))

/-- The node of an iterator, if it is in the index. -/
def node (c : NodeIndex key part) (t : Tag) (i : Nat) : Option (Node α) :=
  (c.view t).find? fun n => n.id = i

/-- `++` of an iterator. -/
def next (c : NodeIndex key part) (t : Tag) (i : Nat) : Option Nat :=
  iteratorTo (behindOf Node.id i (c.view t))

omit [DecidableEq κ] in
theorem view_ids (c : NodeIndex key part) (t : Tag) : UniqueBy Node.id (c.view t) :=
  ((c.nodes.view_perm t).map Node.id).nodup_iff.mpr c.ids

omit [DecidableEq κ] in
theorem mem_view {c : NodeIndex key part} {n : Node α} (t : Tag) : n ∈ c.view t ↔ n ∈ c.entries :=
  (c.nodes.view_perm t).mem_iff

section Walk

/-- `rest` is what a walk from one iterator to the other has ahead of it. -/
def Ahead (c : NodeIndex key part) (t : Tag) (first last : Option Nat) (rest : List (Node α)) :
    Prop :=
  ∃ before behind, c.view t = before ++ (rest ++ behind) ∧ first = iteratorTo (rest ++ behind) ∧
    last = iteratorTo behind

variable {c : NodeIndex key part} {t : Tag} {first last : Option Nat} {rest : List (Node α)}
  {x : Node α}

omit [DecidableEq κ] in
theorem ahead_range (c : NodeIndex key part) (t : Tag) (fields : List φ) :
    Ahead c t (c.equalRange t fields).1 (c.equalRange t fields).2 (c.range t fields) := by
  obtain ⟨before, split⟩ := exists_append_fromLower (leading key part t fields) fields (c.view t)
  refine ⟨before, fromUpper (leading key part t fields) fields (c.view t), ?_, ?_, rfl⟩
  · rw [range, ← fromLower_eq, split]
  · rw [range, ← fromLower_eq]
    rfl

omit [DecidableEq κ] in
theorem Ahead.done_iff (ahead : Ahead c t first last rest) : first = last ↔ rest = [] := by
  obtain ⟨before, behind, split, rfl, rfl⟩ := ahead
  constructor
  · intro same
    cases rest with
    | nil => rfl
    | cons x rest =>
        have unique := c.view_ids t
        rw [split] at unique
        have here : some x.id = iteratorTo behind := same
        cases behind with
        | nil => cases here
        | cons y behind =>
            have apart : y.id ≠ x.id := by
              apply UniqueBy.append_cons unique
              simp
            exact absurd (Option.some.inj here).symm apart
  · rintro rfl
    rfl

omit [DecidableEq κ] in
theorem Ahead.head (ahead : Ahead c t first last (x :: rest)) :
    first = some x.id ∧ c.node t x.id = some x ∧ Ahead c t (c.next t x.id) last rest := by
  obtain ⟨before, behind, split, rfl, rfl⟩ := ahead
  have unique := c.view_ids t
  rw [List.cons_append] at split
  rw [split] at unique
  refine ⟨rfl, ?_, before ++ [x], behind, by simp [split], ?_, rfl⟩
  · have others := UniqueBy.append_cons unique
    rw [node, split, List.find?_append, List.find?_eq_none.mpr, Option.none_or,
      List.find?_cons_of_pos (by simp)]
    intro n inside
    simpa using others n (List.mem_append_left _ inside)
  · rw [next, split, behindOf_append_cons unique]

end Walk

section Writes

variable {x : Node α}

def empty : NodeIndex key part where
  nodes := MultiIndex.empty
  fresh := 0
  ids := List.nodup_nil
  below := by simp [MultiIndex.empty, MultiIndex.entries]

def clear (c : NodeIndex key part) : NodeIndex key part where
  nodes := MultiIndex.empty
  fresh := c.fresh
  ids := List.nodup_nil
  below := by simp [MultiIndex.empty, MultiIndex.entries]

/-- A new node, unless its key is taken. -/
def insert (c : NodeIndex key part) (e : α) : NodeIndex key part where
  nodes := (c.nodes.insert ⟨c.fresh, e⟩).1
  fresh := c.fresh + 1
  ids := by
    by_cases taken : c.nodes.hasKey (key e)
    · rw [MultiIndex.insert_taken taken]
      exact c.ids
    · apply ((MultiIndex.insert_entries taken).map Node.id).nodup_iff.mpr
      refine List.nodup_cons.mpr ⟨?_, c.ids⟩
      intro there
      obtain ⟨n, inside, same⟩ := List.mem_map.mp there
      exact absurd same (Nat.ne_of_lt (c.below n inside))
  below := by
    intro n inside
    by_cases taken : c.nodes.hasKey (key e)
    · rw [MultiIndex.insert_taken taken] at inside
      exact Nat.lt_succ_of_lt (c.below n inside)
    · rcases List.mem_cons.mp ((MultiIndex.insert_entries taken).mem_iff.mp inside) with rfl | old
      · exact Nat.lt_succ_self _
      · exact Nat.lt_succ_of_lt (c.below n old)

/-- `erase` of the range of some fields. -/
def remove (c : NodeIndex key part) (t : Tag) (fields : List φ) : NodeIndex key part where
  nodes := c.nodes.eraseRange t fields
  fresh := c.fresh
  ids := c.ids.sublist (List.filter_sublist.map Node.id)
  below n inside := c.below n (List.mem_filter.mp inside).1

theorem modify_ids (c : NodeIndex key part) (inside : x ∈ c.entries) (e : α) :
    ∃ kept : List (Node α), kept.Sublist c.entries ∧
      ((c.nodes.modify (key x.element) ⟨x.id, e⟩).1.entries.map Node.id).Perm
        (kept.map Node.id) := by
  obtain ⟨before, after, split⟩ := List.append_of_mem inside
  change c.nodes.view default = _ at split
  rcases MultiIndex.modify_cases (x := x) split ⟨x.id, e⟩ with
    ⟨-, -, gone⟩ | ⟨-, -, l, r, same, moved, -⟩
  · refine ⟨before ++ after, ?_, by rw [MultiIndex.entries, gone]⟩
    rw [entries, MultiIndex.entries, split]
    exact (List.sublist_cons_self x after).append_left before
  · refine ⟨c.entries, List.Sublist.refl _, ?_⟩
    rw [entries, MultiIndex.entries, MultiIndex.entries, moved, split]
    have left : (l ++ ⟨x.id, e⟩ :: r).Perm (⟨x.id, e⟩ :: (before ++ after)) :=
      same ▸ List.perm_middle
    have right : (before ++ x :: after).Perm (x :: (before ++ after)) := List.perm_middle
    exact (left.map Node.id).trans (right.map Node.id).symm

theorem modify_known (c : NodeIndex key part) (inside : x ∈ c.entries) (e : α) :
    ∀ n ∈ (c.nodes.modify (key x.element) ⟨x.id, e⟩).1.entries, ∃ m ∈ c.entries, m.id = n.id := by
  obtain ⟨kept, sub, perm⟩ := c.modify_ids inside e
  intro n there
  obtain ⟨m, old, same⟩ :=
    List.mem_map.mp (perm.mem_iff.mp (List.mem_map_of_mem (f := Node.id) there))
  exact ⟨m, sub.subset old, same⟩

/-- `modify` of one node, which keeps its id. -/
def modifyNode (c : NodeIndex key part) (x : Node α) (inside : x ∈ c.entries) (e : α) :
    NodeIndex key part where
  nodes := (c.nodes.modify (key x.element) ⟨x.id, e⟩).1
  fresh := c.fresh
  ids := by
    obtain ⟨kept, sub, perm⟩ := c.modify_ids inside e
    exact perm.nodup_iff.mpr (c.ids.sublist (sub.map Node.id))
  below := by
    intro n there
    obtain ⟨m, old, same⟩ := c.modify_known inside e n there
    exact same ▸ c.below m old

def modify (c : NodeIndex key part) (t : Tag) (i : Nat) (e : α) : NodeIndex key part :=
  match found : c.node t i with
  | some x => c.modifyNode x ((mem_view t).mp (List.mem_of_find?_eq_some found)) e
  | none => c

/-- What `modify` returns. -/
def modifies (c : NodeIndex key part) (t : Tag) (i : Nat) (e : α) : Bool :=
  match c.node t i with
  | some x => (c.nodes.modify (key x.element) ⟨x.id, e⟩).2
  | none => false

/-- The loop of `update`, whose iterators are advanced before the node is modified. -/
def updateLoop (t : Tag) (e : α) (last : Option Nat) :
    Nat → NodeIndex key part → Option Nat → NodeIndex key part
  | 0, c, _ => c
  | fuel + 1, c, first =>
      if first = last then c
      else
        match first with
        | some i => updateLoop t e last fuel (c.modify t i e) (c.next t i)
        | none => c

def update (c : NodeIndex key part) (t : Tag) (e : α) (fields : List φ) : NodeIndex key part :=
  updateLoop t e (c.equalRange t fields).2 (2 * (c.view t).length + 1) c (c.equalRange t fields).1

end Writes

section Rounds

variable {c : NodeIndex key part} {t : Tag} {first last : Option Nat} {rest : List (Node α)}
  {x : Node α}

/-- A node that has the new key already is visited once, any other perhaps twice: as it was, and
    as what it was changed into. -/
def visits (key : α → κ) (e : α) (ahead : List (Node α)) : Nat :=
  (ahead.map fun n => if key n.element = key e then 1 else 2).sum

theorem visits_cons (e : α) (n : Node α) (ahead : List (Node α)) :
    visits key e (n :: ahead) = (if key n.element = key e then 1 else 2) + visits key e ahead := by
  rw [visits, List.map_cons, List.sum_cons, visits]

theorem visits_perm {xs ys : List (Node α)} (same : xs.Perm ys) (e : α) :
    visits key e xs = visits key e ys := (same.map _).sum_eq

theorem visits_le (e : α) (ahead : List (Node α)) : visits key e ahead ≤ 2 * ahead.length := by
  induction ahead with
  | nil => exact Nat.le_refl 0
  | cons n ahead ih =>
      rw [visits_cons, List.length_cons]
      split <;> omega

theorem modify_of_node (found : c.node t x.id = some x) (e : α) :
    (c.modify t x.id e).nodes = (c.nodes.modify (key x.element) ⟨x.id, e⟩).1 := by
  unfold modify
  split
  · rename_i y there
    obtain rfl := Option.some.inj (there.symm.trans found)
    rfl
  · rename_i none
    rw [found] at none
    cases none

/-- The iterators of the loop stay good over a round, which leaves fewer visits to make. -/
theorem Ahead.modify (ahead : Ahead c t first last (x :: rest)) (e : α) :
    ∃ rest', Ahead (c.modify t x.id e) t (c.next t x.id) last rest' ∧
      visits key e rest' < visits key e (x :: rest) := by
  have found := ahead.head.2.1
  obtain ⟨before, behind, split, rfl, rfl⟩ := ahead
  rw [List.cons_append] at split
  have unique := c.view_ids t
  rw [split] at unique
  have next : c.next t x.id = iteratorTo (rest ++ behind) := by
    rw [NodeIndex.next, split, behindOf_append_cons unique]
  have fewer : visits key e rest < visits key e (x :: rest) := by
    rw [visits_cons]
    split <;> omega
  rw [next]
  rcases MultiIndex.modify_cases (x := x) split ⟨x.id, e⟩ with
    ⟨-, -, gone⟩ | ⟨-, -, l, r, same, moved, stays⟩
  · refine ⟨rest, ⟨before, behind, ?_, rfl, rfl⟩, fewer⟩
    rw [view, modify_of_node found, gone]
  by_cases here : key e = key x.element
  · obtain rfl := stays here
    obtain rfl := List.append_cancel_left same
    refine ⟨rest, ⟨l ++ [⟨x.id, e⟩], behind, ?_, rfl, rfl⟩, fewer⟩
    rw [view, modify_of_node found, moved, List.append_assoc, List.singleton_append]
  · obtain ⟨before', rest', behind', parts, first, last, whereTo⟩ :=
      MultiIndex.split_insert same (⟨x.id, e⟩ : Node α)
    refine ⟨rest', ⟨before', behind', ?_, ?_, ?_⟩, ?_⟩
    · rw [view, modify_of_node found, moved, parts]
    · rw [iteratorTo, iteratorTo, MultiIndex.iteratorTo, MultiIndex.iteratorTo, first]
    · rw [iteratorTo, iteratorTo, MultiIndex.iteratorTo, MultiIndex.iteratorTo, last]
    · rcases whereTo with rfl | ⟨-, more⟩
      · exact fewer
      · rw [visits_perm more, visits_cons, visits_cons, if_pos rfl, if_neg (Ne.symm here)]
        omega

/-- What the rounds of the loop of `update` return. -/
def rounds (t : Tag) (e : α) (last : Option Nat) :
    Nat → NodeIndex key part → Option Nat → List Bool
  | 0, _, _ => []
  | fuel + 1, c, first =>
      if first = last then []
      else
        match first with
        | some i => c.modifies t i e :: rounds t e last fuel (c.modify t i e) (c.next t i)
        | none => []

section Loop

variable {i fuel : Nat} {e : α}

theorem updateLoop_done (done : first = last) : updateLoop t e last fuel c first = c := by
  cases fuel with
  | zero => rfl
  | succ fuel => exact if_pos done

theorem updateLoop_more (more : some i ≠ last) :
    updateLoop t e last (fuel + 1) c (some i) =
      updateLoop t e last fuel (c.modify t i e) (c.next t i) := if_neg more

theorem rounds_done (done : first = last) : rounds t e last fuel c first = [] := by
  cases fuel with
  | zero => rfl
  | succ fuel => exact if_pos done

theorem rounds_more (more : some i ≠ last) :
    rounds t e last (fuel + 1) c (some i) =
      c.modifies t i e :: rounds t e last fuel (c.modify t i e) (c.next t i) := if_neg more

end Loop

def updateRounds (c : NodeIndex key part) (t : Tag) (e : α) (fields : List φ) : List Bool :=
  rounds t e (c.equalRange t fields).2 (2 * (c.view t).length + 1) c (c.equalRange t fields).1

end Rounds

end NodeIndex

/-- What writers do under the lock. -/
inductive IndexWrite (α φ Tag : Type) where
  | clear
  | insert (e : α)
  | remove (t : Tag) (fields : List φ)
  | update (t : Tag) (e : α) (fields : List φ)

def NodeIndex.write (c : NodeIndex key part) : IndexWrite α φ Tag → NodeIndex key part
  | .clear => c.clear
  | .insert e => c.insert e
  | .remove t fields => c.remove t fields
  | .update t e fields => c.update t e fields

section Known

variable {c : NodeIndex key part}

theorem NodeIndex.modify_entries (c : NodeIndex key part) (t : Tag) (i : Nat) (e : α) :
    ∀ n ∈ (c.modify t i e).entries, ∃ m ∈ c.entries, m.id = n.id := by
  unfold NodeIndex.modify
  split
  · rename_i x found
    exact c.modify_known ((mem_view t).mp (List.mem_of_find?_eq_some found)) e
  · intro n inside
    exact ⟨n, inside, rfl⟩

theorem NodeIndex.updateLoop_entries (t : Tag) (e : α) (last : Option Nat) (fuel : Nat)
    (c : NodeIndex key part) (first : Option Nat) :
    ∀ n ∈ (updateLoop t e last fuel c first).entries, ∃ m ∈ c.entries, m.id = n.id := by
  induction fuel generalizing c first with
  | zero => exact fun n inside => ⟨n, inside, rfl⟩
  | succ fuel ih =>
      unfold updateLoop
      split
      · exact fun n inside => ⟨n, inside, rfl⟩
      · cases first with
        | none => exact fun n inside => ⟨n, inside, rfl⟩
        | some i =>
            intro n inside
            obtain ⟨m, there, same⟩ := ih _ _ n inside
            obtain ⟨k, old, same'⟩ := c.modify_entries t i e m there
            exact ⟨k, old, same'.trans same⟩

/-- Every node after a write was there before it, unless it is the one that was inserted. -/
theorem NodeIndex.write_entries (c : NodeIndex key part) (w : IndexWrite α φ Tag) :
    ∀ n ∈ (c.write w).entries,
      (∃ m ∈ c.entries, m.id = n.id) ∨ n.id = c.fresh ∧ ∃ e, w = .insert e := by
  intro n inside
  cases w with
  | clear => cases inside
  | insert e =>
      by_cases taken : c.nodes.hasKey (key e)
      · change n ∈ (c.nodes.insert ⟨c.fresh, e⟩).1.entries at inside
        rw [MultiIndex.insert_taken taken] at inside
        exact .inl ⟨n, inside, rfl⟩
      · rcases List.mem_cons.mp ((MultiIndex.insert_entries taken).mem_iff.mp inside) with rfl | old
        · exact .inr ⟨rfl, e, rfl⟩
        · exact .inl ⟨n, old, rfl⟩
  | remove t fields => exact .inl ⟨n, (List.mem_filter.mp inside).1, rfl⟩
  | update t e fields => exact .inl (updateLoop_entries t e _ _ c _ n inside)

end Known

/-- A reader before its call, with the next node to look at, with a node that it has copied,
    back from its call, and beyond what it may look at. -/
inductive Reader (R : Type) where
  | ready
  | walking (found : Bool) (first last : Option Nat) (out : List R)
  | copied (found : Bool) (i : Nat) (last : Option Nat) (out : List R)
  | returned (found : Bool) (out : List R)
  | strayed

/-- A call that copies the range of some fields behind what its caller has already. -/
structure RangeCall (α φ Tag R : Type) where
  tag : Tag
  fields : List φ
  retrieve : α → R
  given : List R

namespace Reader

/-- The step that takes the range is under the lock; those that walk it are not. -/
def turn (call : RangeCall α φ Tag R) (c : NodeIndex key part) : Reader R → Option (Reader R)
  | .ready =>
      let (first, last) := c.equalRange call.tag call.fields
      some (.walking (first ≠ last) first last call.given)
  | .walking found first last out =>
      if first = last then some (.returned found out)
      else
        match first.bind (c.node call.tag) with
        | some n => some (.copied found n.id last (out ++ [call.retrieve n.element]))
        | none => some .strayed
  | .copied found i last out =>
      match c.node call.tag i with
      | some _ => some (.walking found (c.next call.tag i) last out)
      | none => some .strayed
  | .returned _ _ | .strayed => none

def inCall : Reader R → Bool
  | .walking _ _ _ _ | .copied _ _ _ _ => true
  | _ => false

end Reader

/-- An index with one reader, and any writers. -/
structure SharedIndex (key : α → κ) (part : Tag → κ → List φ) (R : Type) where
  index : NodeIndex key part
  reader : Reader R := .ready

inductive SharedAction (α φ Tag : Type) where
  | read
  | write (w : IndexWrite α φ Tag)

namespace SharedIndex

variable (call : RangeCall α φ Tag R)

def step (s : SharedIndex key part R) : SharedAction α φ Tag → Option (SharedIndex key part R)
  | .read => (s.reader.turn call s.index).map fun reader => { s with reader }
  | .write w => some { s with index := s.index.write w }

/-- What a walk from `first` to `last` has ahead of it stays as it is. -/
def KeepsAhead (c : NodeIndex key part) (t : Tag) (w : IndexWrite α φ Tag)
    (first last : Option Nat) : Prop :=
  ∀ rest, c.Ahead t first last rest → (c.write w).Ahead t first last rest

/-- A write that changes nothing keeps what is ahead. -/
theorem keepsAhead_of_view {c : NodeIndex key part} {t : Tag} {w : IndexWrite α φ Tag}
    (same : (c.write w).view t = c.view t) (first last : Option Nat) :
    KeepsAhead c t w first last := by
  rintro rest ⟨before, behind, split, here, there⟩
  exact ⟨before, behind, same.trans split, here, there⟩

/-- A write while the range is walked leaves what is ahead of the reader. -/
def Spares (s : SharedIndex key part R) : SharedAction α φ Tag → Prop
  | .read => True
  | .write w =>
      match s.reader with
      | .walking _ first last _ => KeepsAhead s.index call.tag w first last
      | .copied _ i last _ => KeepsAhead s.index call.tag w (some i) last
      | _ => True

/-- What the call returns if nobody else is there. -/
def answer (c : NodeIndex key part) : Bool × List R :=
  (!(c.range call.tag call.fields).isEmpty,
    call.given ++ (c.range call.tag call.fields).map fun n => call.retrieve n.element)

/-- The walk is on its way to an answer. -/
def Underway (target : Bool × List R) (s : SharedIndex key part R) : Prop :=
  match s.reader with
  | .ready => False
  | .walking found first last out =>
      found = target.1 ∧ ∃ rest, s.index.Ahead call.tag first last rest ∧
        out ++ rest.map (fun n => call.retrieve n.element) = target.2
  | .copied found i last out =>
      found = target.1 ∧ ∃ x rest, x.id = i ∧ s.index.Ahead call.tag (some i) last (x :: rest) ∧
        out ++ rest.map (fun n => call.retrieve n.element) = target.2
  | .returned found out => (found, out) = target
  | .strayed => False

variable {call} {s u : SharedIndex key part R} {a : SharedAction α φ Tag} {target : Bool × List R}

theorem underway_start (ready : s.reader = .ready) (taken : step call s .read = some u) :
    u.index = s.index ∧ u.reader.inCall = true ∧ Underway call (answer call s.index) u := by
  obtain ⟨reader, turned, rfl⟩ := Option.map_eq_some_iff.mp taken
  rw [ready] at turned
  cases turned
  have ahead := s.index.ahead_range call.tag call.fields
  refine ⟨rfl, rfl, ?_, _, ahead, rfl⟩
  have empty := ahead.done_iff
  rw [answer]
  cases found : s.index.range call.tag call.fields with
  | nil => exact decide_eq_false (not_not.mpr (empty.mpr found))
  | cons x rest => exact decide_eq_true (mt empty.mp (found ▸ List.cons_ne_nil x rest))

theorem underway_step (underway : Underway call target s) (spares : Spares call s a)
    (taken : step call s a = some u) : Underway call target u := by
  obtain ⟨index, reader⟩ := s
  cases a with
  | write w =>
      cases taken
      cases reader with
      | ready => exact underway
      | strayed => exact underway
      | returned found out => exact underway
      | walking found first last out =>
          obtain ⟨flag, rest, ahead, parts⟩ := underway
          exact ⟨flag, rest, spares rest ahead, parts⟩
      | copied found i last out =>
          obtain ⟨flag, x, rest, here, ahead, parts⟩ := underway
          exact ⟨flag, x, rest, here, spares _ ahead, parts⟩
  | read =>
      obtain ⟨reader', turned, rfl⟩ := Option.map_eq_some_iff.mp taken
      cases reader with
      | ready => exact underway.elim
      | strayed => exact underway.elim
      | returned found out => cases turned
      | walking found first last out =>
          obtain ⟨flag, rest, ahead, parts⟩ := underway
          simp only [Reader.turn] at turned
          cases rest with
          | nil =>
              rw [if_pos (ahead.done_iff.mpr rfl)] at turned
              cases turned
              rw [List.map_nil, List.append_nil] at parts
              exact Prod.ext flag parts
          | cons x rest =>
              obtain ⟨first_eq, found_eq, later⟩ := ahead.head
              rw [if_neg (mt ahead.done_iff.mp (List.cons_ne_nil x rest)), first_eq,
                Option.bind_some, found_eq] at turned
              cases turned
              refine ⟨flag, x, rest, rfl, first_eq ▸ ahead, ?_⟩
              rw [← parts, List.map_cons, List.append_assoc, List.singleton_append]
      | copied found i last out =>
          obtain ⟨flag, x, rest, rfl, ahead, parts⟩ := underway
          obtain ⟨-, found_eq, later⟩ := ahead.head
          simp only [Reader.turn, found_eq] at turned
          cases turned
          exact ⟨flag, rest, later, parts⟩

/-- What the reader returns in a run is the answer at one moment of its call, and it follows no
    iterator to a node that is gone. -/
structure Consistent (call : RangeCall α φ Tag R) (s : SharedIndex key part R)
    (actions : List (SharedAction α φ Tag)) (u : SharedIndex key part R) : Prop where
  onCourse : u.reader ≠ .strayed
  atOnce : ∀ found out, u.reader = .returned found out →
    ∃ before after m, actions = before ++ after ∧
      Transition.exec (step call) s before = some m ∧ m.reader.inCall = true ∧
        (found, out) = answer call m.index

theorem consistent_of_spares (ready : s.reader = .ready) {actions : List (SharedAction α φ Tag)}
    (spares : Transition.Along (step call) (Spares call) s actions)
    (run : Transition.exec (step call) s actions = some u) : Consistent call s actions u := by
  induction actions generalizing s with
  | nil =>
      obtain rfl := Option.some.inj run
      constructor
      · rw [ready]
        exact nofun
      · intro found out returned
        rw [ready] at returned
        cases returned
  | cons a actions ih =>
      obtain ⟨m, first, rest⟩ := Transition.exec_cons.mp run
      cases a with
      | write w =>
          have still : m.reader = .ready := by
            cases first
            exact ready
          have later := ih still (spares.2 m first) rest
          refine ⟨later.onCourse, ?_⟩
          intro found out returned
          obtain ⟨before, after, k, rfl, reach, inCall, same⟩ := later.atOnce found out returned
          exact ⟨.write w :: before, after, k, rfl, Transition.exec_cons.mpr ⟨m, first, reach⟩,
            inCall, same⟩
      | read =>
          obtain ⟨unchanged, inCall, start⟩ := underway_start ready first
          have last : Underway call (answer call s.index) u :=
            Transition.exec_invariant_along (Underway call (answer call s.index))
              (fun _ _ _ underway here taken => underway_step underway here taken) start
              (spares.2 m first) rest
          constructor
          · intro strayed
            rw [Underway, strayed] at last
            exact last
          · intro found out returned
            rw [Underway, returned] at last
            refine ⟨[.read], actions, m, rfl, Transition.exec_cons.mpr ⟨m, first, rfl⟩, inCall, ?_⟩
            rw [unchanged]
            exact last

end SharedIndex

end VanillaRtb.Lib
