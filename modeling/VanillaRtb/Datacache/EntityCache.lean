import VanillaRtb.Lib.MultiIndex
import VanillaRtb.StdString

/-! # The entity cache

A cache keeps its container in a memory segment. The named segments of `Shared` and
`Mapped` outlive the objects that map them; the block of `Heap` does not. References and
iterators into a container are good for the mapping they were taken from, and using one
after the segment was mapped anew, or was let go, is undefined. Storing an element may run
out of memory once, and succeeds after the segment has grown.
-/

namespace VanillaRtb.Datacache

open Lib

/-- What may stop a call: the exception of the allocator, or nothing that can be relied on. -/
inductive Fault where
  | badAlloc
  | undefined
  deriving DecidableEq

/-- The policies of `memory_types.hpp`. -/
inductive Memory where
  | shared
  | mapped
  | heap
  deriving DecidableEq

/-- An element as stored: the fields of its key and the serialized data. -/
structure Entity (K D : Type) where
  key : K
  data : D
  deriving DecidableEq

variable {K D φ Tag : Type} [LinearOrder φ]

/-- `segment` is the mapping that `_segment_ptr` holds, if any, out of `mappings` so far. -/
structure EntityCache (D : Type) (part : Tag → K → List φ) where
  memory : Memory
  segment : Option Nat
  mappings : Nat
  taken : ∀ mapping ∈ segment, mapping < mappings
  container : MultiIndex (Entity.key : Entity K D → K) part

namespace EntityCache

variable {part : Tag → K → List φ}

/-- A new mapping of the named segment. -/
def openNamed (c : EntityCache D part) : EntityCache D part :=
  { c with
    segment := some c.mappings, mappings := c.mappings + 1,
    taken := fun _ here => Option.mem_some.mp here ▸ Nat.lt_succ_self _ }

/-- The constructor, over what the segment holds already. -/
def entityCache (memory : Memory) (container : MultiIndex (Entity.key : Entity K D → K) part) :
    EntityCache D part :=
  openNamed { memory, segment := none, mappings := 0, taken := by simp, container }

/-- `Memory::attach` of `attach()`. -/
def attach (c : EntityCache D part) : EntityCache D part :=
  match c.memory with
  | .shared | .mapped => openNamed c
  | .heap => c

/-- `Memory::grow`: `Heap` grows the segment it is given. -/
def grow (c : EntityCache D part) : Except Fault (EntityCache D part) :=
  match c.memory with
  | .shared | .mapped => .ok (openNamed c)
  | .heap =>
      match c.segment with
      | some _ => .ok c
      | none => .error .undefined

/-- `grow_memory` lets the segment go first. -/
def growMemory (c : EntityCache D part) : Except Fault (EntityCache D part) := do
  let c ← grow { c with segment := none, taken := by simp }
  pure (attach c)

/-- `_segment_ptr->` and references into the container. -/
def deref (c : EntityCache D part) : Except Fault Nat :=
  match c.segment with
  | some mapping => .ok mapping
  | none => .error .undefined

/-- Whether what was taken from a mapping may still be used. -/
def alive (c : EntityCache D part) (mapping : Nat) : Except Fault Unit :=
  if c.segment = some mapping then .ok () else .error .undefined

/-- `item.store`. -/
def store (fails : Bool) : Except Fault Unit := if fails then .error .badAlloc else .ok ()

variable {c : EntityCache D part} {index : Nat} {tag : Tag} {item : Entity K D}
  {first last : Option K} {fails : Nat → Bool} {success : Bool} {k : K} {n fuel : Nat}

theorem attach_container (c : EntityCache D part) : (attach c).container = c.container := by
  cases memory : c.memory <;> simp only [attach, memory, openNamed]

theorem attach_memory (c : EntityCache D part) : (attach c).memory = c.memory := by
  cases memory : c.memory <;> simp only [attach, memory, openNamed]

theorem attach_mapped (mapped : c.segment.isSome = true) : (attach c).segment.isSome = true := by
  cases memory : c.memory <;> simp only [attach, memory, openNamed, mapped, Option.isSome_some]

theorem alive_live (live : c.segment = some index) : alive c index = .ok () := if_pos live

theorem deref_live (live : c.segment = some index) : deref c = .ok index := by
  rw [deref, live]

theorem growMemory_shared (memory : c.memory ≠ .heap) :
    growMemory c = .ok (openNamed (openNamed { c with segment := none, taken := by simp })) := by
  cases eq : c.memory <;> simp_all [growMemory, grow, attach, openNamed]

theorem growMemory_heap (memory : c.memory = .heap) : growMemory c = .error .undefined := by
  simp only [growMemory, grow, memory]
  rfl

variable [DecidableEq K]

/-- `p.first++` for an iterator of the index of `tag`. -/
def advance (c : EntityCache D part) (index : Nat) (tag : Tag) (first : Option K) :
    Except Fault (K × Option K) := do
  alive c index
  match first with
  | some k => pure (k, c.container.next tag k)
  | none => .error .undefined

theorem advance_live (live : c.segment = some index) :
    advance c index tag (some k) = .ok (k, c.container.next tag k) := by
  rw [advance, alive_live live]
  rfl

theorem advance_gone (gone : c.segment ≠ some index) :
    advance c index tag first = .error .undefined := by
  unfold advance
  rw [alive, if_neg gone]
  rfl

variable [Inhabited Tag]

def insertData (c : EntityCache D part) (item : Entity K D) (fails : Bool) :
    Except Fault (EntityCache D part × Bool) := do
  let c := attach c
  let _ ← deref c
  store fails
  let (container, inserted) := c.container.insert item
  pure ({ c with container }, inserted)

def updateData (c : EntityCache D part) (item : Entity K D) (index : Nat) (itr : K)
    (fails : Bool) : Except Fault (EntityCache D part × Bool) := do
  let _ ← deref c
  store fails
  alive c index
  let (container, modified) := c.container.modify itr item
  pure ({ c with container }, modified)

/-- `insert`; `fails` tells whether storing the element runs out of memory. -/
def insert (c : EntityCache D part) (item : Entity K D) (fails : Bool) :
    Except Fault (EntityCache D part × Bool) :=
  match insertData c item fails with
  | .error .badAlloc => do
      -- what the attempt leaves of the cache is that it was attached anew
      let c ← growMemory (attach c)
      insertData c item false
  | outcome => outcome

/-- One round of the loop of `update`. -/
def updateOne (c : EntityCache D part) (item : Entity K D) (index : Nat) (tag : Tag)
    (first : Option K) (fails : Bool) :
    Except Fault (EntityCache D part × Option K × Bool) := do
  let (itr, first) ← advance c index tag first
  match updateData c item index itr fails with
  | .error .badAlloc =>
      let c ← growMemory c
      let (itr, first) ← advance c index tag first
      let (c, modified) ← updateData c item index itr false
      pure (c, first, modified)
  | .error .undefined => .error .undefined
  | .ok (c, modified) => pure (c, first, modified)

/-- The loop of `update`, in its `n`-th round; more rounds than the fuel counts as undefined. -/
def updateLoop (item : Entity K D) (index : Nat) (tag : Tag) (last : Option K)
    (fails : Nat → Bool) (fuel n : Nat) (c : EntityCache D part) (first : Option K)
    (success : Bool) : Except Fault (EntityCache D part × Bool) :=
  if first = last then .ok (c, success)
  else
    match fuel with
    | 0 => .error .undefined
    | fuel + 1 => do
        let (c, first, modified) ← updateOne c item index tag first (fails n)
        updateLoop item index tag last fails fuel (n + 1) c first (success || modified)

/-- `update<Tag>` of the elements that begin with the fields; `fails n` tells whether storing
    the element runs out of memory in the `n`-th round. -/
def update (c : EntityCache D part) (tag : Tag) (item : Entity K D) (fields : List φ)
    (fails : Nat → Bool) : Except Fault (EntityCache D part × Bool) := do
  let index ← deref c
  let (first, last) := c.container.equalRange tag fields
  updateLoop item index tag last fails (2 * (c.container.view tag).length + 1) 0 c first false

section Rounds

/-- What a round leaves of the cache. -/
def afterOne (c : EntityCache D part) (item : Entity K D) (k : K) : EntityCache D part :=
  { c with container := (c.container.modify k item).1 }

theorem updateData_spared (live : c.segment = some index) :
    updateData c item index k false = .ok (afterOne c item k, (c.container.modify k item).2) := by
  rw [updateData, deref_live live, alive_live live]
  rfl

theorem updateData_failed (live : c.segment = some index) :
    updateData c item index k true = .error .badAlloc := by
  rw [updateData, deref_live live]
  rfl

theorem updateOne_spared (live : c.segment = some index) :
    updateOne c item index tag (some k) false =
      .ok (afterOne c item k, c.container.next tag k, (c.container.modify k item).2) := by
  simp only [updateOne, advance_live live, bind, Except.bind, updateData_spared live]
  rfl

/-- Whatever the policy, a retry uses iterators that are gone. -/
theorem updateOne_failed (live : c.segment = some index) :
    updateOne c item index tag (some k) true = .error .undefined := by
  simp only [updateOne, advance_live live, bind, Except.bind, updateData_failed live]
  by_cases memory : c.memory = .heap
  · rw [growMemory_heap memory]
  · have older : index < c.mappings := c.taken index live
    rw [growMemory_shared memory]
    simp only
    rw [advance_gone]
    intro still
    have same := Option.some.inj still
    change c.mappings + 1 = index at same
    omega

theorem updateOne_end (live : c.segment = some index) (b : Bool) :
    updateOne c item index tag none b = .error .undefined := by
  rw [updateOne, advance, alive_live live]
  rfl

end Rounds

section Loop

/-- How many rounds the loop of `update` makes when none of them fails. -/
def rounds (item : Entity K D) (tag : Tag) (last : Option K) :
    Nat → MultiIndex (Entity.key : Entity K D → K) part → Option K → Nat
  | fuel + 1, container, some k =>
      if some k = last then 0
      else rounds item tag last fuel (container.modify k item).1 (container.next tag k) + 1
  | _, _, _ => 0

theorem rounds_done (done : first = last) (fuel : Nat)
    (container : MultiIndex (Entity.key : Entity K D → K) part) :
    rounds item tag last fuel container first = 0 := by
  subst done
  cases fuel with
  | zero => rfl
  | succ fuel =>
      cases first with
      | none => rfl
      | some k => exact if_pos rfl

/-- A round that fails is the end of the call. -/
theorem updateLoop_eq (live : c.segment = some index) :
    updateLoop item index tag last fails fuel n c first success =
      if ∀ i < rounds item tag last fuel c.container first, fails (n + i) = false then
        updateLoop item index tag last (fun _ => false) fuel n c first success
      else .error .undefined := by
  induction fuel generalizing n c first success with
  | zero => simp [rounds, updateLoop]
  | succ fuel ih =>
      rw [updateLoop, updateLoop]
      by_cases done : first = last
      · rw [if_pos done, if_pos done, rounds_done done]
        simp
      rw [if_neg done, if_neg done]
      cases first with
      | none =>
          rw [updateOne_end live, updateOne_end live]
          simp [rounds]
          rfl
      | some k =>
          rw [rounds, if_neg done]
          cases failed : fails n with
          | true =>
              have broken : ¬ ∀ i < rounds item tag last fuel (c.container.modify k item).1
                  (c.container.next tag k) + 1, fails (n + i) = false := by
                intro spared
                have here := spared 0 (Nat.succ_pos _)
                rw [Nat.add_zero, failed] at here
                cases here
              rw [updateOne_failed live, if_neg broken]
              rfl
          | false =>
              have shift : (∀ i < rounds item tag last fuel (c.container.modify k item).1
                    (c.container.next tag k) + 1, fails (n + i) = false) ↔
                  ∀ i < rounds item tag last fuel (afterOne c item k).container
                    (c.container.next tag k), fails (n + 1 + i) = false := by
                constructor
                · intro spared i early
                  have next := spared (i + 1) (by exact Nat.succ_lt_succ early)
                  rwa [Nat.add_comm i 1, ← Nat.add_assoc] at next
                · intro spared i early
                  cases i with
                  | zero => rwa [Nat.add_zero]
                  | succ i =>
                      rw [Nat.add_comm i 1, ← Nat.add_assoc]
                      exact spared i (Nat.lt_of_succ_lt_succ early)
              rw [updateOne_spared live]
              simp only [bind, Except.bind, shift]
              exact ih live

/-- What becomes of the elements in range: nothing if the new key is taken outside of it,
    and one element otherwise. -/
inductive Replaced (item : Entity K D) (outside range after : List (Entity K D))
    (success : Bool) : Bool → Prop where
  | untouched (none : range = []) (same : after.Perm outside) :
      Replaced item outside range after success success
  | erased (taken : item.key ∈ outside.map Entity.key) (same : after.Perm outside) :
      Replaced item outside range after success success
  | collapsed (some : range ≠ []) (free : item.key ∉ outside.map Entity.key)
      (one : after.Perm (item :: outside)) : Replaced item outside range after success true

/-- An element that has the new key already is visited once, any other perhaps twice: itself,
    and as what it was changed into. -/
def visits (item : Entity K D) (ahead : List (Entity K D)) : Nat :=
  (ahead.map fun a => if a.key = item.key then 1 else 2).sum

theorem visits_cons (item a : Entity K D) (ahead : List (Entity K D)) :
    visits item (a :: ahead) = (if a.key = item.key then 1 else 2) + visits item ahead := by
  rw [visits, List.map_cons, List.sum_cons, visits]

theorem visits_perm {xs ys : List (Entity K D)} (same : xs.Perm ys) :
    visits item xs = visits item ys := (same.map _).sum_eq

theorem visits_le (item : Entity K D) (ahead : List (Entity K D)) :
    visits item ahead ≤ 2 * ahead.length := by
  induction ahead with
  | nil => exact Nat.le_refl 0
  | cons a ahead ih =>
      rw [visits_cons, List.length_cons]
      split <;> omega

omit [DecidableEq K] in
theorem iteratorTo_ne {xs ys : List (Entity K D)} {x : Entity K D}
    (unique : UniqueBy Entity.key (x :: (xs ++ ys))) :
    some x.key ≠ MultiIndex.iteratorTo Entity.key ys := by
  intro same
  cases ys with
  | nil => cases same
  | cons y ys =>
      refine (List.nodup_cons.mp unique).1 ?_
      rw [Option.some.inj same]
      exact List.mem_map_of_mem (List.mem_append_right _ List.mem_cons_self)

variable {x : Entity K D} {before ahead behind before' ahead' behind' : List (Entity K D)}

/-- Where the element that was modified is afterwards: nowhere, outside of what is still
    ahead, or ahead once more. -/
inductive Moved (item x : Entity K D) (before ahead behind before' ahead' behind' :
    List (Entity K D)) : Bool → Prop where
  | erased (taken : item.key ∈ (before ++ (ahead ++ behind)).map Entity.key)
      (sameAhead : ahead' = ahead) (same : (before' ++ behind').Perm (before ++ behind)) :
      Moved item x before ahead behind before' ahead' behind' false
  | passed (free : item.key ∉ (before ++ (ahead ++ behind)).map Entity.key)
      (sameAhead : ahead' = ahead) (one : (before' ++ behind').Perm (item :: (before ++ behind))) :
      Moved item x before ahead behind before' ahead' behind' true
  | again (free : item.key ∉ (before ++ (ahead ++ behind)).map Entity.key)
      (changed : x.key ≠ item.key) (one : ahead'.Perm (item :: ahead))
      (same : (before' ++ behind').Perm (before ++ behind)) :
      Moved item x before ahead behind before' ahead' behind' true

omit [DecidableEq K] in
theorem perm_front (xs ys zs : List (Entity K D)) :
    (xs ++ (ys ++ zs)).Perm (ys ++ (xs ++ zs)) := by
  rw [← List.append_assoc, ← List.append_assoc]
  exact List.perm_append_comm.append_right zs

theorem modify_moves {container : MultiIndex (Entity.key : Entity K D → K) part}
    (here : container.view tag = before ++ x :: (ahead ++ behind)) (item : Entity K D) :
    ∃ before' ahead' behind',
      (container.modify x.key item).1.view tag = before' ++ (ahead' ++ behind') ∧
      (ahead' ++ behind').head? = (ahead ++ behind).head? ∧ behind'.head? = behind.head? ∧
      Moved item x before ahead behind before' ahead' behind' (container.modify x.key item).2 := by
  rcases MultiIndex.modify_cases here item with
    ⟨taken, flag, view⟩ | ⟨free, flag, l, r, same, view, stays⟩
  · rw [flag]
    exact ⟨before, ahead, behind, view, rfl, rfl, .erased taken rfl (.refl _)⟩
  rw [flag]
  by_cases moved : x.key = item.key
  · -- in place, so behind the iterator
    have left := stays moved.symm
    subst left
    obtain rfl := List.append_cancel_left same
    refine ⟨l ++ [item], ahead, behind, ?_, rfl, rfl, .passed free rfl ?_⟩
    · rw [view, List.append_assoc, List.singleton_append]
    · rw [List.append_assoc, List.singleton_append]
      exact List.perm_middle
  · obtain ⟨before', ahead', behind', split, first, last, where_⟩ :=
      MultiIndex.split_insert same item
    have all : (ahead' ++ (before' ++ behind')).Perm (item :: (ahead ++ (before ++ behind))) := by
      have whole : (before' ++ (ahead' ++ behind')).Perm (item :: (before ++ (ahead ++ behind))) := by
        rw [← split, ← same]
        exact List.perm_middle
      exact (perm_front _ _ _).symm.trans (whole.trans ((perm_front _ _ _).cons item))
    refine ⟨before', ahead', behind', view.trans split, first, last, ?_⟩
    rcases where_ with rfl | ⟨-, more⟩
    · apply Moved.passed free rfl
      exact (List.perm_append_left_iff ahead').mp (all.trans List.perm_middle.symm)
    · apply Moved.again free moved more
      have twice := (more.append_right (before' ++ behind')).symm.trans all
      exact (List.perm_append_left_iff (item :: ahead)).mp twice

theorem Moved.visits_lt (moved : Moved item x before ahead behind before' ahead' behind' b) :
    visits item ahead' < visits item (x :: ahead) := by
  rw [visits_cons]
  cases moved with
  | erased taken sameAhead same =>
      subst sameAhead
      split <;> omega
  | passed free sameAhead one =>
      subst sameAhead
      split <;> omega
  | again free changed one same =>
      rw [visits_perm one, visits_cons, if_pos rfl, if_neg changed]
      omega

omit [DecidableEq K] in
theorem key_mem_iff {xs ys : List (Entity K D)} (same : xs.Perm ys) (k : K) :
    k ∈ xs.map Entity.key ↔ k ∈ ys.map Entity.key :=
  (same.map Entity.key).mem_iff

omit [DecidableEq K] in
/-- What the rest of the loop makes of it is what the whole loop makes of the range. -/
theorem Moved.replaced (moved : Moved item x before ahead behind before' ahead' behind' modified)
    {after : List (Entity K D)}
    (rest : Replaced item (before' ++ behind') ahead' after (success || modified) success') :
    Replaced item (before ++ behind) (x :: ahead) after success success' := by
  cases moved with
  | erased taken sameAhead same =>
      subst sameAhead
      rw [Bool.or_false] at rest
      cases rest with
      | untouched none one =>
          -- nothing else is in range, so the key is taken outside of it
          subst none
          exact .erased taken (one.trans same)
      | erased taken' one => exact .erased ((key_mem_iff same _).mp taken') (one.trans same)
      | collapsed some free one =>
          exact .collapsed (List.cons_ne_nil _ _) (mt (key_mem_iff same _).mpr free)
            (one.trans (same.cons item))
  | passed free sameAhead here =>
      have outside : item.key ∉ (before ++ behind).map Entity.key := by
        intro there
        refine free ((key_mem_iff (perm_front before ahead behind) _).mpr ?_)
        rw [List.map_append]
        exact List.mem_append_right _ there
      have placed : item.key ∈ (before' ++ behind').map Entity.key :=
        (key_mem_iff here _).mpr List.mem_cons_self
      rw [Bool.or_true] at rest
      cases rest with
      | untouched none one => exact .collapsed (List.cons_ne_nil _ _) outside (one.trans here)
      | erased taken one => exact .collapsed (List.cons_ne_nil _ _) outside (one.trans here)
      | collapsed some absent one => exact absurd placed absent
  | again free changed more same =>
      have outside : item.key ∉ (before ++ behind).map Entity.key := by
        intro there
        refine free ((key_mem_iff (perm_front before ahead behind) _).mpr ?_)
        rw [List.map_append]
        exact List.mem_append_right _ there
      rw [Bool.or_true] at rest
      cases rest with
      | untouched none one =>
          rw [none] at more
          exact absurd more.nil_eq.symm (List.cons_ne_nil _ _)
      | erased taken one => exact absurd ((key_mem_iff same _).mp taken) outside
      | collapsed some absent one =>
          exact .collapsed (List.cons_ne_nil _ _) outside (one.trans (same.cons item))

/-- The loop visits what is ahead of it and stops. -/
theorem updateLoop_spec (n : Nat) (success : Bool) (live : c.segment = some index)
    (here : c.container.view tag = before ++ (ahead ++ behind))
    (enough : visits item ahead ≤ fuel) :
    ∃ container success', updateLoop item index tag (MultiIndex.iteratorTo Entity.key behind)
        (fun _ => false) fuel n c (MultiIndex.iteratorTo Entity.key (ahead ++ behind)) success =
          .ok ({ c with container }, success') ∧
      Replaced item (before ++ behind) ahead (container.view tag) success success' := by
  induction fuel generalizing n c success before ahead behind with
  | zero =>
      cases ahead with
      | nil =>
          refine ⟨c.container, success, ?_, .untouched rfl (.of_eq here)⟩
          rw [updateLoop, List.nil_append, if_pos rfl]
      | cons x ahead =>
          rw [visits_cons] at enough
          split at enough <;> omega
  | succ fuel ih =>
      cases ahead with
      | nil =>
          refine ⟨c.container, success, ?_, .untouched rfl (.of_eq here)⟩
          rw [updateLoop, List.nil_append, if_pos rfl]
      | cons x ahead =>
          rw [List.cons_append] at here
          have unique := (c.container.unique tag).sublist
            ((here ▸ List.sublist_append_right _ _).map Entity.key)
          obtain ⟨before', ahead', behind', view, first, last, moved⟩ := modify_moves here item
          have fewer := moved.visits_lt
          obtain ⟨container, success', run, rest⟩ :=
            ih (c := afterOne c item x.key) (n + 1)
              (success || (c.container.modify x.key item).2) live view (by omega)
          refine ⟨container, success', ?_, moved.replaced rest⟩
          have next : c.container.next tag x.key =
              MultiIndex.iteratorTo Entity.key (ahead' ++ behind') := by
            rw [MultiIndex.next_eq here, MultiIndex.iteratorTo, MultiIndex.iteratorTo, first]
          have stop : MultiIndex.iteratorTo Entity.key behind =
              MultiIndex.iteratorTo Entity.key behind' := by
            rw [MultiIndex.iteratorTo, MultiIndex.iteratorTo, last]
          have start : MultiIndex.iteratorTo Entity.key (x :: ahead ++ behind) = some x.key := rfl
          rw [start, updateLoop, if_neg (iteratorTo_ne unique), updateOne_spared live, next, stop]
          exact run

end Loop

section Update

omit [DecidableEq K] in
theorem Replaced.of_perm {outside outside' range after : List (Entity K D)} {success' : Bool}
    (same : outside.Perm outside') (replaced : Replaced item outside range after success success') :
    Replaced item outside' range after success success' := by
  cases replaced with
  | untouched none one => exact .untouched none (one.trans same)
  | erased taken one => exact .erased ((key_mem_iff same _).mp taken) (one.trans same)
  | collapsed some free one =>
      exact .collapsed some (mt (key_mem_iff same _).mpr free) (one.trans (same.cons item))

/-- While memory lasts, an update is done with its range and says whether an element was
    modified. -/
theorem update_spec (live : c.segment = some index) (tag : Tag) (item : Entity K D)
    (fields : List φ) :
    ∃ container success, c.update tag item fields (fun _ => false) =
        .ok ({ c with container }, success) ∧
      Replaced item (c.container.others tag fields) (c.container.matching tag fields)
        (container.view tag) false success := by
  obtain ⟨before, behind, view, range⟩ := c.container.equalRange_split tag fields
  have enough : visits item (c.container.matching tag fields) ≤
      2 * (c.container.view tag).length + 1 := by
    have some := visits_le item (c.container.matching tag fields)
    have inside : (c.container.matching tag fields).length ≤ (c.container.view tag).length :=
      List.length_filter_le _ _
    omega
  obtain ⟨container, success, run, replaced⟩ :=
    updateLoop_spec 0 false live view enough
  refine ⟨container, success, ?_, replaced.of_perm (MultiIndex.others_perm view)⟩
  rw [update, deref_live live]
  simp only [bind, Except.bind, range]
  exact run

end Update

end EntityCache

end VanillaRtb.Datacache
