import VanillaRtb.Datacache.Updates
import VanillaRtb.Lib.Transition

/-! # Running out of memory

Whether a run with failures can be told from the one without. An insertion that fails under
`Shared` and `Mapped` starts over on the grown segment; every other call that fails goes on
with what it had before.
-/

namespace VanillaRtb.Datacache

open Lib

variable {K D φ Tag : Type} [LinearOrder φ] [DecidableEq K] [Inhabited Tag]
  {part : Tag → K → List φ} {container : MultiIndex (Entity.key : Entity K D → K) part}
  {c : EntityCache D part} {index : Nat}

/-- `insert` and `update<Tag>`. -/
inductive Call (K D φ Tag : Type) where
  | insert (item : Entity K D)
  | update (tag : Tag) (item : Entity K D) (fields : List φ)

/-- A call, and which of its stores run out of memory. -/
structure Attempt (K D φ Tag : Type) where
  call : Call K D φ Tag
  fails : Nat → Bool

/-- The same call with memory to spare. -/
def Attempt.spared (a : Attempt K D φ Tag) : Attempt K D φ Tag :=
  { a with fails := fun _ => false }

namespace EntityCache

def perform (c : EntityCache D part) (a : Attempt K D φ Tag) :
    Except Fault (EntityCache D part × Bool) :=
  match a.call with
  | .insert item => c.insert item (a.fails 0)
  | .update tag item fields => c.update tag item fields a.fails

/-- The calls of a run one after the other, with their results. -/
def run (c : EntityCache D part) : List (Attempt K D φ Tag) →
    Except Fault (EntityCache D part × List Bool)
  | [] => .ok (c, [])
  | a :: as => do
      let (c, result) ← c.perform a
      let (c, results) ← run c as
      pure (c, result :: results)

/-- The contents of the container in the end, and what the calls returned. -/
def observed (outcome : Except Fault (EntityCache D part × List Bool)) :
    Except Fault (MultiIndex (Entity.key : Entity K D → K) part × List Bool) :=
  outcome.map fun found => (found.1.container, found.2)

/-- How many elements an update stores when none of them fails. -/
def stores (c : EntityCache D part) (tag : Tag) (item : Entity K D) (fields : List φ) : Nat :=
  let (first, last) := c.container.equalRange tag fields
  rounds item tag last (2 * (c.container.view tag).length + 1) c.container first

/-- No store of an update fails, and that of an insertion only where the segment has a name. -/
def Bearable (c : EntityCache D part) (a : Attempt K D φ Tag) : Prop :=
  match a.call with
  | .insert _ => a.fails 0 = true → c.memory ≠ .heap
  | .update tag item fields => ∀ i < c.stores tag item fields, a.fails i = false

/-- One call with memory to spare. -/
def stepSpared (c : EntityCache D part) (a : Attempt K D φ Tag) : Option (EntityCache D part) :=
  (c.perform a.spared).toOption.map Prod.fst

end EntityCache

open EntityCache

/-- Nothing tells the run from the one with memory to spare. -/
def Transparent (memory : Memory) (container : MultiIndex (Entity.key : Entity K D → K) part)
    (attempts : List (Attempt K D φ Tag)) : Prop :=
  observed ((entityCache memory container).run attempts) =
    observed ((entityCache memory container).run (attempts.map Attempt.spared))

section Calls

variable {tag : Tag} {item : Entity K D} {first last : Option K} {success : Bool} {fuel n : Nat}
  {fields : List φ} {fails : Nat → Bool}

/-- What an update with memory to spare does to the container, wherever it is mapped. -/
def spin (item : Entity K D) (tag : Tag) (last : Option K) : Nat →
    MultiIndex (Entity.key : Entity K D → K) part → Option K → Bool →
    Option (MultiIndex (Entity.key : Entity K D → K) part × Bool)
  | 0, container, first, success => if first = last then some (container, success) else none
  | fuel + 1, container, first, success =>
      if first = last then some (container, success)
      else do
        let k ← first
        let (after, modified) := container.modify k item
        spin item tag last fuel after (container.next tag k) (success || modified)

/-- A cache over the container that a call leaves, and its result. -/
def withOutcome (c : EntityCache D part)
    (outcome : Option (MultiIndex (Entity.key : Entity K D → K) part × Bool)) :
    Except Fault (EntityCache D part × Bool) :=
  match outcome with
  | some (container, result) => .ok ({ c with container }, result)
  | none => .error .undefined

theorem updateLoop_spin (live : c.segment = some index) :
    updateLoop item index tag last (fun _ => false) fuel n c first success =
      withOutcome c (spin item tag last fuel c.container first success) := by
  induction fuel generalizing n c first success with
  | zero =>
      rw [updateLoop, spin]
      split <;> rfl
  | succ fuel ih =>
      rw [updateLoop, spin]
      by_cases done : first = last
      · rw [if_pos done, if_pos done]
        rfl
      · rw [if_neg done, if_neg done]
        cases first with
        | none =>
            rw [updateOne_end live]
            rfl
        | some k =>
            rw [updateOne_spared live]
            exact ih (c := afterOne c item k) live

/-- What the call makes of the container with memory to spare. -/
def Call.apply (container : MultiIndex (Entity.key : Entity K D → K) part) :
    Call K D φ Tag → Option (MultiIndex (Entity.key : Entity K D → K) part × Bool)
  | .insert item => some (container.insert item)
  | .update tag item fields =>
      spin item tag (container.equalRange tag fields).2 (2 * (container.view tag).length + 1)
        container (container.equalRange tag fields).1 false

theorem update_eq (live : c.segment = some index) (tag : Tag) (item : Entity K D)
    (fields : List φ) (fails : Nat → Bool) :
    c.update tag item fields fails =
      if ∀ i < c.stores tag item fields, fails i = false then
        withOutcome c (Call.apply c.container (.update tag item fields))
      else .error .undefined := by
  rw [update, deref_live live]
  change updateLoop item index tag (c.container.equalRange tag fields).2 fails _ 0 c
    (c.container.equalRange tag fields).1 false = _
  rw [updateLoop_eq live, updateLoop_spin live]
  simp only [Nat.zero_add]
  rfl

theorem update_applies (live : c.segment = some index) (tag : Tag) (item : Entity K D)
    (fields : List φ) :
    (Call.apply c.container (.update tag item fields)).isSome = true := by
  obtain ⟨container, result, done, -⟩ := update_spec live tag item fields
  rw [update_eq live, if_pos fun _ _ => rfl] at done
  cases outcome : Call.apply c.container (.update tag item fields) with
  | some found => rfl
  | none =>
      rw [outcome] at done
      cases done

theorem insertData_eq (mapped : c.segment.isSome = true) (item : Entity K D) (fails : Bool) :
    insertData c item fails =
      if fails then .error .badAlloc
      else withOutcome (attach c) (some (c.container.insert item)) := by
  obtain ⟨index, live⟩ := Option.isSome_iff_exists.mp (attach_mapped mapped)
  rw [insertData, deref_live live]
  cases fails with
  | true => rfl
  | false =>
      rw [← attach_container c]
      rfl

theorem insert_eq (mapped : c.segment.isSome = true) (item : Entity K D) (fails : Bool) :
    (fails = true ∧ c.memory = .heap ∧ c.insert item fails = .error .undefined) ∨
    (fails = true → c.memory ≠ .heap) ∧ ∃ d : EntityCache D part, d.memory = c.memory ∧
      d.segment.isSome = true ∧ c.insert item fails =
        withOutcome d (some (c.container.insert item)) := by
  rw [EntityCache.insert, insertData_eq mapped]
  cases fails with
  | false =>
      exact .inr ⟨nofun, attach c, attach_memory c, attach_mapped mapped, rfl⟩
  | true =>
      by_cases heap : c.memory = .heap
      · refine .inl ⟨rfl, heap, ?_⟩
        simp only [if_true, growMemory_heap ((attach_memory c).trans heap)]
        rfl
      · refine .inr ⟨fun _ => heap, ?_⟩
        have grown := growMemory_shared (c := attach c) (attach_memory c ▸ heap)
        refine ⟨attach (openNamed (openNamed { attach c with segment := none, taken := by simp })),
          (attach_memory _).trans (attach_memory c), attach_mapped rfl, ?_⟩
        simp only [if_true, grown, bind, Except.bind]
        rw [insertData_eq rfl, if_neg Bool.false_ne_true]
        change withOutcome _ (some ((attach c).container.insert item)) = _
        rw [attach_container]

end Calls

section Runs

/-- Two caches over the same container, wherever it is mapped. -/
structure Alike (c d : EntityCache D part) : Prop where
  memory : c.memory = d.memory
  container : c.container = d.container
  mapped : c.segment.isSome = true
  mapped' : d.segment.isSome = true

variable {c d : EntityCache D part} {a : Attempt K D φ Tag}

theorem apply_isSome (mapped : c.segment.isSome = true) (call : Call K D φ Tag) :
    ∃ container result, Call.apply c.container call = some (container, result) := by
  cases call with
  | insert item => exact ⟨_, _, rfl⟩
  | update tag item fields =>
      obtain ⟨index, live⟩ := Option.isSome_iff_exists.mp mapped
      obtain ⟨⟨container, result⟩, found⟩ :=
        Option.isSome_iff_exists.mp (update_applies live tag item fields)
      exact ⟨container, result, found⟩

theorem perform_bearable (mapped : c.segment.isSome = true) (bearable : Bearable c a) :
    ∃ d : EntityCache D part, d.memory = c.memory ∧ d.segment.isSome = true ∧
      c.perform a = withOutcome d (Call.apply c.container a.call) := by
  obtain ⟨call, fails⟩ := a
  cases call with
  | insert item =>
      rcases insert_eq mapped item (fails 0) with ⟨failed, heap, -⟩ | ⟨-, d, memory, live, outcome⟩
      · exact absurd heap (bearable failed)
      · exact ⟨d, memory, live, outcome⟩
  | update tag item fields =>
      obtain ⟨index, live⟩ := Option.isSome_iff_exists.mp mapped
      exact ⟨c, rfl, mapped, (update_eq live tag item fields fails).trans (if_pos bearable)⟩

theorem perform_unbearable (mapped : c.segment.isSome = true) (unbearable : ¬ Bearable c a) :
    c.perform a = .error .undefined := by
  obtain ⟨call, fails⟩ := a
  cases call with
  | insert item =>
      rcases insert_eq mapped item (fails 0) with ⟨-, -, outcome⟩ | ⟨bearable, -⟩
      · exact outcome
      · exact absurd bearable unbearable
  | update tag item fields =>
      obtain ⟨index, live⟩ := Option.isSome_iff_exists.mp mapped
      exact (update_eq live tag item fields fails).trans (if_neg unbearable)

theorem bearable_spared (c : EntityCache D part) (a : Attempt K D φ Tag) :
    Bearable c a.spared := by
  obtain ⟨call, fails⟩ := a
  cases call with
  | insert item => exact nofun
  | update tag item fields => exact fun _ _ => rfl

theorem Alike.bearable_iff (alike : Alike c d) (a : Attempt K D φ Tag) :
    Bearable c a ↔ Bearable d a := by
  simp only [Bearable, stores, alike.memory, alike.container]

/-- A call that is borne leaves caches alike and returns the same. -/
theorem Alike.perform (alike : Alike c d) (bearable : Bearable c a) :
    ∃ c' d' result, c.perform a = .ok (c', result) ∧ d.perform a.spared = .ok (d', result) ∧
      Alike c' d' := by
  obtain ⟨container, result, applied⟩ := apply_isSome alike.mapped a.call
  obtain ⟨c', memory, mapped, outcome⟩ := perform_bearable alike.mapped bearable
  obtain ⟨d', memory', mapped', outcome'⟩ :=
    perform_bearable alike.mapped' (bearable_spared d a)
  have applied' : Call.apply d.container a.spared.call = some (container, result) :=
    alike.container ▸ applied
  rw [applied] at outcome
  rw [applied'] at outcome'
  refine ⟨_, _, result, outcome, outcome', ?_⟩
  exact ⟨memory.trans (alike.memory.trans memory'.symm), rfl, mapped, mapped'⟩

omit [DecidableEq K] [Inhabited Tag] in
theorem Alike.refl (mapped : c.segment.isSome = true) : Alike c c :=
  ⟨rfl, rfl, mapped, mapped⟩

theorem run_spared (mapped : c.segment.isSome = true) (attempts : List (Attempt K D φ Tag)) :
    ∃ found, c.run (attempts.map Attempt.spared) = .ok found := by
  induction attempts generalizing c with
  | nil => exact ⟨_, rfl⟩
  | cons a as ih =>
      obtain ⟨c', d', result, -, outcome, alike⟩ :=
        (Alike.refl mapped).perform (bearable_spared c a)
      obtain ⟨found, rest⟩ := ih alike.mapped'
      refine ⟨(found.1, result :: found.2), ?_⟩
      have same : a.spared.spared = a.spared := rfl
      rw [List.map_cons, run, ← same, outcome]
      simp only [bind, Except.bind, rest]
      rfl

theorem observed_run_cons {c' : EntityCache D part} {result : Bool}
    (outcome : c.perform a = .ok (c', result)) (as : List (Attempt K D φ Tag)) :
    observed (c.run (a :: as)) =
      (observed (c'.run as)).map fun found => (found.1, result :: found.2) := by
  rw [run, outcome]
  simp only [bind, Except.bind, observed]
  cases c'.run as <;> rfl

omit [DecidableEq K] [Inhabited Tag] in
theorem map_cons_inj {xs ys : Except Fault
      (MultiIndex (Entity.key : Entity K D → K) part × List Bool)} {result : Bool}
    (same : (xs.map fun found => (found.1, result :: found.2)) =
      ys.map fun found => (found.1, result :: found.2)) : xs = ys := by
  cases xs with
  | error fault =>
      cases ys with
      | error fault' => cases same; rfl
      | ok found' => cases same
  | ok found =>
      cases ys with
      | error fault' => cases same
      | ok found' =>
          obtain ⟨container, results⟩ := found
          obtain ⟨container', results'⟩ := found'
          cases same
          rfl

/-- Runs of caches that are alike differ exactly from the first call that cannot be borne. -/
theorem Alike.observed_iff (alike : Alike c d) (attempts : List (Attempt K D φ Tag)) :
    observed (c.run attempts) = observed (d.run (attempts.map Attempt.spared)) ↔
      Transition.Along stepSpared Bearable d attempts := by
  induction attempts generalizing c d with
  | nil =>
      refine iff_of_true ?_ trivial
      simp only [List.map_nil, run, observed, Except.map, alike.container]
  | cons a as ih =>
      by_cases bearable : Bearable d a
      · obtain ⟨c', d', result, outcome, outcome', alike'⟩ :=
          alike.perform ((alike.bearable_iff a).mpr bearable)
        have step : stepSpared d a = some d' := by rw [stepSpared, outcome']; rfl
        rw [List.map_cons, observed_run_cons outcome, observed_run_cons outcome']
        constructor
        · intro same
          refine ⟨bearable, ?_⟩
          intro t here
          obtain rfl := Option.some.inj (step.symm.trans here)
          exact (ih alike').mp (map_cons_inj same)
        · rintro ⟨-, rest⟩
          rw [(ih alike').mpr (rest d' step)]
      · refine iff_of_false ?_ fun along => bearable along.1
        intro same
        have undefined := perform_unbearable alike.mapped (mt (alike.bearable_iff a).mp bearable)
        obtain ⟨found, spared⟩ := run_spared alike.mapped' (a :: as)
        rw [spared, run, undefined] at same
        cases same

/-- Running out of memory goes unnoticed exactly if no store of an update runs out of it, and
    none of an insertion into `Heap`. -/
theorem transparent_iff (memory : Memory)
    (container : MultiIndex (Entity.key : Entity K D → K) part)
    (attempts : List (Attempt K D φ Tag)) :
    Transparent memory container attempts ↔
      Transition.Along stepSpared Bearable (entityCache memory container) attempts :=
  (Alike.refl rfl).observed_iff attempts

/-- `Heap` has let go of the segment that it is asked to grow. -/
theorem failed_heap_insert : ¬ Transparent .heap
    (MultiIndex.empty : MultiIndex (Entity.key : Entity UInt32 Unit → UInt32) campaignPart)
    [{ call := .insert { key := 1, data := () }, fails := fun _ => true }] := by
  intro same
  have alike := congrArg Except.toBool same
  exact absurd alike (by decide)

end Runs

end VanillaRtb.Datacache
