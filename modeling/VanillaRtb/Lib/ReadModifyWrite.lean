import VanillaRtb.Lib.Table
import VanillaRtb.Lib.Transition

/-! # Reading and writing back a shared table

Tasks share a table. A task that modifies an entry reads it in one step and writes it
back in another, so a write may fall in between. Where none does, the table is what the
finished tasks make of it one after the other, in the order they finished.
-/

namespace VanillaRtb.Lib.ReadModifyWrite

variable {K V : Type} [DecidableEq K]

inductive Task (K V : Type) where
  | modify (k : K) (f : V → V)
  | write (k : K) (v : V)
  | idle

inductive Phase (V : Type) where
  | ready
  | read (v : V)
  | done

/-- The whole of a task at once. -/
def Task.apply (t : Table K V) : Task K V → Table K V
  | .modify k f =>
      match t k with
      | some v => t.replace k (f v)
      | none => t
  | .write k v => t.replace k v
  | .idle => t

/-- One step of a task. -/
def turn (t : Table K V) : Task K V → Phase V → Option (Table K V × Phase V)
  | .modify k _, .ready =>
      match t k with
      | some v => some (t, .read v)
      | none => some (t, .done)
  | .modify k f, .read v => some (t.replace k (f v), .done)
  | .write k v, .ready => some (t.replace k v, .done)
  | .idle, .ready => some (t, .done)
  | _, _ => none

structure State (K V : Type) where
  table : Table K V
  threads : List (Task K V × Phase V)

/-- All tasks before their first step. -/
def start (t : Table K V) (tasks : List (Task K V)) : State K V where
  table := t
  threads := tasks.map fun task => (task, .ready)

/-- The `i`-th task takes a step. -/
def step (s : State K V) (i : Nat) : Option (State K V) := do
  let (task, phase) ← s.threads[i]?
  let (table, phase) ← turn s.table task phase
  pure { table, threads := s.threads.set i (task, phase) }

def Phase.isDone : Phase V → Bool
  | .done => true
  | _ => false

def finished (threads : List (Task K V × Phase V)) : List (Task K V) :=
  (threads.filter fun thread => thread.2.isDone).map Prod.fst

/-- The key that the next step writes, if it writes one. -/
def Task.writes : Task K V → Phase V → Option K
  | .modify k _, .read _ => some k
  | .write k _, .ready => some k
  | _, _ => none

/-- The key of an entry that was read and is to be written back. -/
def Task.holds : Task K V → Phase V → Option K
  | .modify k _, .read _ => some k
  | _, _ => none

/-- The step does not write to an entry that another task is about to write back. -/
def Undisturbed (s : State K V) (i : Nat) : Prop :=
  ∀ task phase k, s.threads[i]? = some (task, phase) → task.writes phase = some k →
    ∀ j other phase', j ≠ i → s.threads[j]? = some (other, phase') → other.holds phase' ≠ some k

section Steps

variable {t t' : Table K V} {task : Task K V} {phase phase' : Phase V}
  {threads : List (Task K V × Phase V)} {i : Nat}

/-- What is to be written back was read of the table as it is. -/
def Current (t : Table K V) (task : Task K V) (phase : Phase V) : Prop :=
  ∀ k v, task.holds phase = some k → phase = .read v → t k = some v

/-- A step that reads leaves the table and is current; any other finishes its task, as if all
    of it were done now. -/
theorem turn_cases (current : Current t task phase)
    (taken : turn t task phase = some (t', phase')) :
    phase.isDone = false ∧
      ((t' = t ∧ phase'.isDone = false ∧ Current t task phase') ∨
        (phase' = .done ∧ t' = task.apply t ∧ ∀ k, task.writes phase ≠ some k → t' k = t k)) := by
  cases task with
  | idle =>
      cases phase with
      | ready =>
          cases taken
          exact ⟨rfl, .inr ⟨rfl, rfl, fun k _ => rfl⟩⟩
      | read v => cases taken
      | done => cases taken
  | write k v =>
      cases phase with
      | ready =>
          cases taken
          refine ⟨rfl, .inr ⟨rfl, rfl, ?_⟩⟩
          intro k' other
          exact Table.replace_other (fun same => other (congrArg some same.symm)) v
      | read v => cases taken
      | done => cases taken
  | modify k f =>
      cases phase with
      | ready =>
          refine ⟨rfl, ?_⟩
          rw [turn] at taken
          cases there : t k with
          | none =>
              rw [there] at taken
              cases taken
              exact .inr ⟨rfl, by rw [Task.apply, there], fun k _ => rfl⟩
          | some v =>
              rw [there] at taken
              cases taken
              refine .inl ⟨rfl, rfl, ?_⟩
              intro k' w same read
              cases same
              cases read
              exact there
      | read v =>
          have there : t k = some v := current k v rfl rfl
          cases taken
          refine ⟨rfl, .inr ⟨rfl, by rw [Task.apply, there], ?_⟩⟩
          intro k' other
          exact Table.replace_other (fun same => other (congrArg some same.symm)) (f v)
      | done => cases taken

omit [DecidableEq K] in
theorem finished_set (here : threads[i]? = some (task, phase)) (running : phase.isDone = false) :
    (phase'.isDone = false → finished (threads.set i (task, phase')) = finished threads) ∧
    (finished (threads.set i (task, .done))).Perm (task :: finished threads) := by
  induction threads generalizing i with
  | nil => cases here
  | cons thread threads ih =>
      cases i with
      | zero =>
          cases here
          constructor
          · intro still
            simp only [List.set_cons_zero, finished, List.filter_cons, still, running]
            rfl
          · simp only [List.set_cons_zero, finished, List.filter_cons, running]
            exact .refl _
      | succ i =>
          obtain ⟨still, ends⟩ := ih here
          rw [List.set_cons_succ, List.set_cons_succ]
          cases first : thread.2.isDone with
          | false => simpa only [finished, List.filter_cons, first] using ⟨still, ends⟩
          | true =>
              simp only [finished, List.filter_cons, first, if_true, List.map_cons] at still ends ⊢
              exact ⟨fun running' => by rw [still running'], (ends.cons _).trans (.swap _ _ _)⟩

end Steps

/-- The finished tasks, in some order, account for the table, and the others are current. -/
structure Served (t : Table K V) (s : State K V) : Prop where
  serial : ∃ order : List (Task K V), order.Perm (finished s.threads) ∧
    s.table = order.foldl Task.apply t
  current : ∀ (i : Nat) task phase, s.threads[i]? = some (task, phase) → Current s.table task phase

variable {t : Table K V} {s u : State K V} {i : Nat}

omit [DecidableEq K] in
theorem current_set {threads : List (Task K V × Phase V)} {task : Task K V} {phase : Phase V}
    (here : i < threads.length) (own : Current t task phase)
    (others : ∀ (j : Nat) other phase', j ≠ i → threads[j]? = some (other, phase') →
      Current t other phase') :
    ∀ (j : Nat) other phase', (threads.set i (task, phase))[j]? = some (other, phase') →
      Current t other phase' := by
  intro j other phase' found
  by_cases same : i = j
  · subst same
    rw [List.getElem?_set_self here] at found
    cases found
    exact own
  · rw [List.getElem?_set_ne same] at found
    exact others j other phase' (Ne.symm same) found

theorem step_served (served : Served t s) (undisturbed : Undisturbed s i)
    (taken : step s i = some u) : Served t u := by
  obtain ⟨⟨task, phase⟩, here, rest⟩ := Option.bind_eq_some_iff.mp taken
  obtain ⟨⟨table, phase'⟩, turned, result⟩ := Option.bind_eq_some_iff.mp rest
  cases result
  have inside : i < s.threads.length := (List.getElem?_eq_some_iff.mp here).1
  obtain ⟨order, perm, serial⟩ := served.serial
  obtain ⟨running, ⟨same, still, own⟩ | ⟨rfl, whole, others⟩⟩ :=
    turn_cases (served.current i task phase here) turned
  · -- a read
    subst same
    refine ⟨⟨order, ?_, serial⟩, current_set inside own ?_⟩
    · exact (finished_set here running).1 still ▸ perm
    · intro j other phase'' _ found
      exact served.current j other phase'' found
  · -- the end of the task
    refine ⟨⟨order ++ [task], ?_, ?_⟩, current_set inside nofun ?_⟩
    · obtain ⟨_, ends⟩ : (Phase.isDone .done = false → _ = finished s.threads) ∧
          (finished (s.threads.set i (task, .done))).Perm (task :: finished s.threads) :=
        finished_set here running
      exact (List.perm_append_singleton task order).trans ((perm.cons task).trans ends.symm)
    · rw [List.foldl_append, ← serial]
      exact whole
    · intro j other phase'' apart found k v held read
      have kept : task.writes phase ≠ some k := by
        intro written
        exact undisturbed task phase k here written j other phase'' apart found held
      exact (others k kept).trans (served.current j other phase'' found k v held read)

theorem start_served (t : Table K V) (tasks : List (Task K V)) : Served t (start t tasks) := by
  refine ⟨⟨[], ?_, rfl⟩, ?_⟩
  · have none : finished (start t tasks).threads = [] := by
      rw [finished, List.map_eq_nil_iff, List.filter_eq_nil_iff]
      intro thread inside
      obtain ⟨task, -, rfl⟩ := List.mem_map.mp inside
      exact Bool.false_ne_true
    rw [none]
  · intro i task phase found k v held read
    have inside := List.mem_of_getElem? found
    obtain ⟨task', -, same⟩ := List.mem_map.mp inside
    cases same
    cases read

/-- The tasks stay what they are. -/
theorem exec_tasks (run : Transition.exec step s turns = some u) :
    u.threads.map Prod.fst = s.threads.map Prod.fst := by
  apply Transition.exec_invariant (fun v => v.threads.map Prod.fst = s.threads.map Prod.fst)
    ?_ rfl run
  intro v i w same taken
  obtain ⟨⟨task, phase⟩, here, rest⟩ := Option.bind_eq_some_iff.mp taken
  obtain ⟨⟨table, phase'⟩, -, result⟩ := Option.bind_eq_some_iff.mp rest
  cases result
  obtain ⟨inside, found⟩ := List.getElem?_eq_some_iff.mp here
  have within : i < (v.threads.map Prod.fst).length := by rwa [List.length_map]
  have own : (v.threads.map Prod.fst)[i] = task := by rw [List.getElem_map, found]
  rw [← same]
  change (v.threads.set i (task, phase')).map Prod.fst = _
  rw [List.map_set, ← own, List.set_getElem_self]

omit [DecidableEq K] in
theorem finished_all {threads : List (Task K V × Phase V)}
    (ended : ∀ thread ∈ threads, thread.2.isDone = true) :
    finished threads = threads.map Prod.fst := by
  rw [finished, List.filter_eq_self.mpr ended]

/-- A run in which nothing is written in between is serial, in the order of its ends. -/
theorem serial_of_undisturbed (t : Table K V) (tasks : List (Task K V)) (turns : List Nat)
    (undisturbed : Transition.Along step Undisturbed (start t tasks) turns)
    (run : Transition.exec step (start t tasks) turns = some u) :
    ∃ order : List (Task K V), order.Perm (finished u.threads) ∧
      u.table = order.foldl Task.apply t :=
  (Transition.exec_invariant_along (Served t) (fun _ _ _ served here taken =>
    step_served served here taken) (start_served t tasks) undisturbed run).serial

end VanillaRtb.Lib.ReadModifyWrite
