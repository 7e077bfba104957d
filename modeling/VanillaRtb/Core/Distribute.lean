import VanillaRtb.Lib.Pipes
import VanillaRtb.Lib.Transition
import VanillaRtb.StdString

/-! # Handing values out to child processes

`spawn_exec` gives each child a pipe to read from, and `distribute` writes the values to the pipes
in turn and closes them. A child has been forked with the write ends of all pipes before its own
and keeps them, so that a child comes to the end of its input only after all later ones have
exited.
-/

namespace VanillaRtb.Core

open Lib
open Lib.Transition

inductive Proc where
  | parent
  | child (k : Nat)
  deriving DecidableEq

namespace Proc

/-- A turn of the loop of `spawn_exec`, where `pipe`, `fork` and `execvp` do not fail. -/
def spawnChild (s : Pipes Proc) (k : Nat) : Pipes Proc :=
  let s := (s.open_ .parent).fork .parent (.child k)
  let s := (s.close (.child k) (.write k)).dup (.child k) (.read k)
  s.close .parent (.read k)

/-- `spawn_exec` of `n` children. -/
def spawnExec (n : Nat) : Pipes Proc := (List.range n).foldl spawnChild {}

/-- What each process holds after it. -/
def held (n : Nat) : Proc → List PipeEnd
  | .parent => (List.range n).map .write
  | .child k =>
      if k < n then (List.range k).map .write ++ [.read k, .read k] else []

theorem spawnExec_eq (n : Nat) : spawnExec n = { ends := held n, made := n } := by
  induction n with
  | zero =>
      rw [spawnExec, List.range_zero, List.foldl_nil, Pipes.mk.injEq]
      refine ⟨?_, rfl, rfl⟩
      funext p
      cases p <;> rfl
  | succ n ih =>
      have step : spawnExec (n + 1) = spawnChild (spawnExec n) n := by
        rw [spawnExec, List.range_succ, List.foldl_append]
        rfl
      have noRead : PipeEnd.read n ∉ (List.range n).map PipeEnd.write := by simp
      have noWrite : PipeEnd.write n ∉ (List.range n).map PipeEnd.write := by simp
      rw [step, ih, Pipes.mk.injEq]
      refine ⟨?_, rfl, rfl⟩
      funext p
      cases p with
      | parent =>
          simp [spawnChild, Pipes.open_, held, List.range_succ, List.erase_append_right _ noRead]
      | child k =>
          by_cases new : k = n
          · subst new
            simp [spawnChild, Pipes.open_, held, List.erase_append_right _ noWrite]
          · have same : k < n + 1 ↔ k < n := by omega
            simp [spawnChild, Pipes.open_, held, new, same]

end Proc

/-- The pipes that `distribute` writes the values to, each with its value; nothing where `at`
    throws. -/
def rounds (subPipes : List Nat) : Nat → List StdString → Option (List (Nat × StdString))
  | _, [] => some []
  | n, value :: values => do
      let fd ← subPipes[n]?
      let later ← rounds subPipes (if n + 1 ≥ subPipes.length then 0 else n + 1) values
      pure ((fd, value) :: later)

/-- The bytes of the values at the positions that have this remainder. -/
def share (n k : Nat) (values : List StdString) : StdString :=
  (values.zipIdx.filter fun v => v.2 % n = k).flatMap Prod.fst

/-- What is to be written to a pipe. -/
def meant (k : Nat) (writes : List (Nat × StdString)) : StdString :=
  (writes.filter fun w => w.1 = k).flatMap Prod.snd

section Rounds

variable {n : Nat}

theorem rounds_range (some_ : 0 < n) (values : List StdString) (i : Nat) :
    rounds (List.range n) (i % n) values =
      some ((values.zipIdx i).map fun v => (v.2 % n, v.1)) := by
  induction values generalizing i with
  | nil => rfl
  | cons value values ih =>
      have below := Nat.mod_lt i some_
      have next : (if i % n + 1 ≥ (List.range n).length then 0 else i % n + 1) = (i + 1) % n := by
        rw [List.length_range, ← Nat.mod_add_mod]
        split
        next last =>
          have whole : i % n + 1 = n := by omega
          rw [whole, Nat.mod_self]
        next more => exact (Nat.mod_eq_of_lt (by omega)).symm
      rw [rounds, next, ih, List.getElem?_range below]
      rfl

theorem meant_rounds (values : List StdString) (k : Nat) :
    meant k (values.zipIdx.map fun v => (v.2 % n, v.1)) = share n k values := by
  rw [meant, share, List.filter_map, List.flatMap_map]
  rfl

end Rounds

/-- `distribute` under way: the bytes still to be written, each with its pipe, and the pipes to be
    closed after that. A child reads its input to the end and exits. -/
structure Distribution where
  pipes : Pipes Proc
  todo : List (Nat × UInt8)
  closing : List Nat
  received : Nat → StdString := fun _ => []
  exited : List Nat := []
  killed : Bool := false

namespace Distribution

/-- `distribute` of the values to the pipes of `n` children. -/
def start (n : Nat) (values : List StdString) : Option Distribution :=
  (rounds (List.range n) 0 values).map fun writes =>
    { pipes := Proc.spawnExec n
      todo := writes.flatMap fun w => w.2.map fun byte => (w.1, byte)
      closing := List.range n }

def procs (s : Distribution) : List Proc := .parent :: (List.range s.pipes.made).map .child

inductive Turn where
  | write
  | close
  | read (k count : Nat)
  | finish (k : Nat)

/-- A pipe has room for `capacity` bytes. A write to one that no process can read kills the writer. -/
def step (capacity : Nat) (s : Distribution) : Turn → Option Distribution
  | .write =>
      match s.todo with
      | [] => none
      | (k, byte) :: rest =>
          if s.killed then none
          else if ¬ s.pipes.HeldBy (.read k) s.procs then
            some { s with pipes := s.pipes.exit .parent, killed := true }
          else if (s.pipes.content k).length < capacity then
            some { s with pipes := s.pipes.write k [byte], todo := rest }
          else none
  | .close =>
      match s.todo, s.closing with
      | [], k :: rest =>
          if s.killed then none
          else some { s with pipes := s.pipes.close .parent (.write k), closing := rest }
      | _, _ => none
  | .read k count =>
      if .read k ∈ s.pipes.ends (.child k) ∧ 0 < count ∧ count ≤ (s.pipes.content k).length then
        some { s with
          pipes := s.pipes.read k count
          received := Function.update s.received k
            (s.received k ++ (s.pipes.content k).take count) }
      else none
  | .finish k =>
      if .read k ∈ s.pipes.ends (.child k) ∧ s.pipes.content k = [] ∧
          ¬ s.pipes.HeldBy (.write k) s.procs then
        some { s with pipes := s.pipes.exit (.child k), exited := s.exited ++ [k] }
      else none

/-- What a turn does. -/
inductive Step (capacity : Nat) (s : Distribution) : Turn → Distribution → Prop where
  | kill (next : s.todo = (k, byte) :: rest) (alive : s.killed = false)
      (nobody : ¬ s.pipes.HeldBy (.read k) s.procs) :
      Step capacity s .write { s with pipes := s.pipes.exit .parent, killed := true }
  | write (next : s.todo = (k, byte) :: rest) (alive : s.killed = false)
      (reader : s.pipes.HeldBy (.read k) s.procs) (room : (s.pipes.content k).length < capacity) :
      Step capacity s .write { s with pipes := s.pipes.write k [byte], todo := rest }
  | close (written : s.todo = []) (next : s.closing = k :: rest) (alive : s.killed = false) :
      Step capacity s .close
        { s with pipes := s.pipes.close .parent (.write k), closing := rest }
  | read (reader : .read k ∈ s.pipes.ends (.child k)) (some_ : 0 < count)
      (there : count ≤ (s.pipes.content k).length) :
      Step capacity s (.read k count) { s with
        pipes := s.pipes.read k count
        received := Function.update s.received k
          (s.received k ++ (s.pipes.content k).take count) }
  | finish (reader : .read k ∈ s.pipes.ends (.child k)) (empty : s.pipes.content k = [])
      (nobody : ¬ s.pipes.HeldBy (.write k) s.procs) :
      Step capacity s (.finish k)
        { s with pipes := s.pipes.exit (.child k), exited := s.exited ++ [k] }

section Turns

variable {capacity : Nat} {s t : Distribution} {turn : Turn}

theorem step_cases (taken : s.step capacity turn = some t) : Step capacity s turn t := by
  cases turn with
  | write =>
      cases next : s.todo with
      | nil => simp [step, next] at taken
      | cons w rest =>
          obtain ⟨k, byte⟩ := w
          simp only [step, next] at taken
          split at taken
          next => cases taken
          next alive =>
            rw [Bool.not_eq_true] at alive
            split at taken
            next nobody =>
              have shape := Option.some.inj taken
              rw [← next] at shape
              exact shape ▸ .kill next alive nobody
            next reader =>
              split at taken
              next room => exact Option.some.inj taken ▸ .write next alive (not_not.mp reader) room
              next => cases taken
  | close =>
      simp only [step] at taken
      split at taken
      next k rest written next =>
        split at taken
        next => cases taken
        next alive => exact Option.some.inj taken ▸ .close written next (by simpa using alive)
      next => cases taken
  | read k count =>
      simp only [step] at taken
      split at taken
      next can => exact Option.some.inj taken ▸ .read can.1 can.2.1 can.2.2
      next => cases taken
  | finish k =>
      simp only [step] at taken
      split at taken
      next can => exact Option.some.inj taken ▸ .finish can.1 can.2.1 can.2.2
      next => cases taken

end Turns

/-- The bytes of a pipe among those still to be written. -/
def bytesFor (k : Nat) (todo : List (Nat × UInt8)) : StdString :=
  (todo.filter fun w => w.1 = k).map Prod.snd

/-- The first `alive` of `n` children are running. What each has read, what is in its pipe and
    what is to be written to it make up its share. -/
structure Running (n : Nat) (values : List StdString) (s : Distribution) (alive : Nat) : Prop where
  alive_le : alive ≤ n
  sound : s.killed = false
  made : s.pipes.made = n
  parent : s.pipes.ends .parent = s.closing.map .write
  children : ∀ k, s.pipes.ends (.child k) = if k < alive then Proc.held n (.child k) else []
  exited : s.exited = ((List.range n).drop alive).reverse
  closing : s.closing <:+ List.range n
  writing : s.todo ≠ [] → s.closing = List.range n
  known : ∀ w ∈ s.todo, w.1 < n
  ended : ∀ k, alive ≤ k → k ∉ s.closing ∧ s.pipes.content k = []
  shares : ∀ k < n, s.received k ++ (s.pipes.content k ++ bytesFor k s.todo) = share n k values

section Invariant

variable {capacity n alive k : Nat} {values : List StdString} {s t : Distribution} {turn : Turn}

theorem bytesFor_append (k : Nat) (todo more : List (Nat × UInt8)) :
    bytesFor k (todo ++ more) = bytesFor k todo ++ bytesFor k more := by
  simp [bytesFor]

theorem bytesFor_writes (k : Nat) (writes : List (Nat × StdString)) :
    bytesFor k (writes.flatMap fun w => w.2.map fun byte => (w.1, byte)) = meant k writes := by
  induction writes with
  | nil => rfl
  | cons w writes ih =>
      rw [List.flatMap_cons, bytesFor_append, ih, bytesFor, List.filter_map]
      by_cases own : w.1 = k
      · simp [meant, own, Function.comp_def]
      · simp [meant, own, Function.comp_def]

theorem start_running (some_ : 0 < n) (values : List StdString) :
    ∃ s, start n values = some s ∧ Running n values s n := by
  have writes : rounds (List.range n) 0 values =
      some (values.zipIdx.map fun v => (v.2 % n, v.1)) := by
    have whole := rounds_range some_ values 0
    rwa [Nat.zero_mod] at whole
  refine ⟨_, by rw [start, writes]; rfl, le_rfl, rfl, ?_, ?_, ?_, ?_, List.suffix_refl _,
    fun _ => rfl, ?_, ?_, ?_⟩
  · rw [Proc.spawnExec_eq]
  · rw [Proc.spawnExec_eq]
    rfl
  · intro k
    rw [Proc.spawnExec_eq]
    by_cases below : k < n <;> simp [Proc.held, below]
  · simp
  · intro w inside
    simp only [List.mem_flatMap, List.mem_map] at inside
    obtain ⟨_, ⟨v, -, rfl⟩, byte, -, rfl⟩ := inside
    exact Nat.mod_lt _ some_
  · intro k beyond
    rw [Proc.spawnExec_eq]
    exact ⟨by simpa using beyond, rfl⟩
  · intro k below
    rw [Proc.spawnExec_eq, bytesFor_writes, meant_rounds]
    rfl

/-- A child that runs reads from its own pipe. -/
theorem Running.reader_iff (running : Running n values s alive) :
    .read k ∈ s.pipes.ends (.child k) ↔ k < alive := by
  rw [running.children k]
  by_cases below : k < alive
  · have known : k < n := lt_of_lt_of_le below running.alive_le
    simp [Proc.held, below, known]
  · simp [below]

/-- The last child that runs is the only one that can be at its end. -/
theorem Running.unheld (running : Running n values s alive) (below : k < alive)
    (nobody : ¬ s.pipes.HeldBy (.write k) s.procs) : alive = k + 1 ∧ k ∉ s.closing := by
  constructor
  · by_contra more
    have later : k + 1 < alive := by omega
    have known : k + 1 < n := lt_of_lt_of_le later running.alive_le
    apply nobody
    refine ⟨.child (k + 1), ?_, ?_⟩
    · simp [procs, running.made, known]
    · rw [running.children, if_pos later]
      simp [Proc.held, known]
  · intro inside
    apply nobody
    refine ⟨.parent, List.mem_cons_self, ?_⟩
    rw [running.parent]
    exact List.mem_map_of_mem inside

/-- While there is something to be written all children are running. -/
theorem Running.all (running : Running n values s alive) (some_ : s.todo ≠ []) : alive = n := by
  by_contra fewer
  have below : alive < n := lt_of_le_of_ne running.alive_le fewer
  apply (running.ended alive le_rfl).1
  rw [running.writing some_]
  exact List.mem_range.mpr below

theorem Running.readable (running : Running n values s alive)
    (next : s.todo = (k, byte) :: rest) : s.pipes.HeldBy (.read k) s.procs := by
  have all := running.all (by simp [next])
  have below : k < n := running.known (k, byte) (by simp [next])
  refine ⟨.child k, ?_, running.reader_iff.mpr (by omega)⟩
  simp [procs, running.made, below]

theorem Running.step (running : Running n values s alive)
    (taken : s.step capacity turn = some t) :
    ∃ alive', Running n values t alive' := by
  cases step_cases taken with
  | kill next sound nobody => exact absurd (running.readable next) nobody
  | @write k byte rest next sound reader room =>
      have all := running.all (by simp [next])
      have below : k < n := running.known (k, byte) (by simp [next])
      refine ⟨alive, running.alive_le, sound, running.made, running.parent, running.children,
        running.exited, running.closing, fun _ => running.writing (by simp [next]), ?_, ?_, ?_⟩
      · intro w inside
        exact running.known w (next ▸ List.mem_cons_of_mem _ inside)
      · intro j beyond
        have other : j ≠ k := by omega
        simpa [Pipes.write, other] using running.ended j beyond
      · intro j known
        rw [← running.shares j known, next]
        by_cases same : j = k
        · subst same
          simp [Pipes.write, bytesFor]
        · simp [Pipes.write, bytesFor, same, Ne.symm same]
  | @close k rest written next sound =>
      refine ⟨alive, running.alive_le, sound, running.made, ?_, ?_, running.exited, ?_, ?_, ?_, ?_, ?_⟩
      · simp [running.parent, next]
      · intro j
        simpa using running.children j
      · exact (List.suffix_cons k rest).trans (next ▸ running.closing)
      · intro more
        exact absurd written more
      · exact running.known
      · intro j beyond
        obtain ⟨open_, empty⟩ := running.ended j beyond
        rw [next] at open_
        exact ⟨fun inside => open_ (List.mem_cons_of_mem _ inside), empty⟩
      · exact running.shares
  | @read k count reader some_ there =>
      have below : k < alive := running.reader_iff.mp reader
      refine ⟨alive, running.alive_le, running.sound, running.made, running.parent,
        running.children, running.exited, running.closing, running.writing, running.known, ?_, ?_⟩
      · intro j beyond
        have other : j ≠ k := by omega
        simpa [Pipes.read, other] using running.ended j beyond
      · intro j known
        rw [← running.shares j known]
        by_cases same : j = k
        · subst same
          simp only [Pipes.read, Function.update_self, List.append_assoc]
          rw [← List.append_assoc _ _ (bytesFor j s.todo), List.take_append_drop]
        · simp [Pipes.read, same]
  | @finish k reader empty nobody =>
      have below : k < alive := running.reader_iff.mp reader
      obtain ⟨last, closed⟩ := running.unheld below nobody
      subst last
      have known : k < n := running.alive_le
      refine ⟨k, known.le, running.sound, running.made, ?_, ?_, ?_, running.closing, running.writing,
        running.known, ?_, running.shares⟩
      · simpa using running.parent
      · intro j
        by_cases same : j = k
        · simp [same]
        · have lower : j < k + 1 ↔ j < k := by omega
          simpa [same, lower] using running.children j
      · have tail : (List.range n).drop k = k :: (List.range n).drop (k + 1) := by
          rw [List.drop_eq_getElem_cons (by simpa using known), List.getElem_range]
        rw [tail, List.reverse_cons, ← running.exited]
      · intro j beyond
        by_cases same : j = k
        · subst same
          exact ⟨closed, empty⟩
        · exact running.ended j (by omega)

/-- What is in the pipes. -/
def unread (n : Nat) (content : Nat → StdString) : Nat := ∑ k ∈ Finset.range n, (content k).length

theorem unread_update (content : Nat → StdString) (below : k < n) (bytes : StdString) :
    unread n (Function.update content k bytes) + (content k).length =
      unread n content + bytes.length := by
  have inside : k ∈ Finset.range n := Finset.mem_range.mpr below
  have others : ∑ j ∈ (Finset.range n).erase k, (Function.update content k bytes j).length =
      ∑ j ∈ (Finset.range n).erase k, (content j).length := by
    apply Finset.sum_congr rfl
    intro j other
    rw [Function.update_of_ne (Finset.ne_of_mem_erase other)]
  rw [unread, unread, ← Finset.add_sum_erase _ _ inside, ← Finset.add_sum_erase _ _ inside, others,
    Function.update_self]
  omega

/-- A byte is written and read, pipes are closed and children exit. -/
def weight (n : Nat) (s : Distribution) : Nat :=
  3 * s.todo.length + s.closing.length + 2 * unread n s.pipes.content + (n - s.exited.length)

theorem Running.weight_lt (running : Running n values s alive)
    (taken : s.step capacity turn = some t) : t.weight n < s.weight n := by
  have exited : s.exited.length = n - alive := by
    rw [running.exited, List.length_reverse, List.length_drop, List.length_range]
  cases step_cases taken with
  | kill next sound nobody => exact absurd (running.readable next) nobody
  | @write k byte rest next sound reader room =>
      have below : k < n := running.known (k, byte) (by simp [next])
      have more := unread_update s.pipes.content below (s.pipes.content k ++ [byte])
      rw [List.length_append, List.length_singleton] at more
      simp only [weight, next, Pipes.write, List.length_cons]
      omega
  | close written next sound =>
      simp only [weight, next, Pipes.close, List.length_cons]
      omega
  | @read k count reader some_ there =>
      have below : k < n := lt_of_lt_of_le (running.reader_iff.mp reader) running.alive_le
      have less := unread_update s.pipes.content below ((s.pipes.content k).drop count)
      rw [List.length_drop] at less
      simp only [weight, Pipes.read]
      omega
  | @finish k reader empty nobody =>
      have below := running.reader_iff.mp reader
      have atMost := running.alive_le
      simp only [weight, Pipes.exit, List.length_append, List.length_singleton]
      omega

/-- As long as a child is running there is something that can be done. -/
theorem Running.next (running : Running n values s alive) (room : 0 < capacity)
    (some_ : 0 < alive) : ∃ turn t, s.step capacity turn = some t := by
  have reads {k : Nat} (below : k < alive) (there : s.pipes.content k ≠ []) :
      ∃ turn t, s.step capacity turn = some t := by
    have positive := List.length_pos_iff.mpr there
    exact ⟨.read k (s.pipes.content k).length, _,
      if_pos ⟨running.reader_iff.mpr below, positive, le_rfl⟩⟩
  cases next : s.todo with
  | cons w rest =>
      obtain ⟨k, byte⟩ := w
      by_cases fits : (s.pipes.content k).length < capacity
      · refine ⟨.write, { s with pipes := s.pipes.write k [byte], todo := rest }, ?_⟩
        simp [Distribution.step, next, running.sound, running.readable next, fits]
      · have all := running.all (by simp [next])
        have below : k < n := running.known (k, byte) (by simp [next])
        apply reads (all ▸ below)
        intro empty
        exact fits (by simpa [empty] using room)
  | nil =>
      cases closing : s.closing with
      | cons k rest =>
          refine ⟨.close,
            { s with pipes := s.pipes.close .parent (.write k), closing := rest }, ?_⟩
          simp [Distribution.step, next, closing, running.sound]
      | nil =>
          obtain ⟨k, rfl⟩ := Nat.exists_eq_add_of_lt some_
          rw [Nat.zero_add] at running
          by_cases empty : s.pipes.content k = []
          · refine ⟨.finish k, _, if_pos ⟨running.reader_iff.mpr (Nat.lt_succ_self k), empty, ?_⟩⟩
            rintro ⟨p, -, holds⟩
            cases p with
            | parent => simp [running.parent, closing] at holds
            | child j =>
                rw [running.children] at holds
                by_cases below : j < k + 1
                · have known : j < n := lt_of_lt_of_le below running.alive_le
                  simp [below, Proc.held, known] at holds
                  omega
                · simp [below] at holds
          · exact reads (by omega) empty

theorem Running.ends (running : Running n values s alive) (room : 0 < capacity) :
    ∃ later t, exec (Distribution.step capacity) s later = some t ∧ Running n values t 0 := by
  induction weight : s.weight n using Nat.strong_induction_on generalizing s alive with
  | _ weight_ ih =>
      by_cases done : alive = 0
      · exact ⟨[], s, rfl, done ▸ running⟩
      · obtain ⟨turn, u, taken⟩ := running.next room (Nat.pos_of_ne_zero done)
        obtain ⟨alive', after⟩ := running.step taken
        have less := running.weight_lt taken
        obtain ⟨later, t, run, ended⟩ := ih _ (weight ▸ less) after rfl
        exact ⟨turn :: later, t, exec_cons.mpr ⟨u, taken, run⟩, ended⟩

theorem Running.run (running : Running n values s alive)
    (run : exec (Distribution.step capacity) s turns = some t) :
    (∃ alive', Running n values t alive') ∧ turns.length + t.weight n ≤ s.weight n := by
  induction turns generalizing s alive with
  | nil =>
      cases run
      exact ⟨⟨alive, running⟩, (Nat.zero_add _).le⟩
  | cons turn turns ih =>
      obtain ⟨u, taken, later⟩ := exec_cons.mp run
      obtain ⟨alive', after⟩ := running.step taken
      have less := running.weight_lt taken
      obtain ⟨last, bound⟩ := ih after later
      refine ⟨last, ?_⟩
      rw [List.length_cons]
      omega

/-- A child that is not running has come to its end. -/
theorem Running.shared (running : Running n values s alive) (known : k < n) (beyond : alive ≤ k) :
    s.received k = share n k values := by
  obtain ⟨closed, empty⟩ := running.ended k beyond
  have written : s.todo = [] := by
    by_contra some_
    apply closed
    rw [running.writing some_]
    exact List.mem_range.mpr known
  have whole := running.shares k known
  rwa [empty, written, bytesFor, List.filter_nil, List.map_nil, List.append_nil,
    List.append_nil] at whole

end Invariant

/-- In whatever order the parent writes and the children read: the children exit in the reverse
    order of their forks, each when it has read its share and nothing else, and the parent is not
    killed. -/
theorem finished_reversed {capacity n : Nat} {values : List StdString} {turns : List Turn}
    {first s : Distribution} (some_ : 0 < n) (begun : start n values = some first)
    (run : exec (step capacity) first turns = some s) :
    s.killed = false ∧ s.exited <+: (List.range n).reverse ∧
      (∀ k ∈ s.exited, s.received k = share n k values) ∧
        ∀ k < n, s.received k <+: share n k values := by
  obtain ⟨first', again, running⟩ := start_running some_ values
  obtain rfl := Option.some.inj (begun.symm.trans again)
  obtain ⟨⟨alive, last⟩, -⟩ := running.run run
  refine ⟨last.sound, ?_, ?_, ?_⟩
  · rw [last.exited]
    refine ⟨((List.range n).take alive).reverse, ?_⟩
    rw [← List.reverse_append, List.take_append_drop]
  · intro k inside
    rw [last.exited, List.mem_reverse] at inside
    obtain ⟨i, below, rfl⟩ := List.mem_iff_getElem.mp inside
    have known : alive + i < n := by
      rw [List.length_drop, List.length_range] at below
      omega
    rw [List.getElem_drop, List.getElem_range]
    exact last.shared known (Nat.le_add_right _ _)
  · intro k known
    rw [← last.shares k known]
    exact List.prefix_append _ _

/-- Three values handed out to two children. -/
def handingOut : List Turn :=
  [.write, .write, .read 0 1, .write, .close, .close, .read 1 1, .finish 1, .read 0 1, .finish 0]

theorem finished_reversed_two :
    ∃ first s, start 2 [[97], [98], [99]] = some first ∧
      exec (step 1) first handingOut = some s ∧
      s.exited = [1, 0] ∧
      (s.killed = false ∧ s.exited <+: (List.range 2).reverse ∧
        (∀ k ∈ s.exited, s.received k = share 2 k [[97], [98], [99]]) ∧
          ∀ k < 2, s.received k <+: share 2 k [[97], [98], [99]]) :=
  ⟨_, _, rfl, rfl, rfl, @finished_reversed 1 2 _ handingOut _ _ Nat.two_pos rfl rfl⟩

/-- No run goes on for ever, and from wherever it has come, it can go on until all children have
    exited. -/
theorem distribution_ends {capacity n : Nat} {values : List StdString} {first : Distribution}
    (room : 0 < capacity) (some_ : 0 < n) (begun : start n values = some first) :
    ∃ bound, ∀ turns s, exec (step capacity) first turns = some s → turns.length ≤ bound ∧
      ∃ later t, exec (step capacity) s later = some t ∧ t.exited = (List.range n).reverse := by
  obtain ⟨first', again, running⟩ := start_running some_ values
  obtain rfl := Option.some.inj (begun.symm.trans again)
  refine ⟨first.weight n, ?_⟩
  intro turns s run
  obtain ⟨⟨alive, last⟩, bound⟩ := running.run run
  obtain ⟨later, t, rest, done⟩ := last.ends room
  exact ⟨by omega, later, t, rest, done.exited⟩

theorem distribution_ends_two :
    ∃ first, start 2 [[97], [98], [99]] = some first ∧
      ∃ bound, ∀ turns s, exec (step 1) first turns = some s → turns.length ≤ bound ∧
        ∃ later t, exec (step 1) s later = some t ∧ t.exited = (List.range 2).reverse :=
  ⟨_, rfl, @distribution_ends 1 2 [[97], [98], [99]] _ Nat.one_pos Nat.two_pos rfl⟩

end Distribution

end VanillaRtb.Core
