import VanillaRtb.Lib.Draining

/-! # Child processes

`spawn` keeps what `fork` returns, also where it fails: the error is made into an exception that
nobody throws. `wait` takes those of a group that it knows, and reaps whatever child comes until
it has seen all of them. All children have exited here, and the order in which they are reaped
is up to the kernel.
-/

namespace VanillaRtb.Core

open Lib

/-- `sub_procs_`, and the children that are still to be reaped in the order in which they are. -/
structure Process where
  subProcs : Finset Int
  exits : List Int

namespace Process

/-- `spawn`, `forks` being what `fork` returns to the parent. -/
def spawn (subProcs : Finset Int) (forks : List Int) : Finset Int :=
  forks.foldl (fun procs pid => insert pid procs) subProcs

/-- `::wait` -/
def sysWait : List Int → Int × List Int
  | [] => (-1, [])
  | pid :: exits => (pid, exits)

/-- The loop of `wait`, with a unit of fuel for each turn. -/
def waitLoop : Nat → Finset Int → Process → Option Process
  | 0, intersection, p => if intersection = ∅ then some p else none
  | fuel + 1, intersection, p =>
      if intersection = ∅ then
        some p
      else
        let (wpid, exits) := sysWait p.exits
        if wpid < 0 then
          waitLoop fuel intersection ⟨p.subProcs, exits⟩
        else if wpid ∈ intersection then
          waitLoop fuel (intersection.erase wpid) ⟨p.subProcs.erase wpid, exits⟩
        else
          waitLoop fuel intersection ⟨p.subProcs, exits⟩

def wait (fuel : Nat) (subProcs : Finset Int) (p : Process) : Option Process :=
  waitLoop fuel (p.subProcs ∩ subProcs) p

/-- The calls of `wait` that end, one after the other. -/
def Waits : List (Finset Int) → Process → Process → Prop
  | [], p, last => p = last
  | group :: groups, p, last => ∃ fuel next, wait fuel group p = some next ∧ Waits groups next last

end Process

/-- What `fork` returned in all calls of `spawn`: -1, or a child that no other one has the number
of. -/
structure Forks where
  calls : List (List Int)
  child : ∀ pid ∈ calls.flatten, pid = -1 ∨ 0 < pid
  distinct : (calls.flatten.filter (0 < ·)).Nodup

namespace Forks

variable (forks : Forks)

def children : List Int := forks.calls.flatten.filter (0 < ·)

/-- What the last call of `spawn` returns. -/
def subProcs : Finset Int := forks.calls.foldl Process.spawn ∅

end Forks

section Waiting

variable {wanted subProcs : Finset Int} {exits : List Int} {p last : Process}

theorem mem_spawn (forks : List Int) (pid : Int) :
    pid ∈ Process.spawn subProcs forks ↔ pid ∈ subProcs ∨ pid ∈ forks := by
  induction forks generalizing subProcs with
  | nil => simp [Process.spawn]
  | cons fork forks ih =>
      have rest := @ih (insert fork subProcs)
      rw [Process.spawn] at rest ⊢
      rw [List.foldl_cons, rest, Finset.mem_insert, List.mem_cons]
      grind

theorem Forks.mem_subProcs (forks : Forks) (pid : Int) :
    pid ∈ forks.subProcs ↔ pid ∈ forks.calls.flatten := by
  have all (calls : List (List Int)) (before : Finset Int) :
      pid ∈ calls.foldl Process.spawn before ↔ pid ∈ before ∨ pid ∈ calls.flatten := by
    induction calls generalizing before with
    | nil => simp
    | cons call calls ih =>
        rw [List.foldl_cons, ih, mem_spawn, List.flatten_cons, List.mem_append, or_assoc]
  rw [Forks.subProcs, all]
  simp

@[simp] theorem waitLoop_empty (fuel : Nat) (p : Process) :
    Process.waitLoop fuel ∅ p = some p := by
  cases fuel <;> simp [Process.waitLoop]

/-- A turn that reaps a child. -/
theorem waitLoop_reaps (fuel : Nat) {wpid : Int} (some_ : wanted ≠ ∅) (positive : 0 < wpid) :
    Process.waitLoop (fuel + 1) wanted ⟨subProcs, wpid :: exits⟩ =
      Process.waitLoop fuel (wanted.erase wpid)
        ⟨if wpid ∈ wanted then subProcs.erase wpid else subProcs, exits⟩ := by
  have child : ¬ wpid < 0 := by omega
  rw [Process.waitLoop, if_neg some_, Process.sysWait]
  change (if wpid < 0 then _ else _) = _
  rw [if_neg child]
  by_cases asked : wpid ∈ wanted
  · simp [asked]
  · simp [asked]

theorem reaped_sdiff (subProcs wanted : Finset Int) (wpid : Int) :
    (if wpid ∈ wanted then subProcs.erase wpid else subProcs) \ wanted.erase wpid =
      subProcs \ wanted := by
  ext pid
  split <;> grind

theorem mem_erase_queue (wpid : Int) :
    (∀ pid ∈ wanted.erase wpid, pid ∈ exits) ↔ ∀ pid ∈ wanted, pid ∈ wpid :: exits := by
  grind

/-- A loop that ends has seen everything it waited for; a child that was reaped besides is
lost. -/
theorem waitLoop_eq_some {fuel : Nat} (children : ∀ pid ∈ exits, 0 < pid)
    (ended : Process.waitLoop fuel wanted ⟨subProcs, exits⟩ = some last) :
    (∀ pid ∈ wanted, pid ∈ exits) ∧ last = ⟨subProcs \ wanted, drained wanted exits⟩ := by
  induction fuel generalizing wanted subProcs exits with
  | zero =>
      by_cases none_ : wanted = ∅
      · subst none_
        cases ended
        simp [drained_empty]
      · simp [Process.waitLoop, none_] at ended
  | succ fuel ih =>
      by_cases none_ : wanted = ∅
      · subst none_
        cases ended
        simp [drained_empty]
      cases exits with
      | nil =>
          -- `::wait` fails, and the next turn finds everything as it is
          rw [Process.waitLoop, if_neg none_] at ended
          obtain ⟨pid, member⟩ := Finset.nonempty_iff_ne_empty.mpr none_
          cases (ih (by simp) ended).1 pid member
      | cons wpid exits =>
          rw [List.forall_mem_cons] at children
          rw [waitLoop_reaps fuel none_ children.1] at ended
          have rest := ih children.2 ended
          rw [drained, if_neg none_]
          rwa [reaped_sdiff, mem_erase_queue] at rest

/-- The children that are left are fuel enough. -/
theorem waitLoop_ends (children : ∀ pid ∈ exits, 0 < pid) (there : ∀ pid ∈ wanted, pid ∈ exits) :
    Process.waitLoop exits.length wanted ⟨subProcs, exits⟩ =
      some ⟨subProcs \ wanted, drained wanted exits⟩ := by
  induction exits generalizing wanted subProcs with
  | nil =>
      have none_ : wanted = ∅ := Finset.eq_empty_of_forall_notMem fun pid member => by
        cases there pid member
      simp [none_, drained_empty]
  | cons wpid exits ih =>
      by_cases none_ : wanted = ∅
      · simp [none_, drained_empty]
      rw [List.forall_mem_cons] at children
      rw [List.length_cons, waitLoop_reaps _ none_ children.1,
        ih children.2 ((mem_erase_queue wpid).mpr there), reaped_sdiff, drained, if_neg none_]

/-- The calls of `wait` end if and only if each group is served from what the earlier ones have
left. -/
theorem waits_iff_served {groups : List (Finset Int)} (children : ∀ pid ∈ exits, 0 < pid)
    (known : ∀ g ∈ groups, g ⊆ subProcs) (disjoint : groups.Pairwise Disjoint) :
    (∃ last, Process.Waits groups ⟨subProcs, exits⟩ last) ↔ Served groups exits := by
  induction groups generalizing subProcs exits with
  | nil => simp [Process.Waits, Served]
  | cons g groups ih =>
      rw [List.forall_mem_cons] at known
      rw [List.pairwise_cons] at disjoint
      have intersection : subProcs ∩ g = g := Finset.inter_eq_right.mpr known.1
      have left : ∀ pid ∈ drained g exits, 0 < pid := by
        obtain ⟨before, whole⟩ := drained_suffix g exits
        intro pid member
        exact children pid (whole ▸ List.mem_append_right before member)
      have still : ∀ k ∈ groups, k ⊆ subProcs \ g := fun k later =>
        Finset.subset_sdiff.mpr ⟨known.2 k later, (disjoint.1 k later).symm⟩
      rw [Served, ← ih left still disjoint.2]
      constructor
      · rintro ⟨last, fuel, next, ended, rest⟩
        rw [Process.wait, intersection] at ended
        obtain ⟨there, rfl⟩ := waitLoop_eq_some children ended
        exact ⟨there, last, rest⟩
      · rintro ⟨there, last, rest⟩
        refine ⟨last, exits.length, _, ?_, rest⟩
        rw [Process.wait, intersection]
        exact waitLoop_ends children there

/-- What is left in `sub_procs_` is what was in no group. -/
theorem waits_subProcs {groups : List (Finset Int)} (children : ∀ pid ∈ exits, 0 < pid)
    (ended : Process.Waits groups ⟨subProcs, exits⟩ last) (pid : Int) :
    pid ∈ last.subProcs ↔ pid ∈ subProcs ∧ ∀ g ∈ groups, pid ∉ g := by
  induction groups generalizing subProcs exits with
  | nil =>
      cases ended
      simp
  | cons g groups ih =>
      obtain ⟨fuel, next, first, rest⟩ := ended
      obtain ⟨-, rfl⟩ := waitLoop_eq_some children first
      have left : ∀ pid ∈ drained (subProcs ∩ g) exits, 0 < pid := by
        obtain ⟨before, whole⟩ := drained_suffix (subProcs ∩ g) exits
        intro pid member
        exact children pid (whole ▸ List.mem_append_right before member)
      rw [ih left rest]
      grind

end Waiting

/-- All calls of `wait` end, and `sub_procs_` is empty if all children were waited for. -/
def AllWaited (forks : Forks) (groups : List (Finset Int)) (exits : List Int) : Prop :=
  ∃ last, Process.Waits groups ⟨forks.subProcs, exits⟩ last ∧
    ((∀ pid ∈ forks.children, ∃ g ∈ groups, pid ∈ g) → last.subProcs = ∅)

/-- No group has a `fork` that failed in it, no child of a group is reaped before one of an earlier
group, and no `fork` failed if all children are waited for. -/
theorem allWaited_iff (forks : Forks) (groups : List (Finset Int)) (exits : List Int)
    (reaped : exits.Perm forks.children) (returned : ∀ g ∈ groups, g ⊆ forks.subProcs)
    (disjoint : groups.Pairwise Disjoint) :
    AllWaited forks groups exits ↔
      (∀ g ∈ groups, -1 ∉ g) ∧ InTurn exits groups ∧
        ((∀ pid ∈ forks.children, ∃ g ∈ groups, pid ∈ g) → -1 ∉ forks.calls.flatten) := by
  have member (pid : Int) : pid ∈ exits ↔ pid ∈ forks.calls.flatten ∧ 0 < pid := by
    rw [reaped.mem_iff, Forks.children, List.mem_filter, decide_eq_true_iff]
  have children : ∀ pid ∈ exits, 0 < pid := fun pid here => ((member pid).mp here).2
  have nodup : exits.Nodup := reaped.nodup_iff.mpr forks.distinct
  have there : (∀ g ∈ groups, ∀ pid ∈ g, pid ∈ exits) ↔ ∀ g ∈ groups, -1 ∉ g := by
    constructor
    · intro there g asked failed
      have := children (-1) (there g asked (-1) failed)
      omega
    · intro none_ g asked pid inside
      have spawned := (forks.mem_subProcs pid).mp (returned g asked inside)
      rcases forks.child pid spawned with rfl | positive
      · exact absurd inside (none_ g asked)
      · exact (member pid).mpr ⟨spawned, positive⟩
  have ends := waits_iff_served children returned disjoint
  rw [served_iff nodup disjoint, there] at ends
  constructor
  · rintro ⟨last, ended, cleared⟩
    obtain ⟨none_, turns⟩ := ends.mp ⟨last, ended⟩
    refine ⟨none_, turns, ?_⟩
    intro all failed
    have left := (waits_subProcs children ended (-1)).mpr
      ⟨(forks.mem_subProcs (-1)).mpr failed, none_⟩
    rw [cleared all] at left
    cases left
  · rintro ⟨none_, turns, succeeded⟩
    obtain ⟨last, ended⟩ := ends.mpr ⟨none_, turns⟩
    refine ⟨last, ended, ?_⟩
    intro all
    apply Finset.eq_empty_of_forall_notMem
    intro pid left
    obtain ⟨kept, out⟩ := (waits_subProcs children ended pid).mp left
    have spawned := (forks.mem_subProcs pid).mp kept
    rcases forks.child pid spawned with rfl | positive
    · exact succeeded all spawned
    · have child : pid ∈ forks.children := reaped.mem_iff.mp ((member pid).mpr ⟨spawned, positive⟩)
      obtain ⟨g, asked, inside⟩ := all pid child
      exact out g asked inside

/-- Two children, spawned by one call. -/
def twoChildren : Forks := ⟨[[7, 8]], by decide, by decide⟩

theorem allWaited_twoChildren : AllWaited twoChildren [{7}, {8}] [7, 8] := by
  apply (allWaited_iff twoChildren [{7}, {8}] [7, 8] (by decide) (by decide) (by decide)).mpr
  refine ⟨by decide, ?_, by decide⟩
  unfold InTurn
  decide

/-- The first call of `wait` reaps the child of the second one, which never ends. -/
theorem foreign_child_reaped :
    [8, 7].Perm twoChildren.children ∧ (∀ g ∈ [{7}, {8}], g ⊆ twoChildren.subProcs) ∧
      ([{7}, {8}] : List (Finset Int)).Pairwise Disjoint ∧
      ¬ AllWaited twoChildren [{7}, {8}] [8, 7] := by
  refine ⟨by decide, by decide, by decide, ?_⟩
  rintro ⟨last, ended, -⟩
  have served := (waits_iff_served (by decide) (by decide) (by decide)).mp ⟨last, ended⟩
  exact absurd (served.2.1 8 (by decide)) (by decide)

end VanillaRtb.Core
