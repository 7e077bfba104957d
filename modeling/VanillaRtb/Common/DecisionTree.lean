import Mathlib

/-! # Decision trees

The rows of a tree are an array. Each holds an action and, for either result of it, where to go
on: a code ends the execution or asks for the row below, any other number is the index of a row.
An action reads and changes whatever its arguments give it, and it may throw.
-/

namespace VanillaRtb.Common

structure DecisionAction (σ ε : Type) where
  rowNum : UInt32
  f : σ → Except ε Bool × σ
  nextTrue : Int32
  nextFalse : Int32

def EXIT : Int32 := -1

def CONTINUE : Int32 := 0

inductive Failure (ε : Type) where
  | action (e : ε)
  | outOfRange
  deriving DecidableEq

/-- What is left of an execution that has ended, with the rows whose actions were called. -/
structure Execution (σ ε : Type) where
  ran : List UInt32
  state : σ
  failure : Option (Failure ε)

abbrev DecisionTree (N : Nat) (σ ε : Type) := Vector (DecisionAction σ ε) N

variable {N : Nat} {σ ε : Type}

namespace DecisionAction

variable (row : DecisionAction σ ε)

def get (res : Bool) : Int32 := if res then row.nextTrue else row.nextFalse

/-- `operator()` -/
def call (s : σ) : Except ε Int32 × σ := ((row.f s).1.map row.get, (row.f s).2)

/-- The index that `next` hands to `tree.at`, as a `size_t`; none where it returns. -/
def following (code : Int32) : Option Nat :=
  if code = CONTINUE then
    some (row.rowNum + 1).toNat
  else if code ≠ EXIT then
    some (code.toInt % 2 ^ 64).toNat
  else
    none

end DecisionAction

def Execution.after (row : DecisionAction σ ε) (rest : Execution σ ε) : Execution σ ε :=
  { rest with ran := row.rowNum :: rest.ran }

structure DecisionTreeManager (N : Nat) (σ ε : Type) where
  tree : DecisionTree N σ ε

namespace DecisionTreeManager

/-- Each call of `next` takes one unit of fuel. -/
def next (manager : DecisionTreeManager N σ ε) :
    Nat → DecisionAction σ ε → σ → Option (Execution σ ε)
  | 0, _, _ => none
  | fuel + 1, actionNow, s =>
      match actionNow.call s with
      | (.error e, s') => some ⟨[actionNow.rowNum], s', some (.action e)⟩
      | (.ok code, s') =>
          match actionNow.following code with
          | none => some ⟨[actionNow.rowNum], s', none⟩
          | some i =>
              match manager.tree[i]? with
              | none => some ⟨[actionNow.rowNum], s', some .outOfRange⟩
              | some row => (manager.next fuel row s').map (.after actionNow)

def execute (manager : DecisionTreeManager N σ ε) (fuel : Nat) (s : σ) :
    Option (Execution σ ε) :=
  match manager.tree[0]? with
  | none => some ⟨[], s, some .outOfRange⟩
  | some row => manager.next fuel row s

end DecisionTreeManager

structure Router (N : Nat) (σ ε : Type) where
  decisionTree : DecisionTree N σ ε
  manager : DecisionTreeManager N σ ε

namespace Router

def make (tree : DecisionTree N σ ε) : Router N σ ε := ⟨tree, ⟨tree⟩⟩

def execute (router : Router N σ ε) (fuel : Nat) (s : σ) : Option (Execution σ ε) :=
  router.manager.execute fuel s

end Router

/-- Row `i` is numbered `i`, and names no row that is not below it. -/
structure Forward (tree : DecisionTree N σ ε) : Prop where
  numbered : ∀ {i : Nat} {row : DecisionAction σ ε}, tree[i]? = some row → row.rowNum.toNat = i
  leads : ∀ {i : Nat} {row : DecisionAction σ ε}, tree[i]? = some row → ∀ res : Bool,
    row.get res = EXIT ∨ (row.get res = CONTINUE ∧ i + 1 ≠ N) ∨
      ∃ j < N, i < j ∧ (row.get res).toInt = (j : Int)

/-- What a code in row `i` stands for: the row below, or the one it names. -/
inductive Selects : Int32 → Nat → Nat → Prop where
  | below {i : Nat} : Selects CONTINUE i (i + 1)
  | named {code : Int32} {i j : Nat} (index : code.toInt = (j : Int)) (other : code ≠ CONTINUE) :
      Selects code i j

/-- The rows that the results of the actions select, the first at `i`, with the state they leave
and what the last one throws. -/
inductive Path (tree : DecisionTree N σ ε) : Nat → σ → List Nat → σ → Option ε → Prop where
  | threw {i : Nat} {row : DecisionAction σ ε} {s s' : σ} {e : ε} (here : tree[i]? = some row)
      (called : row.f s = (.error e, s')) : Path tree i s [i] s' (some e)
  | exited {i : Nat} {row : DecisionAction σ ε} {s s' : σ} {res : Bool}
      (here : tree[i]? = some row) (called : row.f s = (.ok res, s'))
      (code : row.get res = EXIT) : Path tree i s [i] s' none
  | on {i j : Nat} {row : DecisionAction σ ε} {s s' last : σ} {res : Bool} {rows : List Nat}
      {thrown : Option ε} (here : tree[i]? = some row) (called : row.f s = (.ok res, s'))
      (selected : Selects (row.get res) i j) (rest : Path tree j s' rows last thrown) :
      Path tree i s (i :: rows) last thrown

section Running

variable {tree : DecisionTree N σ ε} {i j : Nat} {row : DecisionAction σ ε} {s s' : σ}

theorem toInt_exit : EXIT.toInt = -1 := by decide

theorem Selects.not_exit {code : Int32} (selected : Selects code i j) : code ≠ EXIT := by
  cases selected with
  | below => decide
  | named index other =>
      intro same
      rw [same, toInt_exit] at index
      omega

theorem Forward.selects (forward : Forward tree) (here : tree[i]? = some row) (res : Bool) :
    row.get res = EXIT ∨ ∃ j, Selects (row.get res) i j ∧ j < N := by
  have inside : i < N := (Vector.getElem?_eq_some_iff.mp here).1
  rcases forward.leads here res with exit | ⟨same, notLast⟩ | ⟨j, below, later, index⟩
  · exact .inl exit
  · exact .inr ⟨i + 1, same ▸ .below, by omega⟩
  · by_cases same : row.get res = CONTINUE
    · have zero : (row.get res).toInt = 0 := by
        rw [same]
        decide
      omega
    · exact .inr ⟨j, .named index same, below⟩

theorem Selects.later (forward : Forward tree) (here : tree[i]? = some row) {res : Bool}
    (selected : Selects (row.get res) i j) : i < j := by
  generalize same : row.get res = code at selected
  cases selected with
  | below => exact Nat.lt_succ_self i
  | named index other =>
      rcases forward.leads here res with exit | ⟨next, -⟩ | ⟨k, -, later, names⟩
      · have := toInt_exit
        grind
      · exact absurd (same ▸ next) other
      · grind

/-- The measure is how many rows are left from `i` on. -/
theorem Path.increasing (forward : Forward tree) {rows : List Nat} {thrown : Option ε}
    (path : Path tree i s rows s' thrown) :
    rows.Pairwise (· < ·) ∧ (∀ r ∈ rows, i ≤ r) ∧ i + rows.length ≤ N := by
  induction path with
  | threw here _ =>
      have := (Vector.getElem?_eq_some_iff.mp here).1
      simp
      omega
  | exited here _ _ =>
      have := (Vector.getElem?_eq_some_iff.mp here).1
      simp
      omega
  | on here _ selected _ ih =>
      have later := selected.later forward here
      obtain ⟨sorted, above, short⟩ := ih
      simp only [List.pairwise_cons, List.mem_cons, forall_eq_or_imp, List.length_cons]
      refine ⟨⟨fun r member => ?_, sorted⟩, ⟨Nat.le_refl _, fun r member => ?_⟩, by omega⟩
      · exact Nat.lt_of_lt_of_le later (above r member)
      · exact Nat.le_of_lt (Nat.lt_of_lt_of_le later (above r member))

/-- `row_num + 1` does not wrap, and an index keeps its value as a `size_t`. -/
theorem following_selected (number : row.rowNum.toNat = i) {code : Int32}
    (selected : Selects code i j) (small : j < 2 ^ 32) : row.following code = some j := by
  have goes := selected.not_exit
  cases selected with
  | below =>
      have whole : (row.rowNum + 1).toNat = i + 1 := by
        rw [UInt32.toNat_add, number]
        exact Nat.mod_eq_of_lt small
      simp [DecisionAction.following, whole]
  | named index other =>
      have whole : (code.toInt % 2 ^ 64).toNat = j := by omega
      rw [DecisionAction.following, if_neg other, if_pos goes, whole]

theorem next_threw (fuel : Nat) {e : ε} (called : row.f s = (.error e, s')) :
    (DecisionTreeManager.mk tree).next (fuel + 1) row s =
      some ⟨[row.rowNum], s', some (.action e)⟩ := by
  simp [DecisionTreeManager.next, DecisionAction.call, called, Except.map]

theorem next_exited (fuel : Nat) {res : Bool} (called : row.f s = (.ok res, s'))
    (code : row.get res = EXIT) :
    (DecisionTreeManager.mk tree).next (fuel + 1) row s = some ⟨[row.rowNum], s', none⟩ := by
  have returns : row.following EXIT = none := by
    simp [DecisionAction.following, show EXIT ≠ CONTINUE by decide]
  simp [DecisionTreeManager.next, DecisionAction.call, called, Except.map, code, returns]

theorem next_on (fuel : Nat) {res : Bool} (called : row.f s = (.ok res, s'))
    (follows : row.following (row.get res) = some j) {below : DecisionAction σ ε}
    (there : tree[j]? = some below) :
    (DecisionTreeManager.mk tree).next (fuel + 1) row s =
      ((DecisionTreeManager.mk tree).next fuel below s').map (.after row) := by
  simp [DecisionTreeManager.next, DecisionAction.call, called, Except.map, follows, there]

theorem one_more {fuel : Nat} (inside : i < N) (enough : N ≤ i + fuel) :
    ∃ rest, fuel = rest + 1 := by
  apply Nat.exists_eq_succ_of_ne_zero
  omega

/-- The rows that are left are fuel enough; the induction is on how many they are. -/
theorem next_follows_path (forward : Forward tree) (left : Nat) (here : tree[i]? = some row)
    (enough : N ≤ i + left) (s : σ) :
    ∃ run thrown,
      (∀ fuel, N ≤ i + fuel → (DecisionTreeManager.mk tree).next fuel row s = some run) ∧
        run.failure = thrown.map .action ∧
        Path tree i s (run.ran.map UInt32.toNat) run.state thrown := by
  have inside : i < N := (Vector.getElem?_eq_some_iff.mp here).1
  have number := forward.numbered here
  induction left generalizing i row s with
  | zero => omega
  | succ left ih =>
      rcases called : row.f s with ⟨result, s'⟩
      cases result with
      | error e =>
          refine ⟨⟨[row.rowNum], s', some (.action e)⟩, some e, ?_, rfl, ?_⟩
          · intro fuel fuelEnough
            obtain ⟨rest, rfl⟩ := one_more inside fuelEnough
            exact next_threw rest called
          · simpa [number] using Path.threw here called
      | ok res =>
          rcases forward.selects here res with exit | ⟨j, selected, below⟩
          · refine ⟨⟨[row.rowNum], s', none⟩, none, ?_, rfl, ?_⟩
            · intro fuel fuelEnough
              obtain ⟨rest, rfl⟩ := one_more inside fuelEnough
              exact next_exited rest called exit
            · simpa [number] using Path.exited here called exit
          · have later := selected.later forward here
            have there : tree[j]? = some tree[j] := Vector.getElem?_eq_getElem below
            have numbered := forward.numbered there
            have small : j < 2 ^ 32 := numbered ▸ UInt32.toNat_lt _
            have follows : row.following (row.get res) = some j :=
              following_selected number selected small
            obtain ⟨run, thrown, ran, failed, path⟩ :=
              ih there (by omega) s' below numbered
            refine ⟨.after row run, thrown, ?_, failed, ?_⟩
            · intro fuel fuelEnough
              obtain ⟨rest, rfl⟩ := one_more inside fuelEnough
              simp [next_on rest called follows there, ran rest (by omega)]
            · simpa [Execution.after, number] using Path.on here called selected path

end Running

/-- The fuel for an execution is the number of rows, and the router adds nothing to it. -/
theorem execute_follows_path (tree : DecisionTree N σ ε) (rows : 1 ≤ N) (forward : Forward tree)
    (s : σ) :
    ∃ run thrown,
      (∀ fuel, N ≤ fuel → (DecisionTreeManager.mk tree).execute fuel s = some run ∧
        (Router.make tree).execute fuel s = some run) ∧
      Path tree 0 s (run.ran.map UInt32.toNat) run.state thrown ∧
      run.failure = thrown.map .action ∧ run.failure ≠ some .outOfRange ∧
      (run.ran.map UInt32.toNat).Pairwise (· < ·) ∧ run.ran.length ≤ N := by
  have first : tree[0]? = some tree[0] := Vector.getElem?_eq_getElem rows
  obtain ⟨run, thrown, ran, failed, path⟩ :=
    next_follows_path forward N first (Nat.le_add_left N 0) s
  obtain ⟨sorted, -, short⟩ := path.increasing forward
  refine ⟨run, thrown, ?_, path, failed, ?_, sorted, ?_⟩
  · intro fuel enough
    have executed : (DecisionTreeManager.mk tree).execute fuel s = some run := by
      simp [DecisionTreeManager.execute, first, ran fuel (by omega)]
    exact ⟨executed, executed⟩
  · rw [failed]
    cases thrown <;> simp
  · simpa using short

/-- Two actions that print and return false, and one that returns true. -/
def printing (line : String) (res : Bool) (printed : List String) :
    Except Empty Bool × List String :=
  (.ok res, printed ++ [line])

def threeActions : DecisionTree 3 (List String) Empty :=
  #v[⟨0, printing "executing action_1" false, -1, 1⟩,
    ⟨1, printing "executing action_2" false, -1, 2⟩,
    ⟨2, printing "executing action_3" true, -1, -1⟩]

theorem forward_threeActions : Forward threeActions := by
  constructor
  · intro i row here
    have inside : i < 3 := (Vector.getElem?_eq_some_iff.mp here).1
    obtain rfl | rfl | rfl : i = 0 ∨ i = 1 ∨ i = 2 := by omega
    all_goals
      cases here
      rfl
  · intro i row here res
    have inside : i < 3 := (Vector.getElem?_eq_some_iff.mp here).1
    obtain rfl | rfl | rfl : i = 0 ∨ i = 1 ∨ i = 2 := by omega
    all_goals
      cases here
      cases res
      all_goals decide

theorem execute_follows_path_three :
    ∃ run thrown,
      (∀ fuel, 3 ≤ fuel → (DecisionTreeManager.mk threeActions).execute fuel [] = some run ∧
        (Router.make threeActions).execute fuel [] = some run) ∧
      Path threeActions 0 [] (run.ran.map UInt32.toNat) run.state thrown ∧
      run.failure = thrown.map .action ∧ run.failure ≠ some .outOfRange ∧
      (run.ran.map UInt32.toNat).Pairwise (· < ·) ∧ run.ran.length ≤ 3 :=
  execute_follows_path threeActions (by decide) forward_threeActions []

example :
    ((DecisionTreeManager.mk threeActions).execute 3 []).map Execution.ran = some [0, 1, 2] := by
  decide

end VanillaRtb.Common
