import Mathlib

/-! # Bytes at a place

A memory is a list of bytes, and a read copies as many of them as it is asked for from a
position on. Numbers are stored in a fixed number of bytes, the lowest first.
-/

namespace VanillaRtb.Lib

/-- The lowest `w` bytes of a number. -/
def leastBytes : Nat → Nat → List UInt8
  | 0, _ => []
  | w + 1, n => n.toUInt8 :: leastBytes w (n / 256)

def ofLeastBytes : List UInt8 → Nat
  | [] => 0
  | b :: bs => b.toNat + 256 * ofLeastBytes bs

theorem leastBytes_length (w n : Nat) : (leastBytes w n).length = w := by
  induction w generalizing n with
  | zero => rfl
  | succ w ih => rw [leastBytes, List.length_cons, ih]

theorem ofLeastBytes_leastBytes {w n : Nat} (fits : n < 256 ^ w) :
    ofLeastBytes (leastBytes w n) = n := by
  induction w generalizing n with
  | zero => exact (Nat.lt_one_iff.mp fits).symm
  | succ w ih =>
      have higher : n / 256 < 256 ^ w := by
        apply Nat.div_lt_of_lt_mul
        rwa [Nat.mul_comm, ← Nat.pow_succ]
      rw [leastBytes, ofLeastBytes, ih higher, Nat.toUInt8, UInt8.toNat_ofNat']
      exact Nat.mod_add_div n 256

section Places

variable {mem xs ys : List UInt8} {pos : Nat}

/-- The bytes are in the memory from the position on. -/
def HasBytes (mem : List UInt8) (pos : Nat) (xs : List UInt8) : Prop :=
  ∃ before after, mem = before ++ (xs ++ after) ∧ before.length = pos

theorem hasBytes_zero (mem : List UInt8) : HasBytes mem 0 mem :=
  ⟨[], [], by simp, rfl⟩

theorem HasBytes.left (holds : HasBytes mem pos (xs ++ ys)) : HasBytes mem pos xs := by
  obtain ⟨before, after, rfl, length⟩ := holds
  exact ⟨before, ys ++ after, by simp, length⟩

theorem HasBytes.right (holds : HasBytes mem pos (xs ++ ys)) :
    HasBytes mem (pos + xs.length) ys := by
  obtain ⟨before, after, rfl, length⟩ := holds
  exact ⟨before ++ xs, after, by simp, by rw [List.length_append, length]⟩

/-- The bytes from a position on, unless there are fewer. -/
def readBytes (mem : List UInt8) (pos n : Nat) : Option (List UInt8) :=
  if pos + n ≤ mem.length then some ((mem.drop pos).take n) else none

theorem readBytes_eq (holds : HasBytes mem pos xs) : readBytes mem pos xs.length = some xs := by
  obtain ⟨before, after, rfl, rfl⟩ := holds
  have inside : before.length + xs.length ≤ (before ++ (xs ++ after)).length := by
    simp only [List.length_append]
    omega
  rw [readBytes, if_pos inside, List.drop_left, List.take_left]

theorem hasBytes_of_prefix (here : xs <+: mem) : HasBytes mem 0 xs := by
  obtain ⟨after, rfl⟩ := here
  exact ⟨[], after, rfl, rfl⟩

/-- A file whose bytes are those, and zero behind them. -/
theorem range_map_eq {f : Nat → UInt8} {n : Nat} (short : xs.length ≤ n)
    (bytes : ∀ i < n, f i = xs[i]?.getD 0) :
    (List.range n).map f = xs ++ List.replicate (n - xs.length) 0 := by
  apply List.ext_getElem?
  intro i
  by_cases less : i < n
  · rw [List.getElem?_map, List.getElem?_range less, Option.map_some, bytes i less]
    by_cases inside : i < xs.length
    · rw [List.getElem?_append_left inside]
      simp [inside]
    · have gap : i - xs.length < n - xs.length := by omega
      rw [List.getElem?_append_right (Nat.not_lt.mp inside), List.getElem?_replicate, if_pos gap]
      simp [inside]
  · simp [less, short]

end Places

section Stores

/-- `memcpy` of some bytes to an address: what is written where, in order. -/
def storesAt (addr : Nat) (bytes : List UInt8) : List (Nat × UInt8) :=
  (bytes.zipIdx addr).map Prod.swap

/-- The addresses written are the `n` from `addr` on, each once and in order, and the bytes
written there are these. -/
def Fills (addr : Nat) (bytes : List UInt8) (writes : List (Nat × UInt8)) : Prop :=
  writes.map Prod.fst = List.range' addr bytes.length ∧ writes.map Prod.snd = bytes

variable {addr addr' : Nat} {xs ys : List UInt8} {writes writes' : List (Nat × UInt8)}

theorem fills_storesAt (addr : Nat) (bytes : List UInt8) : Fills addr bytes (storesAt addr bytes) := by
  constructor
  · simp [storesAt, Function.comp_def]
  · simp [storesAt, Function.comp_def]

theorem fills_nil (addr : Nat) : Fills addr [] [] := ⟨rfl, rfl⟩

theorem Fills.append (first : Fills addr xs writes) (second : Fills addr' ys writes')
    (behind : addr' = addr + xs.length) : Fills addr (xs ++ ys) (writes ++ writes') := by
  constructor
  · rw [List.map_append, first.1, second.1, behind, List.length_append, ← List.range'_append,
      Nat.one_mul]
  · rw [List.map_append, first.2, second.2]

/-- Each byte is written where it stands behind those that are there. -/
theorem Fills.getElem?_append {before : List UInt8} (fills : Fills before.length xs writes)
    (written : (addr, byte) ∈ writes) : (before ++ xs)[addr]? = some byte := by
  obtain ⟨i, here⟩ := List.mem_iff_getElem?.mp written
  have value : xs[i]? = some byte := by
    rw [← fills.2, List.getElem?_map, here, Option.map_some]
  obtain ⟨inside, -⟩ := List.getElem?_eq_some_iff.mp value
  have address : addr = before.length + i := by
    have listed := congrArg (fun l => l[i]?) fills.1
    simpa [here, inside] using listed
  rw [address, List.getElem?_append_right (Nat.le_add_right _ _), Nat.add_sub_cancel_left]
  exact value

theorem Fills.length_eq (fills : Fills addr xs writes) : writes.length = xs.length := by
  rw [← fills.2, List.length_map]

end Stores

end VanillaRtb.Lib
