import VanillaRtb.Auditor.Codec
import VanillaRtb.Lib.Filling

/-! # Writing a record

`full_record_size` and `encode_record` go by the arguments as they are passed, each through
overloads of its own: one for string views, one for pointers, one for arrays, and a template for
all else. What `encode_record` stores is followed here address by address.
-/

namespace VanillaRtb.Auditor.Writing

open Lib

/-- An argument as it is passed, a pointer with the characters from it on. Of arrays it is those
of `char` that have an overload; an array of `char const`, such as a literal, is taken as a
pointer. -/
inductive Passed where
  | arithmetic (t : Arithmetic) (value : BitVec (8 * t.size))
  | stringView (s : StdString)
  | pointer (chars : StdString) (terminated : 0 ∈ chars)
  | constArray (chars : StdString) (terminated : 0 ∈ chars)
  | array (chars : StdString) (some_ : chars ≠ []) (bounded : chars.length < 2 ^ 31)

/-- `std::string_view` of a pointer. -/
def cString (chars : StdString) : StdString := chars.takeWhile fun c => c ≠ 0

/-- `std::string_view(arg, N - 1)` -/
def ofArray (chars : StdString) : StdString := chars.take (chars.length - 1)

section Sizes

def fieldSize : Passed → UInt32
  | .arithmetic t _ => 1 + t.size.toUInt32
  | .stringView _ => 1 + 4
  | .pointer _ _ => 1 + 4
  | .constArray _ _ => 1 + 4
  | .array _ _ _ => 1 + 4

def viewBlobSize (arg : StdString) : UInt32 := 1 + 4 + arg.length.toUInt32

def blobSize : Passed → UInt32
  | .arithmetic _ _ => 0
  | .stringView s => viewBlobSize s
  | .pointer chars _ => viewBlobSize (cString chars)
  | .constArray chars _ => viewBlobSize (cString chars)
  | .array chars _ _ => viewBlobSize (ofArray chars)

def recordSize (args : List Passed) : UInt32 := (args.map fieldSize).sum

def fullRecordSize (args : List Passed) : UInt32 :=
  1 + 4 + recordSize args + (args.map blobSize).sum

end Sizes

section Stores

/-- What a function stores, and what it returns. -/
structure Written where
  writes : List (Nat × UInt8)
  returned : UInt32

/-- `encode_field` of a string view, with the offset for the next string. -/
def encodeViewField (buf : Nat) (blobOffset : UInt32) (arg : StdString) : Written × UInt32 :=
  (⟨storesAt buf [Typemap.codeOf .stringView] ++ storesAt (buf + 1) (leastBytes 4 blobOffset.toNat),
    1 + 4⟩, blobOffset + viewBlobSize arg)

def encodeField (buf : Nat) (blobOffset : UInt32) : Passed → Written × UInt32
  | .arithmetic t value =>
      (⟨storesAt buf [Typemap.codeOf (.arithmetic t)] ++
          storesAt (buf + 1) (leastBytes t.size value.toNat), 1 + t.size.toUInt32⟩, blobOffset)
  | .stringView s => encodeViewField buf blobOffset s
  | .pointer chars _ => encodeViewField buf blobOffset (cString chars)
  | .constArray chars _ => encodeViewField buf blobOffset (cString chars)
  | .array chars _ _ => encodeViewField buf blobOffset (ofArray chars)

/-- `encode_blob` of a string view. -/
def encodeViewBlob (blobBuf : Nat) (arg : StdString) : Written :=
  let blobLen := arg.length.toUInt32
  ⟨storesAt blobBuf [2] ++ storesAt (blobBuf + 1) (leastBytes 4 blobLen.toNat) ++
    storesAt (blobBuf + 1 + 4) (arg.take blobLen.toNat), viewBlobSize arg⟩

def encodeBlob (buf : Nat) : Passed → Written
  | .arithmetic _ _ => ⟨[], 0⟩
  | .stringView s => encodeViewBlob buf s
  | .pointer chars _ => encodeViewBlob buf (cString chars)
  | .constArray chars _ => encodeViewBlob buf (cString chars)
  | .array chars _ _ => encodeViewBlob buf (ofArray chars)

/-- The calls of `encode_field`, with where `buf` points behind them. -/
def encodeFields : Nat → UInt32 → List Passed → List (Nat × UInt8) × Nat × UInt32
  | buf, blobOffset, [] => ([], buf, blobOffset)
  | buf, blobOffset, a :: args =>
      let (field, blobOffset) := encodeField buf blobOffset a
      let (writes, buf, blobOffset) :=
        encodeFields (buf + field.returned.toNat) blobOffset args
      (field.writes ++ writes, buf, blobOffset)

/-- The calls of `encode_blob`. -/
def encodeBlobs : Nat → List Passed → List (Nat × UInt8) × Nat
  | buf, [] => ([], buf)
  | buf, a :: args =>
      let blob := encodeBlob buf a
      let (writes, buf) := encodeBlobs (buf + blob.returned.toNat) args
      (blob.writes ++ writes, buf)

/-- `encode_record`: what it stores and returns, none where an assertion fails. -/
def encodeRecord (buf : Nat) (args : List Passed) : Option (List (Nat × UInt8) × Nat) :=
  let fixedPartSize := recordSize args
  let heading := storesAt buf [1] ++ storesAt (buf + 1) (leastBytes 4 fixedPartSize.toNat)
  let rbeg := buf + 1 + 4
  let (slots, bbeg, relBlobOffset) := encodeFields rbeg 0 args
  let recSize := (bbeg - rbeg).toUInt32
  let (blobs, last) := encodeBlobs bbeg args
  let blobsPartSize := (last - bbeg).toUInt32
  if blobsPartSize = (args.map blobSize).sum ∧ relBlobOffset = blobsPartSize ∧
      recSize = fixedPartSize then
    some (heading ++ slots ++ blobs, 1 + 4 + fixedPartSize.toNat + blobsPartSize.toNat)
  else
    none

end Stores

/-- The argument that is encoded. -/
def Passed.arg : Passed → Arg
  | .arithmetic t value => .arithmetic t value
  | .stringView s => .stringView s
  | .pointer chars _ => .stringView (cString chars)
  | .constArray chars _ => .stringView (cString chars)
  | .array chars _ _ => .stringView (ofArray chars)

/-- The sizes of the parts of a record, as numbers that may be large. -/
def totalSize (args : List Passed) : Nat := Auditor.fullRecordSize (args.map Passed.arg)

section Overloads

variable {a : Passed}

theorem fieldSize_arg (a : Passed) : fieldSize a = Auditor.fieldSize a.arg.type := by
  cases a <;> rfl

theorem blobSize_arg (a : Passed) : blobSize a = Auditor.blobSize a.arg := by
  cases a <;> rfl

theorem recordSize_arg (args : List Passed) :
    recordSize args = Auditor.recordSize (args.map Passed.arg) := by
  rw [recordSize, Auditor.recordSize, List.map_map]
  exact congrArg List.sum (List.map_congr_left fun a _ => fieldSize_arg a)

/-- Whatever the overload, the slot of the argument is stored and its size returned. -/
theorem encodeField_fills (buf : Nat) (blobOffset : UInt32) (a : Passed) :
    Fills buf (Auditor.encodeField blobOffset a.arg).1 (encodeField buf blobOffset a).1.writes ∧
      (encodeField buf blobOffset a).1.returned = Auditor.fieldSize a.arg.type ∧
      (encodeField buf blobOffset a).2 = (Auditor.encodeField blobOffset a.arg).2 := by
  have view (s : StdString) :
      Fills buf (Auditor.encodeField blobOffset (.stringView s)).1
        (encodeViewField buf blobOffset s).1.writes :=
    (fills_storesAt buf [Typemap.codeOf .stringView]).append (fills_storesAt _ _) rfl
  cases a with
  | arithmetic t value =>
      exact ⟨(fills_storesAt buf [Typemap.codeOf _]).append (fills_storesAt _ _) rfl, rfl, rfl⟩
  | stringView s => exact ⟨view s, rfl, rfl⟩
  | pointer chars _ => exact ⟨view _, rfl, rfl⟩
  | constArray chars _ => exact ⟨view _, rfl, rfl⟩
  | array chars _ _ => exact ⟨view _, rfl, rfl⟩

/-- The same for what follows the fixed part. -/
theorem encodeBlob_fills (buf : Nat) (a : Passed) :
    Fills buf (Auditor.encodeBlob a.arg) (encodeBlob buf a).writes ∧
      (encodeBlob buf a).returned = Auditor.blobSize a.arg := by
  have view (s : StdString) :
      Fills buf (Auditor.encodeBlob (.stringView s)) (encodeViewBlob buf s).writes := by
    have text := (fills_storesAt (buf + 1) (leastBytes 4 s.length.toUInt32.toNat)).append
      (fills_storesAt (buf + 1 + 4) (s.take s.length.toUInt32.toNat)) (by rw [leastBytes_length])
    have whole := (fills_storesAt buf [2]).append text rfl
    rwa [← List.append_assoc] at whole
  cases a with
  | arithmetic t value => exact ⟨fills_nil buf, rfl⟩
  | stringView s => exact ⟨view s, rfl⟩
  | pointer chars _ => exact ⟨view _, rfl⟩
  | constArray chars _ => exact ⟨view _, rfl⟩
  | array chars _ _ => exact ⟨view _, rfl⟩

end Overloads

section Lists

variable {args : List Passed}

/-- One slot is stored behind the other. -/
theorem encodeFields_fills (buf : Nat) (blobOffset : UInt32) (args : List Passed) :
    Fills buf (Auditor.encodeFields blobOffset (args.map Passed.arg)).1
        (encodeFields buf blobOffset args).1 ∧
      (encodeFields buf blobOffset args).2.1 =
        buf + (Auditor.encodeFields blobOffset (args.map Passed.arg)).1.length ∧
      (encodeFields buf blobOffset args).2.2 =
        (Auditor.encodeFields blobOffset (args.map Passed.arg)).2 := by
  induction args generalizing buf blobOffset with
  | nil => exact ⟨fills_nil buf, rfl, rfl⟩
  | cons a args ih =>
      obtain ⟨field, returned, offset⟩ := encodeField_fills buf blobOffset a
      have length := slot_length blobOffset a.arg
      simp only [encodeFields, List.map_cons, Auditor.encodeFields]
      rw [offset, returned, ← length]
      obtain ⟨fields, last, offset⟩ := ih
        (buf + (Auditor.encodeField blobOffset a.arg).1.length)
        (Auditor.encodeField blobOffset a.arg).2
      refine ⟨field.append fields rfl, ?_, offset⟩
      rw [last, List.length_append, Nat.add_assoc]

theorem blobSize_toNat {a : Arg} (fits : blobLength a < 2 ^ 32) :
    (Auditor.blobSize a).toNat = blobLength a := by
  cases a with
  | arithmetic t value => rfl
  | stringView s =>
      have five : (1 + 4 : UInt32).toNat = 5 := rfl
      rw [blobLength] at fits ⊢
      rw [Auditor.blobSize, UInt32.toNat_add, five, toNat_toUInt32 (by omega)]
      omega

/-- And one blob behind the other. -/
theorem encodeBlobs_fills (buf : Nat)
    (fits : ((args.map Passed.arg).map blobLength).sum < 2 ^ 32) :
    Fills buf ((args.map Passed.arg).flatMap Auditor.encodeBlob) (encodeBlobs buf args).1 ∧
      (encodeBlobs buf args).2 = buf + ((args.map Passed.arg).map blobLength).sum := by
  induction args generalizing buf with
  | nil => exact ⟨fills_nil buf, rfl⟩
  | cons a args ih =>
      rw [List.map_cons, List.map_cons, List.sum_cons] at fits
      obtain ⟨blob, returned⟩ := encodeBlob_fills buf a
      have length : (Auditor.encodeBlob a.arg).length = blobLength a.arg := blob_length (by omega)
      simp only [encodeBlobs, List.map_cons, List.flatMap_cons, List.sum_cons]
      rw [returned, blobSize_toNat (by omega)]
      obtain ⟨blobs, last⟩ := ih (buf + blobLength a.arg) (by omega)
      exact ⟨blob.append blobs (by rw [length]), by rw [last, Nat.add_assoc]⟩

theorem blobSizes_toNat (fits : ((args.map Passed.arg).map blobLength).sum < 2 ^ 32) :
    ((args.map blobSize).sum).toNat = ((args.map Passed.arg).map blobLength).sum := by
  induction args with
  | nil => rfl
  | cons a args ih =>
      simp only [List.map_cons, List.sum_cons] at fits ⊢
      rw [UInt32.toNat_add, ih (by omega), blobSize_arg, blobSize_toNat (by omega)]
      omega

/-- The offset behind all strings is the size of the blobs. -/
theorem encodeFields_offset {args : List Arg} {blobOffset : UInt32}
    (fits : blobOffset.toNat + (args.map blobLength).sum < 2 ^ 32) :
    (Auditor.encodeFields blobOffset args).2.toNat =
      blobOffset.toNat + (args.map blobLength).sum := by
  induction args generalizing blobOffset with
  | nil => rfl
  | cons a args ih =>
      rw [List.map_cons, List.sum_cons] at fits ⊢
      have moved : (Auditor.encodeField blobOffset a).2.toNat = blobOffset.toNat + blobLength a :=
        offset_toNat (by omega)
      have rest := @ih (Auditor.encodeField blobOffset a).2 (by omega)
      rw [moved] at rest
      simp only [Auditor.encodeFields]
      omega

/-- Where the whole record fits into 32 bits, its parts do. -/
theorem parts_fit (fits : totalSize args < 2 ^ 32) :
    ((args.map Passed.arg).map blobLength).sum < 2 ^ 32 ∧
      (recordSize args).toNat = (Auditor.encodeFields 0 (args.map Passed.arg)).1.length ∧
      1 + 4 + (recordSize args).toNat + ((args.map Passed.arg).map blobLength).sum =
        totalSize args := by
  rw [totalSize, Auditor.fullRecordSize] at fits ⊢
  have fixedPart : (Auditor.recordSize (args.map Passed.arg)).toNat = _ :=
    recordSize_toNat (by omega)
  rw [recordSize_arg, slots_length, fixedPart]
  exact ⟨by omega, rfl, rfl⟩

end Lists

/-- The three assertions of `encode_record`. -/
theorem assertions_hold (buf : Nat) {args : List Passed} (fits : totalSize args < 2 ^ 32) :
    let fields := encodeFields buf 0 args
    ((encodeBlobs fields.2.1 args).2 - fields.2.1).toUInt32 = (args.map blobSize).sum ∧
      fields.2.2 = (args.map blobSize).sum ∧ (fields.2.1 - buf).toUInt32 = recordSize args := by
  obtain ⟨strings, fixedPart, whole⟩ := parts_fit fits
  obtain ⟨-, bbeg, offset⟩ := encodeFields_fills buf 0 args
  obtain ⟨-, last⟩ := encodeBlobs_fills
    (buf + (Auditor.encodeFields 0 (args.map Passed.arg)).1.length) strings
  refine ⟨?_, ?_, ?_⟩
  · rw [bbeg, last, Nat.add_sub_cancel_left]
    apply UInt32.toNat_inj.mp
    rw [toNat_toUInt32 strings, blobSizes_toNat strings]
  · have fromZero : (0 : UInt32).toNat + ((args.map Passed.arg).map blobLength).sum < 2 ^ 32 := by
      change 0 + _ < _
      omega
    apply UInt32.toNat_inj.mp
    rw [offset, encodeFields_offset fromZero, blobSizes_toNat strings]
    exact Nat.zero_add _
  · rw [bbeg, Nat.add_sub_cancel_left]
    apply UInt32.toNat_inj.mp
    rw [toNat_toUInt32 (by omega), fixedPart]

/-- What `encode_record` stores is the record. -/
theorem encodeRecord_fills (buf : Nat) {args : List Passed} (fits : totalSize args < 2 ^ 32) :
    ∃ writes, encodeRecord buf args = some (writes, totalSize args) ∧
      Fills buf (Auditor.encodeRecord (args.map Passed.arg)) writes := by
  obtain ⟨blobsPart, relBlobOffset, recSize⟩ := assertions_hold (buf + 1 + 4) fits
  obtain ⟨strings, -, total⟩ := parts_fit fits
  obtain ⟨slots, bbeg, -⟩ := encodeFields_fills (buf + 1 + 4) 0 args
  obtain ⟨blobs, -⟩ := encodeBlobs_fills
    (buf + 1 + 4 + (Auditor.encodeFields 0 (args.map Passed.arg)).1.length) strings
  rw [← bbeg] at blobs
  have heading := (fills_storesAt buf [1]).append
    (fills_storesAt (buf + 1) (leastBytes 4 (recordSize args).toNat)) rfl
  have fixed := heading.append slots (by simp [leastBytes_length, Nat.add_assoc])
  have whole := fixed.append blobs (by
    rw [bbeg]
    simp only [List.length_append, List.length_singleton, leastBytes_length]
    omega)
  refine ⟨storesAt buf [1] ++ storesAt (buf + 1) (leastBytes 4 (recordSize args).toNat) ++
    (encodeFields (buf + 1 + 4) 0 args).1 ++
    (encodeBlobs (encodeFields (buf + 1 + 4) 0 args).2.1 args).1, ?_, ?_⟩
  · simp only [encodeRecord, blobsPart, relBlobOffset, recSize, and_self, if_true,
      blobSizes_toNat strings, total]
  · simpa [Auditor.encodeRecord, recordSize_arg] using whole

theorem fullRecordSize_toNat {args : List Passed} (fits : totalSize args < 2 ^ 32) :
    (fullRecordSize args).toNat = totalSize args := by
  obtain ⟨strings, -, total⟩ := parts_fit fits
  have five : (1 + 4 : UInt32).toNat = 5 := rfl
  rw [fullRecordSize, UInt32.toNat_add, UInt32.toNat_add, five, blobSizes_toNat strings]
  omega

/-- `full_record_size`, what `encode_record` returns and how many bytes it stores are the same, and
it stores one byte at each address of the region from `buf` on of that size. -/
theorem encodeRecord_exact (buf : Nat) (args : List Passed) (some_ : args ≠ [])
    (fits : totalSize args < 2 ^ 32) :
    ∃ writes n, encodeRecord buf args = some (writes, n) ∧
      (fullRecordSize args).toNat = n ∧ writes.length = n ∧
      writes.map Prod.fst = List.range' buf n ∧
      ∀ addr, addr ∈ writes.map Prod.fst ↔ (Region.mk buf n).Contains addr := by
  obtain ⟨writes, encoded, fills⟩ := encodeRecord_fills buf fits
  have length : (Auditor.encodeRecord (args.map Passed.arg)).length = totalSize args :=
    encodeRecord_length ⟨args.map Passed.arg, by simpa using some_, fits⟩
  have range : writes.map Prod.fst = List.range' buf (totalSize args) := length ▸ fills.1
  refine ⟨writes, totalSize args, encoded, fullRecordSize_toNat fits,
    fills.length_eq.trans length, range, ?_⟩
  intro addr
  rw [range, List.mem_range'_1]
  rfl

/-- The record of the benchmarks, at the start of a buffer. -/
def benchmarkRecord : List Passed :=
  [.arithmetic .int8 97, .arithmetic .int32 1, .pointer (ascii "abcdef" ++ [0]) (by decide),
    .arithmetic .double 0x4002666666666666, .stringView (ascii "hello")]

theorem encodeRecord_exact_benchmark :
    ∃ writes n, encodeRecord 0 benchmarkRecord = some (writes, n) ∧
      (fullRecordSize benchmarkRecord).toNat = n ∧ writes.length = n ∧
      writes.map Prod.fst = List.range' 0 n ∧
      ∀ addr, addr ∈ writes.map Prod.fst ↔ (Region.mk 0 n).Contains addr :=
  encodeRecord_exact 0 benchmarkRecord (by decide) (by decide)

end VanillaRtb.Auditor.Writing
