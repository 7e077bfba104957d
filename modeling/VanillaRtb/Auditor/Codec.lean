import VanillaRtb.Lib.Octets
import VanillaRtb.StdString

/-! # The codec of the audit log

A record is a heading, the size of its fixed part, one tagged slot for each argument, and the
strings, which their slots point to by their offsets behind the fixed part. The types have
codes, and the decoder goes by the code it finds; it knows all of them but one.
-/

namespace VanillaRtb.Auditor

open Lib

/-- The types of `mappings_t` that are stored in place, as they are. -/
inductive Arithmetic where
  | bool
  | uint8
  | int8
  | uint16
  | int16
  | uint32
  | int32
  | uint64
  | int64
  | float
  | double
  deriving DecidableEq

/-- `sizeof`. -/
def Arithmetic.size : Arithmetic → Nat
  | bool | uint8 | int8 => 1
  | uint16 | int16 => 2
  | uint32 | int32 | float => 4
  | uint64 | int64 | double => 8

inductive Mapped where
  | arithmetic (t : Arithmetic)
  | stringView
  deriving DecidableEq

/-- An argument; the value of an arithmetic type is its object representation. -/
inductive Arg where
  | arithmetic (t : Arithmetic) (value : BitVec (8 * t.size))
  | stringView (s : StdString)

def Arg.type : Arg → Mapped
  | arithmetic t _ => .arithmetic t
  | stringView _ => .stringView

namespace Typemap

/-- `mappings_t`. -/
def mappings : List Mapped :=
  [.arithmetic .bool, .arithmetic .uint8, .arithmetic .int8, .arithmetic .uint16,
    .arithmetic .int16, .arithmetic .uint32, .arithmetic .int32, .arithmetic .uint64,
    .arithmetic .int64, .arithmetic .float, .arithmetic .double, .stringView]

def typeCodes : StdString := ascii "?BbHhLlQqfdS"

/-- The sum over all positions, each counted from one where the type is the same. -/
def indexOf (t : Mapped) : Nat :=
  (mappings.mapIdx fun i u => if t = u then i + 1 else 0).sum - 1

def codeOf (t : Mapped) : UInt8 := typeCodes.getD (indexOf t) 0

end Typemap

open Typemap

section Encoding

/-- `field_size`: the tag, and the value or the offset. -/
def fieldSize : Mapped → UInt32
  | .arithmetic t => 1 + t.size.toUInt32
  | .stringView => 1 + 4

def blobSize : Arg → UInt32
  | .arithmetic _ _ => 0
  | .stringView s => 1 + 4 + s.length.toUInt32

def recordSize (args : List Arg) : UInt32 := (args.map fun a => fieldSize a.type).sum

/-- `encode_field`: what is written, and the offset for the next string. -/
def encodeField (blobOffset : UInt32) : Arg → StdString × UInt32
  | .arithmetic t value =>
      (codeOf (.arithmetic t) :: leastBytes t.size value.toNat, blobOffset)
  | .stringView s =>
      (codeOf .stringView :: leastBytes 4 blobOffset.toNat, blobOffset + blobSize (.stringView s))

def encodeBlob : Arg → StdString
  | .arithmetic _ _ => []
  | .stringView s =>
      let blobLen := s.length.toUInt32
      2 :: (leastBytes 4 blobLen.toNat ++ s.take blobLen.toNat)

/-- The slots one after the other, with the offset that they leave. -/
def encodeFields : UInt32 → List Arg → StdString × UInt32
  | blobOffset, [] => ([], blobOffset)
  | blobOffset, a :: args =>
      let (slot, blobOffset) := encodeField blobOffset a
      let (slots, blobOffset) := encodeFields blobOffset args
      (slot ++ slots, blobOffset)

/-- What `encode_record` writes, from the start of the heading on. -/
def encodeRecord (args : List Arg) : StdString :=
  1 :: (leastBytes 4 (recordSize args).toNat ++ (encodeFields 0 args).1 ++ args.flatMap encodeBlob)

end Encoding

section Decoding

/-- How a decoder may stop: at a code that it has no case for, or beyond the buffer. -/
inductive Fault where
  | abort
  | outside
  deriving DecidableEq

/-- `memcpy` of some bytes out of the buffer, and the position behind them. -/
def copyBytes (mem : StdString) (addr n : Nat) : Except Fault (StdString × Nat) :=
  match readBytes mem addr n with
  | some bytes => .ok (bytes, addr + n)
  | none => .error .outside

/-- `decoder<Arg>::decode` of a type of `size` bytes. -/
def decode (mem : StdString) (size addr : Nat) : Except Fault (Nat × Nat) := do
  let (bytes, addr) ← copyBytes mem addr size
  pure (ofLeastBytes bytes, addr)

/-- `decoder<std::string_view>::decode`. -/
def decodeString (mem : StdString) (buf blobBuf : Nat) : Except Fault (StdString × Nat) := do
  let (blobOffset, buf) ← decode mem 4 buf
  let (blobLen, blobBuf) ← decode mem 4 (blobBuf + blobOffset + 1)
  let (s, _) ← copyBytes mem blobBuf blobLen
  pure (s, buf)

/-- The cases of `decode_field`, in the order of the switch. -/
def decoded : List Mapped :=
  [.arithmetic .uint8, .arithmetic .int8, .arithmetic .uint16, .arithmetic .int16,
    .arithmetic .uint32, .arithmetic .int32, .arithmetic .uint64, .arithmetic .int64,
    .arithmetic .float, .arithmetic .double, .stringView]

/-- The switch, behind the code. -/
def decodeAs (mem : StdString) (buf blobBuf : Nat) : Option Mapped → Except Fault (Arg × Nat)
  | none => .error .abort
  | some (.arithmetic t) => do
      let (value, buf) ← decode mem t.size buf
      pure (.arithmetic t (BitVec.ofNat _ value), buf)
  | some .stringView => do
      let (s, buf) ← decodeString mem buf blobBuf
      pure (.stringView s, buf)

def decodeField (mem : StdString) (buf blobBuf : Nat) : Except Fault (Arg × Nat) := do
  let (typeCode, buf) ← decode mem 1 buf
  decodeAs mem buf blobBuf (decoded.find? fun t => (codeOf t).toNat = typeCode)

/-- One call for each argument. -/
def decodeFields (mem : StdString) (blobBuf : Nat) : Nat → Nat → Except Fault (List Arg × Nat)
  | 0, buf => .ok ([], buf)
  | n + 1, buf => do
      let (a, buf) ← decodeField mem buf blobBuf
      let (args, buf) ← decodeFields mem blobBuf n buf
      pure (a :: args, buf)

/-- Reading a record: its heading, and its fields with the position behind them and the end of
    the fixed part. -/
def readRecord (mem : StdString) (n : Nat) : Except Fault (Nat × List Arg × Nat × Nat) := do
  let (heading, buf) ← decode mem 1 0
  let (fixedPartSize, buf) ← decode mem 4 buf
  let (args, last) ← decodeFields mem (buf + fixedPartSize) n buf
  pure (heading, args, last, buf + fixedPartSize)

end Decoding

/-- `blob_size`, as a number that may be large. -/
def blobLength : Arg → Nat
  | .arithmetic _ _ => 0
  | .stringView s => 1 + 4 + s.length

/-- The sizes of all the parts of a record, as numbers. -/
def fullRecordSize (args : List Arg) : Nat :=
  1 + 4 + (args.map fun a => (fieldSize a.type).toNat).sum + (args.map blobLength).sum

/-- Arguments of which `encode_record` can make a record. -/
structure Record where
  args : List Arg
  some_args : args ≠ []
  fits : fullRecordSize args < 2 ^ 32

/-- What is decoded is what was encoded, up to the end of the fixed part. -/
def RoundTrips (args : List Arg) : Prop :=
  ∃ last, readRecord (encodeRecord args) args.length = .ok (1, args, last, last)

section Sizes

variable {a : Arg} {args : List Arg} {blobOffset : UInt32}

theorem toNat_toUInt32 {n : Nat} (fits : n < 2 ^ 32) : n.toUInt32.toNat = n := by
  rw [Nat.toUInt32, UInt32.toNat_ofNat']
  exact Nat.mod_eq_of_lt fits

theorem slot_length (blobOffset : UInt32) (a : Arg) :
    (encodeField blobOffset a).1.length = (fieldSize a.type).toNat := by
  cases a with
  | arithmetic t value =>
      rw [encodeField, List.length_cons, leastBytes_length]
      cases t <;> rfl
  | stringView s =>
      rw [encodeField, List.length_cons, leastBytes_length]
      rfl

theorem slots_length (blobOffset : UInt32) (args : List Arg) :
    (encodeFields blobOffset args).1.length = (args.map fun a => (fieldSize a.type).toNat).sum := by
  induction args generalizing blobOffset with
  | nil => rfl
  | cons a args ih =>
      rw [encodeFields, List.length_append, slot_length, ih, List.map_cons, List.sum_cons]

theorem blob_length (fits : blobLength a < 2 ^ 32) : (encodeBlob a).length = blobLength a := by
  cases a with
  | arithmetic t value => rfl
  | stringView s =>
      rw [blobLength] at fits
      have same : s.length.toUInt32.toNat = s.length := toNat_toUInt32 (by omega)
      rw [encodeBlob, List.length_cons, List.length_append, leastBytes_length, same,
        List.take_length, blobLength]
      omega

/-- The offset moves on by the size of a string. -/
theorem offset_toNat (fits : blobOffset.toNat + blobLength a < 2 ^ 32) :
    (encodeField blobOffset a).2.toNat = blobOffset.toNat + blobLength a := by
  cases a with
  | arithmetic t value => rfl
  | stringView s =>
      rw [blobLength] at fits ⊢
      have same : s.length.toUInt32.toNat = s.length := toNat_toUInt32 (by omega)
      have five : (1 + 4 : UInt32).toNat = 5 := rfl
      rw [encodeField, blobSize, UInt32.toNat_add, UInt32.toNat_add, same, five]
      omega

theorem recordSize_toNat (fits : (args.map fun a => (fieldSize a.type).toNat).sum < 2 ^ 32) :
    (recordSize args).toNat = (args.map fun a => (fieldSize a.type).toNat).sum := by
  induction args with
  | nil => rfl
  | cons a args ih =>
      rw [List.map_cons, List.sum_cons] at fits ⊢
      have rest := ih (by omega)
      rw [recordSize] at rest ⊢
      rw [List.map_cons, List.sum_cons, UInt32.toNat_add, rest]
      omega

theorem blobs_length (fits : (args.map blobLength).sum < 2 ^ 32) :
    (args.flatMap encodeBlob).length = (args.map blobLength).sum := by
  induction args with
  | nil => rfl
  | cons a args ih =>
      rw [List.map_cons, List.sum_cons] at fits ⊢
      rw [List.flatMap_cons, List.length_append, ih (by omega), blob_length (by omega)]

/-- A record takes as many bytes as `full_record_size` asks for. -/
theorem encodeRecord_length (r : Record) :
    (encodeRecord r.args).length = fullRecordSize r.args := by
  have fits := r.fits
  rw [fullRecordSize] at fits ⊢
  rw [encodeRecord, List.length_cons, List.length_append, List.length_append, leastBytes_length,
    slots_length, blobs_length (by omega)]
  omega

end Sizes

section Fields

variable {mem : StdString} {buf blobBuf addr : Nat} {blobOffset : UInt32}

theorem decode_eq {size n : Nat} (fits : n < 256 ^ size)
    (bytes : HasBytes mem addr (leastBytes size n)) :
    decode mem size addr = .ok (n, addr + size) := by
  have read := readBytes_eq bytes
  rw [leastBytes_length] at read
  rw [decode, copyBytes, read]
  simp only [bind, Except.bind, ofLeastBytes_leastBytes fits]
  rfl

/-- The switch finds the type of the code, unless it is `bool`. -/
theorem find_decoded (t : Mapped) :
    (decoded.find? fun u => (codeOf u).toNat = (codeOf t).toNat) =
      if t = .arithmetic .bool then none else some t := by
  cases t with
  | arithmetic t => cases t <;> rfl
  | stringView => rfl

theorem decodeString_eq {s : StdString} (fits : blobLength (.stringView s) < 2 ^ 32)
    (slot : HasBytes mem buf (leastBytes 4 blobOffset.toNat))
    (blob : HasBytes mem (blobBuf + blobOffset.toNat) (encodeBlob (.stringView s))) :
    decodeString mem buf blobBuf = .ok (s, buf + 4) := by
  have short : s.length < 2 ^ 32 := by
    rw [blobLength] at fits
    omega
  rw [encodeBlob, toNat_toUInt32 short, List.take_length] at blob
  -- a mark, the length, the text
  have marked : HasBytes mem (blobBuf + blobOffset.toNat)
      ([2] ++ (leastBytes 4 s.length ++ s)) := blob
  have text : HasBytes mem (blobBuf + blobOffset.toNat + 1) (leastBytes 4 s.length ++ s) :=
    marked.right
  have copied := readBytes_eq text.right
  rw [leastBytes_length] at copied
  rw [decodeString, decode_eq blobOffset.toNat_lt slot]
  simp only [bind, Except.bind, decode_eq short text.left, copyBytes, copied]
  rfl

variable {a : Arg}

theorem decodeField_code {t : Mapped} {rest : StdString}
    (slot : HasBytes mem buf (codeOf t :: rest)) :
    decodeField mem buf blobBuf =
      decodeAs mem (buf + 1) blobBuf (if t = .arithmetic .bool then none else some t) := by
  have first : HasBytes mem buf (leastBytes 1 (codeOf t).toNat) := by
    rw [leastBytes, leastBytes, Nat.toUInt8, UInt8.ofNat_toNat]
    exact HasBytes.left (slot : HasBytes mem buf ([codeOf t] ++ rest))
  rw [decodeField, decode_eq (codeOf t).toNat_lt first]
  simp only [bind, Except.bind, find_decoded]

/-- One call reads one argument back, or aborts at a `bool`. -/
theorem decodeField_eq (fits : blobLength a < 2 ^ 32)
    (slot : HasBytes mem buf (encodeField blobOffset a).1)
    (blob : HasBytes mem (blobBuf + blobOffset.toNat) (encodeBlob a)) :
    decodeField mem buf blobBuf =
      if a.type = .arithmetic .bool then .error .abort
      else .ok (a, buf + (fieldSize a.type).toNat) := by
  cases a with
  | arithmetic t value =>
      rw [decodeField_code slot, Arg.type]
      split
      · rfl
      · have coded : HasBytes mem buf
            ([codeOf (.arithmetic t)] ++ leastBytes t.size value.toNat) := slot
        have bytes : HasBytes mem (buf + 1) (leastBytes t.size value.toNat) := coded.right
        have wide : value.toNat < 256 ^ t.size := by
          have bound := value.isLt
          rwa [Nat.pow_mul] at bound
        have size : (fieldSize (.arithmetic t)).toNat = 1 + t.size := by cases t <;> rfl
        rw [decodeAs, decode_eq wide bytes, size, ← Nat.add_assoc]
        simp only [bind, Except.bind, BitVec.ofNat_toNat, BitVec.setWidth_eq]
        rfl
  | stringView s =>
      have coded : HasBytes mem buf
          ([codeOf .stringView] ++ leastBytes 4 blobOffset.toNat) := slot
      have offset : HasBytes mem (buf + 1) (leastBytes 4 blobOffset.toNat) := coded.right
      rw [decodeField_code slot, Arg.type, if_neg nofun, if_neg nofun, decodeAs,
        decodeString_eq fits offset blob]
      rfl

/-- The calls read all arguments back, unless there is a `bool` among them. -/
theorem decodeFields_eq {args : List Arg}
    (fits : blobOffset.toNat + (args.map blobLength).sum < 2 ^ 32)
    (slots : HasBytes mem buf (encodeFields blobOffset args).1)
    (blobs : HasBytes mem (blobBuf + blobOffset.toNat) (args.flatMap encodeBlob)) :
    decodeFields mem blobBuf args.length buf =
      if ∃ a ∈ args, a.type = .arithmetic .bool then .error .abort
      else .ok (args, buf + (args.map fun a => (fieldSize a.type).toNat).sum) := by
  induction args generalizing buf blobOffset with
  | nil => exact (if_neg (by simp)).symm
  | cons a args ih =>
      rw [List.map_cons, List.sum_cons] at fits
      rw [List.flatMap_cons] at blobs
      have here := decodeField_eq (by omega) slots.left blobs.left
      have moved : (encodeField blobOffset a).2.toNat = blobOffset.toNat + blobLength a :=
        offset_toNat (by omega)
      have slots' : HasBytes mem (buf + (encodeField blobOffset a).1.length)
          (encodeFields (encodeField blobOffset a).2 args).1 := slots.right
      rw [slot_length] at slots'
      have blobs' := blobs.right
      rw [blob_length (by omega), Nat.add_assoc, ← moved] at blobs'
      have later := ih (by omega) slots' blobs'
      rw [List.length_cons, decodeFields, here]
      by_cases bool : a.type = .arithmetic .bool
      · rw [if_pos bool, if_pos ⟨a, List.mem_cons_self, bool⟩]
        rfl
      · rw [if_neg bool]
        change (decodeFields mem blobBuf args.length (buf + (fieldSize a.type).toNat) >>= _) = _
        rw [later]
        by_cases among : ∃ b ∈ args, b.type = .arithmetic .bool
        · have more : ∃ b ∈ a :: args, b.type = .arithmetic .bool := by
            obtain ⟨b, inside, same⟩ := among
            exact ⟨b, List.mem_cons_of_mem a inside, same⟩
          rw [if_pos among, if_pos more]
          rfl
        · have none : ¬ ∃ b ∈ a :: args, b.type = .arithmetic .bool := by
            rintro ⟨b, inside, same⟩
            rcases List.mem_cons.mp inside with rfl | later
            · exact bool same
            · exact among ⟨b, later, same⟩
          rw [if_neg among, if_neg none, List.map_cons, List.sum_cons, ← Nat.add_assoc]
          rfl

end Fields

/-- Whatever follows it, a record is read up to the end of its fixed part. -/
theorem readRecord_hasBytes {mem : StdString} (r : Record)
    (there : HasBytes mem 0 (encodeRecord r.args)) :
    readRecord mem r.args.length =
      if ∃ a ∈ r.args, a.type = .arithmetic .bool then .error .abort
      else .ok (1, r.args, 5 + (r.args.map fun a => (fieldSize a.type).toNat).sum,
        5 + (r.args.map fun a => (fieldSize a.type).toNat).sum) := by
  have fits := r.fits
  rw [fullRecordSize] at fits
  have size : (recordSize r.args).toNat = _ := recordSize_toNat (by omega)
  have whole : HasBytes mem 0 ([1] ++ (leastBytes 4 (recordSize r.args).toNat ++
      ((encodeFields 0 r.args).1 ++ r.args.flatMap encodeBlob))) := by
    rw [← List.append_assoc (leastBytes _ _)]
    exact there
  have fixedPart : HasBytes mem (0 + 1) (leastBytes 4 (recordSize r.args).toNat) :=
    whole.right.left
  have parts := whole.right.right
  rw [leastBytes_length] at parts
  have blobs := parts.right
  rw [slots_length, ← size] at blobs
  have fields : decodeFields mem (0 + 1 + 4 + (recordSize r.args).toNat)
      r.args.length (0 + 1 + 4) = _ :=
    decodeFields_eq (by change 0 + _ < _; omega) parts.left blobs
  rw [readRecord, decode_eq (n := 1) (by decide) whole.left]
  simp only [bind, Except.bind, decode_eq (recordSize r.args).toNat_lt fixedPart, fields]
  by_cases bool : ∃ a ∈ r.args, a.type = .arithmetic .bool
  · rw [if_pos bool, if_pos bool]
  · rw [if_neg bool, if_neg bool, size]
    rfl

theorem readRecord_eq (r : Record) :
    readRecord (encodeRecord r.args) r.args.length =
      if ∃ a ∈ r.args, a.type = .arithmetic .bool then .error .abort
      else .ok (1, r.args, 5 + (r.args.map fun a => (fieldSize a.type).toNat).sum,
        5 + (r.args.map fun a => (fieldSize a.type).toNat).sum) :=
  readRecord_hasBytes r (hasBytes_zero _)

/-- A record is read back exactly if no argument is a `bool`. -/
theorem roundTrips_iff (r : Record) :
    RoundTrips r.args ↔ ∀ a ∈ r.args, a.type ≠ .arithmetic .bool := by
  rw [RoundTrips, readRecord_eq]
  constructor
  · rintro ⟨last, read⟩ a inside bool
    rw [if_pos ⟨a, inside, bool⟩] at read
    cases read
  · intro none
    refine ⟨_, if_neg ?_⟩
    rintro ⟨a, inside, bool⟩
    exact none a inside bool

def oneBool : Record where
  args := [.arithmetic .bool 1]
  some_args := List.cons_ne_nil _ _
  fits := by decide

/-- The decoder has no case for the code of `bool`. -/
theorem bool_aborts : ¬ ∀ r : Record, RoundTrips r.args := by
  intro all
  obtain ⟨last, read⟩ := all oneBool
  have aborted : readRecord (encodeRecord oneBool.args) oneBool.args.length = .error .abort := by
    rfl
  rw [aborted] at read
  cases read

end VanillaRtb.Auditor
