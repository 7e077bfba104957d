import VanillaRtb.StdString

/-! # Fields of a record

`split_string` cuts a record at its delimiters, but it begins to look for one behind the
first byte, it stops at a byte that is zero, and it leaves an empty rest out. What it finds
is compared here with the columns of the line. A field that is read as a number is a column.
-/

namespace VanillaRtb.Matchers

/-- The exceptions that loading a cache may let through. -/
inductive Thrown where
  | runtimeError (what : StdString)
  | badLexicalCast
  | outOfRange
  | badAlloc
  deriving DecidableEq

/-- The bytes from the beginning of the view to the end of the record, and how many of them
    it shows. -/
structure StringView where
  data : StdString
  size : Nat
  deriving DecidableEq

namespace StringView

def text (v : StringView) : StdString := v.data.take v.size

/-- `data()`, taken for a C string. -/
def cString (v : StringView) : StdString := v.data.takeWhile fun c => c ≠ 0

end StringView

/-- `split_string` from a `begin` on, `n` bytes of which were looked at. -/
def splitFrom (delims record : StdString) (n : Nat) : StdString → List StringView
  | [] => if n = 0 then [] else [⟨record, n⟩]
  | c :: rest =>
      -- `strpbrk` finds nothing more, and `begin` is not the end
      if c = 0 then [⟨record, record.length⟩]
      else if c ∈ delims then ⟨record, n⟩ :: splitFrom delims rest 0 rest
      else splitFrom delims record (n + 1) rest

/-- `split_string`. In an empty string it looks behind the end. -/
def splitString (delims : StdString) : StdString → Option (List StringView)
  | [] => none
  | c :: rest => some (splitFrom delims (c :: rest) 1 rest)

def tab : StdString := ascii "\t"

/-- The columns that tabs separate. -/
def columns (line : StdString) : List StdString := line.splitOn 9

/-- Columns as they were in the line. -/
def joined (columns : List StdString) : StdString := [9].intercalate columns

/-- What `split_string` makes of columns. -/
inductive Split : List StdString → List StringView → Prop where
  | dropped : Split [[]] []
  | last (some_ : c ≠ []) (plain : 0 ∉ c) : Split [c] [⟨joined [c], c.length⟩]
  | cut (zero : 0 ∈ c) : Split (c :: cs) [⟨joined (c :: cs), (joined (c :: cs)).length⟩]
  | more (plain : 0 ∉ c) (rest : Split cs vs) :
      Split (c :: cs) (⟨joined (c :: cs), c.length⟩ :: vs)

section Splitting

variable {before rest : StdString} {cs : List StdString} {vs : List StringView} {v : StringView}
  {c : UInt8} {j n : Nat}

theorem columns_length_le (c : UInt8) (rest : StdString) :
    (columns rest).length ≤ (columns (c :: rest)).length := by
  rw [columns, columns, List.splitOn_cons_eq_if_modifyHead]
  split
  · exact Nat.le_succ _
  · rw [List.length_modifyHead]

theorem columns_cons_tab (rest : StdString) : columns (9 :: rest) = [] :: columns rest := by
  have cut := List.splitOn_append_cons_self_of_not_mem (List.not_mem_nil (a := (9 : UInt8))) rest
  exact cut

theorem joined_columns (line : StdString) : joined (columns line) = line :=
  List.intercalate_splitOn 9

/-- The first column begins with what has no tab in it. -/
theorem columns_head (before : StdString) (free : 9 ∉ before) (rest : StdString) :
    ∃ c cs, columns (before ++ rest) = (before ++ c) :: cs := by
  induction before with
  | nil => exact List.exists_cons_of_ne_nil (List.splitOn_ne_nil 9 rest)
  | cons b before ih =>
      obtain ⟨c, cs, later⟩ := ih fun inside => free (List.mem_cons_of_mem b inside)
      have other : ¬ (b == 9) = true := by
        intro same
        exact free (eq_of_beq same ▸ List.mem_cons_self)
      refine ⟨c, cs, ?_⟩
      rw [columns, List.cons_append, List.splitOn_cons_eq_if_modifyHead, if_neg other]
      change (columns (before ++ rest)).modifyHead _ = _
      rw [later]
      rfl

theorem splitFrom_split (before : StdString) (free : 9 ∉ before) (plain : 0 ∉ before)
    (rest : StdString) :
    Split (columns (before ++ rest)) (splitFrom tab (before ++ rest) before.length rest) := by
  induction rest generalizing before with
  | nil =>
      have one : columns before = [before] := List.splitOn_eq_singleton free
      rw [splitFrom, List.append_nil, one]
      cases before with
      | nil => exact .dropped
      | cons b before =>
          rw [List.length_cons, if_neg (Nat.succ_ne_zero _)]
          have whole : joined [b :: before] = b :: before := by simp [joined]
          have here := Split.last (List.cons_ne_nil b before) plain
          rwa [whole] at here
  | cons c rest ih =>
      rw [splitFrom]
      by_cases zero : c = 0
      · subst zero
        rw [if_pos rfl]
        obtain ⟨column, cs, whole⟩ := columns_head (before ++ [0]) (by simpa using free) rest
        rw [List.append_assoc, List.singleton_append] at whole
        have line := joined_columns (before ++ 0 :: rest)
        rw [whole] at line ⊢
        rw [← line]
        exact .cut (by simp)
      rw [if_neg zero]
      by_cases delim : c = 9
      · subst delim
        rw [if_pos (by decide)]
        have first : columns (before ++ 9 :: rest) = before :: columns rest :=
          List.splitOn_append_cons_self_of_not_mem free rest
        have line := joined_columns (before ++ 9 :: rest)
        rw [first] at line ⊢
        rw [← line]
        exact .more plain (ih [] List.not_mem_nil List.not_mem_nil)
      · have other : c ∉ tab := by
          intro inside
          exact delim (List.mem_singleton.mp inside)
        rw [if_neg other]
        have here := ih (before ++ [c]) (by simp [free, Ne.symm delim])
          (by simp [plain, Ne.symm zero])
        simpa using here

theorem mem_text (c : UInt8) (record : StdString) (some_ : n ≠ 0) :
    c ∈ (⟨c :: record, n⟩ : StringView).text := by
  obtain ⟨n, rfl⟩ := Nat.exists_eq_succ_of_ne_zero some_
  rw [StringView.text, List.take_succ_cons]
  exact List.mem_cons_self

/-- The first byte is in the first field, whatever it is. -/
theorem splitFrom_first (delims : StdString) (c : UInt8) (record rest : StdString)
    (some_ : n ≠ 0) :
    ∃ v vs, splitFrom delims (c :: record) n rest = v :: vs ∧ c ∈ v.text := by
  induction rest generalizing n with
  | nil => exact ⟨_, _, if_neg some_, mem_text c record some_⟩
  | cons d rest ih =>
      rw [splitFrom]
      split
      · exact ⟨_, _, rfl, mem_text c record (Nat.succ_ne_zero _)⟩
      split
      · exact ⟨_, _, rfl, mem_text c record some_⟩
      · exact ih (Nat.succ_ne_zero _)

theorem splitFrom_length (record : StdString) (n : Nat) (rest : StdString) :
    (splitFrom tab record n rest).length ≤ (columns rest).length := by
  have some_ : ∀ line, 1 ≤ (columns line).length := by
    intro line
    exact List.length_pos_iff.mpr (List.splitOn_ne_nil 9 line)
  induction rest generalizing record n with
  | nil =>
      rw [splitFrom]
      split
      · exact Nat.zero_le _
      · exact some_ []
  | cons c rest ih =>
      rw [splitFrom]
      split
      · exact some_ _
      split
      · rename_i delim
        have tabbed : c = 9 := List.mem_singleton.mp delim
        subst tabbed
        rw [columns_cons_tab]
        exact Nat.succ_le_succ (ih rest 0)
      · exact (ih record (n + 1)).trans (columns_length_le c rest)

/-- There are no more fields than columns. -/
theorem fields_le_columns {line : StdString} (found : splitString tab line = some vs) :
    vs.length ≤ (columns line).length := by
  cases line with
  | nil => cases found
  | cons c rest =>
      cases found
      exact (splitFrom_length _ _ _).trans (columns_length_le c rest)

theorem joined_take (c : StdString) (cs : List StdString) :
    (joined (c :: cs)).take c.length = c := by
  cases cs with
  | nil => simp [joined]
  | cons d cs => simp [joined, List.intercalate_cons_cons]

/-- A field is a column, or it was cut at a zero, and it begins where the column does. -/
theorem Split.column (split : Split cs vs) (here : vs[j]? = some v) :
    v.data = joined (cs.drop j) ∧ (cs[j]? = some v.text ∨ 0 ∈ v.text) := by
  induction split generalizing j with
  | dropped => simp at here
  | last some_ plain =>
      cases j with
      | zero =>
          cases here
          exact ⟨rfl, .inl (congrArg some (joined_take _ []).symm)⟩
      | succ j => simp at here
  | @cut c cs zero =>
      cases j with
      | zero =>
          cases here
          refine ⟨rfl, .inr ?_⟩
          rw [StringView.text, List.take_length, ← List.take_append_drop c.length (joined (c :: cs)),
            joined_take]
          exact List.mem_append_left _ zero
      | succ j => simp at here
  | more plain rest ih =>
      cases j with
      | zero =>
          cases here
          exact ⟨rfl, .inl (congrArg some (joined_take _ _).symm)⟩
      | succ j => exact ih here

/-- A column that is not empty is found if no zero comes before its end. -/
theorem Split.field {d : StdString} (split : Split cs vs) (here : cs[j]? = some d)
    (some_ : d ≠ []) (plain : ∀ i ≤ j, ∀ d ∈ cs[i]?, 0 ∉ d) : j < vs.length := by
  induction split generalizing j with
  | dropped =>
      cases j with
      | zero =>
          cases here
          exact absurd rfl some_
      | succ j => simp at here
  | last other clear =>
      cases j with
      | zero => exact Nat.succ_pos _
      | succ j => simp at here
  | cut zero => exact absurd zero (plain 0 (Nat.zero_le j) _ rfl)
  | more clear rest ih =>
      cases j with
      | zero => exact Nat.succ_pos _
      | succ j =>
          apply Nat.succ_lt_succ
          exact ih here fun i le d inside => plain (i + 1) (Nat.succ_le_succ le) d inside

end Splitting

section Numbers

/-- Digits and signs. -/
def numeralByte (c : UInt8) : Bool := 48 ≤ c ∧ c ≤ 57 ∨ c = 43 ∨ c = 45

def Numeral (s : StdString) : Prop := s ≠ [] ∧ ∀ c ∈ s, numeralByte c = true

/-- `boost::lexical_cast` to unsigned integers, nothing where it throws. It takes the whole of
    the text for a number. -/
structure LexicalCast where
  uint16 : StdString → Option UInt16
  uint32 : StdString → Option UInt32
  uint64 : StdString → Option UInt64
  numeral16 : ∀ s n, uint16 s = some n → Numeral s
  numeral32 : ∀ s n, uint32 s = some n → Numeral s
  numeral64 : ∀ s n, uint64 s = some n → Numeral s

/-- The value of decimal digits below `2 ^ bits`. -/
def natural (bits : Nat) (digits : StdString) : Option Nat :=
  if digits ≠ [] ∧ ∀ c ∈ digits, 48 ≤ c ∧ c ≤ 57 then
    let n := digits.foldl (fun n c => 10 * n + (c.toNat - 48)) 0
    if n < 2 ^ bits then some n else none
  else none

/-- What is negative is taken modulo `2 ^ bits`. -/
def signed (bits : Nat) : StdString → Option Nat
  | 45 :: digits => (natural bits digits).map fun n => (2 ^ bits - n) % 2 ^ bits
  | 43 :: digits => natural bits digits
  | digits => natural bits digits

theorem natural_numeral {bits n : Nat} {digits : StdString} (read : natural bits digits = some n) :
    Numeral digits := by
  rw [natural] at read
  split at read
  · rename_i all
    refine ⟨all.1, fun c inside => ?_⟩
    have digit := all.2 c inside
    simp [numeralByte, digit]
  · cases read

theorem signed_numeral {bits n : Nat} {s : StdString} (read : signed bits s = some n) :
    Numeral s := by
  have signs : ∀ (c : UInt8) (digits : StdString), numeralByte c = true → Numeral digits →
      Numeral (c :: digits) := by
    intro c digits sign numeral
    exact ⟨List.cons_ne_nil c digits, List.forall_mem_cons.mpr ⟨sign, numeral.2⟩⟩
  rw [signed.eq_def] at read
  split at read
  · obtain ⟨m, read, -⟩ := Option.map_eq_some_iff.mp read
    exact signs _ _ (by decide) (natural_numeral read)
  · exact signs _ _ (by decide) (natural_numeral read)
  · exact natural_numeral read

/-- The conversion in the classic locale. -/
def LexicalCast.classic : LexicalCast where
  uint16 s := (signed 16 s).map Nat.toUInt16
  uint32 s := (signed 32 s).map Nat.toUInt32
  uint64 s := (signed 64 s).map Nat.toUInt64
  numeral16 s n read := by
    obtain ⟨m, read, -⟩ := Option.map_eq_some_iff.mp read
    exact signed_numeral read
  numeral32 s n read := by
    obtain ⟨m, read, -⟩ := Option.map_eq_some_iff.mp read
    exact signed_numeral read
  numeral64 s n read := by
    obtain ⟨m, read, -⟩ := Option.map_eq_some_iff.mp read
    exact signed_numeral read

variable {T : Type} {cast : StdString → Option T}

/-- `fields.at(i)` -/
def field (fields : List StringView) (i : Nat) : Except Thrown StringView :=
  match fields[i]? with
  | some v => .ok v
  | none => .error .outOfRange

/-- `lexical_cast` of a field. -/
def number (cast : StdString → Option T) (fields : List StringView) (i : Nat) :
    Except Thrown T := do
  let v ← field fields i
  match cast v.text with
  | some n => pure n
  | none => throw .badLexicalCast

/-- The number in a column. -/
def numberIn (cast : StdString → Option T) (cs : List StdString) (i : Nat) : Option T :=
  cs[i]?.bind cast

variable {cs : List StdString} {vs : List StringView} {v : StringView} {line s : StdString}
  {i j : Nat} {n : T}

theorem field_ok : field vs i = .ok v ↔ vs[i]? = some v := by
  rw [field]
  cases vs[i]? <;> simp

theorem number_ok : number cast vs i = .ok n ↔ ∃ v, vs[i]? = some v ∧ cast v.text = some n := by
  simp only [number, field]
  cases vs[i]? with
  | none => simp [bind, Except.bind]
  | some v =>
      have same : (∃ w, some v = some w ∧ cast w.text = some n) ↔ cast v.text = some n := by simp
      rw [same]
      cases read : cast v.text <;> simp [bind, Except.bind, read, pure, Except.pure]

theorem Numeral.free (numeral : Numeral s) {c : UInt8} (other : numeralByte c = false) : c ∉ s := by
  intro inside
  have digit := numeral.2 c inside
  rw [other] at digit
  cases digit

theorem Split.numberIn (split : Split cs vs) (strict : ∀ s n, cast s = some n → Numeral s)
    (read : number cast vs i = .ok n) : numberIn cast cs i = some n := by
  obtain ⟨v, here, converted⟩ := number_ok.mp read
  have plain := (strict _ _ converted).free (show numeralByte 0 = false from by decide)
  rw [Matchers.numberIn, (split.column here).2.resolve_right plain]
  exact converted

theorem numberIn_numeral (strict : ∀ s n, cast s = some n → Numeral s)
    (read : numberIn cast cs i = some n) : ∃ d, cs[i]? = some d ∧ Numeral d := by
  obtain ⟨d, here, converted⟩ := Option.bind_eq_some_iff.mp read
  exact ⟨d, here, strict d n converted⟩

/-- Numbers in front are all found. -/
theorem Split.numbers_found (split : Split cs vs)
    (numerals : ∀ i ≤ j, ∃ d, cs[i]? = some d ∧ Numeral d) : j < vs.length := by
  obtain ⟨d, here, numeral⟩ := numerals j (Nat.le_refl j)
  refine split.field here numeral.1 ?_
  intro i le e inside
  obtain ⟨d, there, numeral⟩ := numerals i le
  rw [there] at inside
  cases inside
  exact numeral.free (by decide)

/-- A line is split at its tabs if a number comes first. -/
theorem split_of_number (strict : ∀ s n, cast s = some n → Numeral s)
    (found : splitString tab line = some vs)
    (read : number cast vs 0 = .ok n ∨ numberIn cast (columns line) 0 = some n) :
    Split (columns line) vs := by
  cases line with
  | nil => cases found
  | cons c rest =>
      have same : splitFrom tab (c :: rest) 1 rest = vs := Option.some.inj found
      have digit : numeralByte c = true := by
        rcases read with read | read
        · obtain ⟨v, here, converted⟩ := number_ok.mp read
          obtain ⟨w, ws, first, inside⟩ := splitFrom_first tab c rest rest Nat.one_ne_zero
          rw [← same, first] at here
          cases here
          exact (strict _ _ converted).2 c inside
        · obtain ⟨d, here, numeral⟩ := numberIn_numeral strict read
          by_cases delim : c = 9
          · -- then the first column is empty
            subst delim
            rw [columns_cons_tab] at here
            cases here
            exact absurd rfl numeral.1
          · obtain ⟨e, cs, whole⟩ := columns_head [c] (by simp [Ne.symm delim]) rest
            rw [List.singleton_append] at whole
            rw [whole] at here
            cases here
            exact numeral.2 c List.mem_cons_self
      have tabless : c ≠ 9 := by
        rintro rfl
        exact absurd digit (by decide)
      have plain : c ≠ 0 := by
        rintro rfl
        exact absurd digit (by decide)
      have split := splitFrom_split [c] (by simp [tabless.symm]) (by simp [plain.symm]) rest
      rwa [List.singleton_append, List.length_singleton, same] at split

end Numbers

end VanillaRtb.Matchers
