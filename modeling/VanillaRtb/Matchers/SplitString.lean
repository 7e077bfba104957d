import VanillaRtb.Matchers.Columns

/-! # What `split_string` reads

Here `split_string` goes along the bytes of a C string by pointers, so that it can be seen to
read behind the terminator. Otherwise it does what the scan of a record does, and the fields that
it appends are those of the string unless that begins with a delimiter.
-/

namespace VanillaRtb.Matchers.Pointers

inductive Fault where
  | outside
  | unfinished
  deriving DecidableEq

/-- A view of a string, the beginning as a distance from that of the string. -/
structure View where
  start : Nat
  size : Nat
  deriving DecidableEq

/-- The bytes that a view shows, and those from its beginning on. -/
def View.on (s : StdString) (v : View) : StringView := ⟨s.drop v.start, v.size⟩

/-- What `c_str` points to. -/
def cStr (s : StdString) : StdString := s ++ [0]

/-- `strpbrk`, from the bytes that can be read at `p`. -/
def strpbrk (delims : StdString) : Nat → StdString → Except Fault (Option Nat)
  | _, [] => .error .outside
  | p, c :: rest =>
      if c = 0 then .ok none
      else if c ∈ delims then .ok (some p)
      else strpbrk delims (p + 1) rest

/-- The loop, with a unit of fuel for each turn, and the `if` behind it. -/
def splitLoop (delims s : StdString) :
    Nat → Nat → Option Nat → List View → Except Fault (List View)
  | _, start, none, ret =>
      .ok (if start ≠ s.length then ret ++ [⟨start, s.length - start⟩] else ret)
  | 0, _, some _, _ => .error .unfinished
  | fuel + 1, start, some stop, ret => do
      let next ← strpbrk delims (stop + 1) ((cStr s).drop (stop + 1))
      splitLoop delims s fuel (stop + 1) next (ret ++ [⟨start, stop - start⟩])

def splitString (fuel : Nat) (ret : List View) (s delims : StdString) :
    Except Fault (List View) := do
  let stop ← strpbrk delims 1 ((cStr s).drop 1)
  splitLoop delims s fuel 0 stop ret

/-- The fields of a string, with nothing behind a delimiter at its end. -/
def fields (s delims : StdString) : List StdString :=
  let all := s.splitOnP (· ∈ delims)
  if all.getLast? = some [] then all.dropLast else all

section Refinement

variable {delims s rest : StdString} {p start : Nat}

/-- The scan from `p` on, `start` being where the open field begins. The induction is on the
bytes that are left. -/
theorem splitLoop_splitFrom (left : s.drop p = rest) (inside : start ≤ p)
    (within : p ≤ s.length) :
    ∃ views, views.map (View.on s) = splitFrom delims (s.drop start) (p - start) rest ∧
      ∀ fuel ret, rest.length ≤ fuel →
        (do
          let stop ← strpbrk delims p ((cStr s).drop p)
          splitLoop delims s fuel start stop ret) = .ok (ret ++ views) := by
  have readable : (cStr s).drop p = rest ++ [0] := by
    rw [cStr, List.drop_append_of_le_length within, left]
  rw [readable]
  induction rest generalizing p start with
  | nil =>
      have ended : p = s.length := by
        have := List.drop_eq_nil_iff.mp left
        omega
      subst ended
      by_cases none_ : start = s.length
      · refine ⟨[], by simp [splitFrom, none_], fun fuel ret _ => ?_⟩
        simp [strpbrk, splitLoop, none_, bind, Except.bind]
      · have open_ : s.length - start ≠ 0 := by omega
        refine ⟨[⟨start, s.length - start⟩], by simp [splitFrom, View.on, open_], ?_⟩
        intro fuel ret _
        simp [strpbrk, splitLoop, none_, bind, Except.bind]
  | cons c rest ih =>
      have length : s.length - p = rest.length + 1 := by
        rw [← List.length_drop, left, List.length_cons]
      have later : s.drop (p + 1) = rest := by
        rw [← List.drop_drop, left, List.drop_one, List.tail_cons]
      have further : (cStr s).drop (p + 1) = rest ++ [0] := by
        rw [cStr, List.drop_append_of_le_length (by omega), later]
      by_cases zero : c = 0
      · refine ⟨[⟨start, s.length - start⟩], by simp [splitFrom, View.on, zero], ?_⟩
        intro fuel ret _
        have more : start ≠ s.length := by omega
        simp [strpbrk, splitLoop, zero, more, bind, Except.bind]
      by_cases delim : c ∈ delims
      · obtain ⟨views, shows, ran⟩ := ih later (Nat.le_refl (p + 1)) (by omega) further
        refine ⟨⟨start, p - start⟩ :: views, ?_, ?_⟩
        · simp [splitFrom, View.on, zero, delim, shows, later]
        · intro fuel ret enough
          obtain ⟨fuel, rfl⟩ : ∃ f, fuel = f + 1 := by
            apply Nat.exists_eq_succ_of_ne_zero
            rw [List.length_cons] at enough
            omega
          have turn := ran fuel (ret ++ [⟨start, p - start⟩]) (Nat.le_of_succ_le_succ enough)
          simp only [List.cons_append, strpbrk, if_neg zero, if_pos delim, bind, Except.bind,
            splitLoop, further]
          simpa [bind, Except.bind] using turn
      · obtain ⟨views, shows, ran⟩ := ih later (Nat.le_succ_of_le inside) (by omega) further
        refine ⟨views, ?_, ?_⟩
        · have one : p + 1 - start = p - start + 1 := by omega
          rw [shows, splitFrom, if_neg zero, if_neg delim, one]
        · intro fuel ret enough
          simpa [strpbrk, zero, delim] using ran fuel ret (Nat.le_of_succ_le enough)

/-- The pointers find what the scan of a record finds. -/
theorem splitString_refines (delims : StdString) (c : UInt8) (rest : StdString) :
    ∃ views,
      Matchers.splitString delims (c :: rest) = some (views.map (View.on (c :: rest))) ∧
      ∀ fuel ret, rest.length ≤ fuel →
        splitString fuel ret (c :: rest) delims = .ok (ret ++ views) := by
  obtain ⟨views, shows, ran⟩ :=
    @splitLoop_splitFrom delims (c :: rest) rest 1 0 rfl (Nat.zero_le 1) (by simp)
  exact ⟨views, by simp [Matchers.splitString, shows], ran⟩

end Refinement

section Fields

variable {delims before rest s : StdString} {c : UInt8}

theorem fields_append_cons (free : ∀ b ∈ before, b ∉ delims) (delim : c ∈ delims) :
    fields (before ++ c :: rest) delims = before :: fields rest delims := by
  have split : (before ++ c :: rest).splitOnP (· ∈ delims) =
      before :: rest.splitOnP (· ∈ delims) :=
    List.splitOnP_append_cons_of_forall_mem (by simpa using free) c (by simpa using delim) rest
  obtain ⟨f, fs, more⟩ := List.exists_cons_of_ne_nil
    (List.splitOnP_ne_nil (fun b => decide (b ∈ delims)) rest)
  simp only [fields, split, more, List.getLast?_cons_cons, List.dropLast_cons_cons]
  split <;> rfl

theorem fields_free (free : ∀ b ∈ before, b ∉ delims) :
    fields before delims = if before = [] then [] else [before] := by
  have whole : before.splitOnP (· ∈ delims) = [before] :=
    List.splitOnP_eq_singleton (by simpa using free)
  simp [fields, whole]

/-- The induction is on what the scan has not seen; `before` is the open field. -/
theorem splitFrom_fields (free : ∀ b ∈ before, b ∉ delims) (plain : 0 ∉ rest) :
    (splitFrom delims (before ++ rest) before.length rest).map StringView.text =
        fields (before ++ rest) delims ∧
      ∀ v ∈ splitFrom delims (before ++ rest) before.length rest, ∀ b ∈ v.text, b ∉ delims := by
  induction rest generalizing before with
  | nil =>
      rw [List.append_nil, fields_free free]
      cases before with
      | nil => simp [splitFrom]
      | cons b before => simpa [splitFrom, StringView.text] using free
  | cons c rest ih =>
      have zero : c ≠ 0 := by
        rintro rfl
        exact plain List.mem_cons_self
      have later : 0 ∉ rest := fun inside => plain (List.mem_cons_of_mem c inside)
      by_cases delim : c ∈ delims
      · obtain ⟨texts, within⟩ := @ih [] (by simp) later
        rw [fields_append_cons free delim]
        simp only [List.nil_append, List.length_nil] at texts within
        simp only [splitFrom, if_neg zero, if_pos delim]
        refine ⟨by simp [StringView.text, texts], ?_⟩
        simpa [StringView.text] using ⟨free, within⟩
      · have longer : ∀ b ∈ before ++ [c], b ∉ delims := by
          simpa [or_imp, forall_and] using ⟨free, delim⟩
        have here := ih longer later
        simpa [splitFrom, zero, delim] using here

/-- `split_string` appends the fields to whatever was there, and reads nothing outside. -/
def Splits (s delims : StdString) : Prop :=
  ∃ views, (∀ fuel ret, s.length ≤ fuel → splitString fuel ret s delims = .ok (ret ++ views)) ∧
    views.map (fun v => (v.on s).text) = fields s delims ∧
    ∀ v ∈ views, ∀ b ∈ (v.on s).text, b ∉ delims

/-- A string that is empty or begins with a delimiter is not split as it should be; all others
are. -/
theorem splitString_fields_iff (s delims : StdString) (plain : 0 ∉ s) :
    Splits s delims ↔ ∃ c rest, s = c :: rest ∧ c ∉ delims := by
  constructor
  · rintro ⟨views, ran, -, within⟩
    cases s with
    | nil => cases ran 0 [] (Nat.le_refl 0)
    | cons c rest =>
        refine ⟨c, rest, rfl, ?_⟩
        obtain ⟨found, shows, finds⟩ := splitString_refines delims c rest
        have same : found = views := by
          have here := finds (rest.length + 1) [] (Nat.le_succ _)
          rw [ran (rest.length + 1) [] (Nat.le_refl _)] at here
          simpa using here.symm
        subst same
        obtain ⟨v, vs, begins, inside⟩ :=
          splitFrom_first delims c rest rest Nat.one_ne_zero
        have mapped : found.map (View.on (c :: rest)) = v :: vs :=
          (Option.some.inj shows).symm.trans begins
        have member : v ∈ found.map (View.on (c :: rest)) := by simp [mapped]
        obtain ⟨w, here, rfl⟩ := List.mem_map.mp member
        exact within w here c inside
  · rintro ⟨c, rest, rfl, first⟩
    obtain ⟨views, shows, ran⟩ := splitString_refines delims c rest
    have later : 0 ∉ rest := fun inside => plain (List.mem_cons_of_mem c inside)
    obtain ⟨texts, within⟩ := @splitFrom_fields delims [c] rest (by simpa using first) later
    have same : views.map (View.on (c :: rest)) = splitFrom delims ([c] ++ rest) 1 rest :=
      (Option.some.inj shows).symm
    refine ⟨views, ?_, ?_, ?_⟩
    · intro fuel ret enough
      exact ran fuel ret (Nat.le_of_succ_le enough)
    · have mapped := texts
      rw [List.length_singleton, ← same, List.map_map] at mapped
      exact mapped
    · intro v member
      apply within
      have mapped := List.mem_map_of_mem (f := View.on (c :: rest)) member
      rwa [same] at mapped

theorem splitString_fields_record :
    Splits (ascii "91\t5") tab ↔ ∃ c rest, ascii "91\t5" = c :: rest ∧ c ∉ tab :=
  splitString_fields_iff (ascii "91\t5") tab (by decide)

/-- A string that begins with a delimiter gives one field, with the delimiter in it. -/
theorem leading_delimiter_kept : ¬ Splits (ascii "\t5") tab := by
  rintro ⟨views, ran, texts, -⟩
  have here : splitString 2 [] (ascii "\t5") tab = .ok [⟨0, 2⟩] := by decide
  rw [ran 2 [] (by decide), List.nil_append, Except.ok.injEq] at here
  subst here
  exact absurd texts (by decide)

end Fields

end VanillaRtb.Matchers.Pointers
