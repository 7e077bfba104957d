import VanillaRtb.Lib.Outcome
import VanillaRtb.Matchers.Loading

/-! # What a load makes of its lines

A line is complete if it has all the columns of its record. A load that returns should leave
the records of the complete lines, and a line that is short should neither leave anything nor
end the load. The first line leaves a default-constructed record if it is short, a blank line
is read behind its end, and an ad is asked for one column less than it is made of.
-/

namespace VanillaRtb.Matchers

open Campaign Lib

variable {R E : Type} {key : E → List Nat}

/-- How many fields `split_string` finds. -/
def fieldCount (line : StdString) : Nat :=
  match splitString tab line with
  | some fields => fields.length
  | none => 0

/-- The columns that a record is made of, and the agreement of `operator>>` with them: what it
    reads is in the columns, and it finds what is in them. -/
structure Layout (l : Loader R key) where
  required : Nat
  record : List StdString → Option R
  reads : ∀ line fields r, splitString tab line = some fields → l.convert fields = .ok r →
    required ≤ (columns line).length ∧ record (columns line) = some r
  finds : ∀ line fields r, splitString tab line = some fields → record (columns line) = some r →
    l.checked ≤ fields.length

namespace Layout

variable {l : Loader R key} (layout : Layout l)

/-- The record of a complete line. -/
def complete (line : StdString) : Option R :=
  if layout.required ≤ (columns line).length then layout.record (columns line) else none

/-- While memory lasts, a load that returns leaves the records of the complete lines, the first
    of each key, and only a complete line makes it fail. -/
structure LoadsComplete (text : StdString) : Prop where
  contents : ∀ source old cache,
    l.load source (fun _ => false) (some text) old = (cache, .ok ()) →
      cache.FirstOfEach (((getlines text).filterMap layout.complete).map l.store)
  spared : ∀ before line after, getlines text = before ++ line :: after →
    (l.loadLines (fun _ => false) before).2 = .ok () →
    (l.loadLines (fun _ => false) (before ++ [line])).2 ≠ .ok () →
      layout.required ≤ (columns line).length

/-- A short line that a load comes to is not blank and has fewer fields than are asked for, and
    if it is the first one of a file that is read to its end, then the first record with the key
    of a default-constructed one is a default-constructed one. -/
structure ReadsWell (lines : List StdString) : Prop where
  short : ∀ before line after, lines = before ++ line :: after → (∀ b ∈ before, l.Reads b) →
    (columns line).length < layout.required → line ≠ [] ∧ fieldCount line < l.checked
  first : (∀ line ∈ lines, l.Reads line) → ∀ line ∈ lines.head?, fieldCount line < l.checked →
    ((lines.filterMap layout.complete).map l.store).find?
      (fun e => key e = key (l.store l.initial)) = some (l.store l.initial)

variable {layout} {line : StdString} {lines : List StdString} {value : R}

theorem passes_iff : Each (l.Passes fun _ => false) lines ↔ ∀ line ∈ lines, l.Reads line := by
  constructor
  · intro each line inside
    obtain ⟨i, here⟩ := List.mem_iff_getElem?.mp inside
    exact (each i line here).1
  · intro reads i line here
    exact ⟨reads line (List.mem_of_getElem? here), rfl⟩

/-- While memory lasts, a load returns exactly if all lines are read. -/
theorem returns_iff : (l.loadLines (fun _ => false) lines).2 = .ok () ↔
    ∀ line ∈ lines, l.Reads line := by
  constructor
  · intro returned
    rcases each_or_first (l.Passes fun _ => false) lines with
      passes | ⟨before, line, after, split, passed, fails⟩
    · exact passes_iff.mp passes
    · obtain ⟨e, failed, -⟩ := Loader.loadLines_stopped passed fails after
      rw [split, failed] at returned
      cases returned
  · intro reads
    exact (Loader.loadLines_passed (passes_iff.mpr reads)).1

/-- Where as many fields are asked for as there are columns in a record, a line that is short
    has too few of them, so that only a blank one is not read. -/
theorem fieldCount_lt (asked : layout.required ≤ l.checked)
    (few : (columns line).length < layout.required) : fieldCount line < l.checked := by
  rw [fieldCount]
  cases found : splitString tab line with
  | none => exact (Nat.zero_le _).trans_lt (few.trans_le asked)
  | some fields => exact ((fields_le_columns found).trans_lt few).trans_le asked

theorem entry_short (found : splitString tab line = some fields)
    (short : fields.length < l.checked) : l.entry line = none := by
  simp [Loader.entry, found, short]

/-- A line that is read gives the record of its columns, if it is complete and has one. -/
theorem entry_eq (reads : l.Reads line) : l.entry line = layout.complete line := by
  obtain ⟨fields, found, read⟩ := reads
  by_cases short : fields.length < l.checked
  · rw [entry_short found short]
    cases whole : layout.complete line with
    | none => rfl
    | some r =>
        rw [complete] at whole
        split at whole
        · have enough := layout.finds line fields r found whole
          omega
        · cases whole
  · obtain ⟨r, converted⟩ := read.resolve_left short
    obtain ⟨enough, record⟩ := layout.reads line fields r found converted
    rw [complete, if_pos enough, record]
    simp [Loader.entry, found, short, converted, Except.toOption]

/-- Repeating a record changes nothing about which comes first. -/
theorem find?_yielded (p : R → Bool) (value : R) (lines : List StdString) :
    (value :: l.yielded value lines).find? p = (value :: lines.filterMap l.entry).find? p := by
  induction lines generalizing value with
  | nil => rfl
  | cons line lines ih =>
      by_cases here : p value = true
      · rw [List.find?_cons_of_pos here, List.find?_cons_of_pos here]
      rw [List.find?_cons_of_neg here, List.find?_cons_of_neg here, Loader.yielded]
      cases entry : l.entry line with
      | none =>
          rw [Option.getD_none, ih, List.find?_cons_of_neg here, List.filterMap_cons_none entry]
      | some r => rw [Option.getD_some, ih, List.filterMap_cons_some entry]

/-- What is stored, without the repetitions. -/
theorem find?_yielded_initial (p : R → Bool) (lines : List StdString) :
    (l.yielded l.initial lines).find? p =
      if ∃ line ∈ lines.head?, l.entry line = none then
        (l.initial :: lines.filterMap l.entry).find? p
      else (lines.filterMap l.entry).find? p := by
  cases lines with
  | nil => simp [Loader.yielded]
  | cons line lines =>
      cases entry : l.entry line with
      | none =>
          rw [if_pos ⟨line, rfl, entry⟩, Loader.yielded, entry, Option.getD_none, find?_yielded,
            List.filterMap_cons_none entry]
      | some r =>
          have given : ¬ ∃ first ∈ (line :: lines).head?, l.entry first = none := by
            rintro ⟨first, here, none_⟩
            cases here
            rw [entry] at none_
            cases none_
          rw [if_neg given, Loader.yielded, entry, Option.getD_some, find?_yielded,
            List.filterMap_cons_some entry]

theorem entry_none_iff (reads : l.Reads line) : l.entry line = none ↔ fieldCount line < l.checked := by
  obtain ⟨fields, found, read⟩ := reads
  rw [fieldCount, found]
  by_cases short : fields.length < l.checked
  · exact iff_of_true (entry_short found short) short
  · obtain ⟨r, converted⟩ := read.resolve_left short
    simp [Loader.entry, found, short, converted, Except.toOption]

theorem filterMap_entry (reads : ∀ line ∈ lines, l.Reads line) :
    lines.filterMap l.entry = lines.filterMap layout.complete :=
  List.filterMap_congr fun line inside => entry_eq (reads line inside)

/-- A default-constructed record in front shows only under its own key. -/
theorem stored_find? (reads : ∀ line ∈ lines, l.Reads line)
    (first : ∀ line ∈ lines.head?, fieldCount line < l.checked →
      ((lines.filterMap layout.complete).map l.store).find?
        (fun e => key e = key (l.store l.initial)) = some (l.store l.initial)) (k : List Nat) :
    ((l.yielded l.initial lines).map l.store).find? (fun e => key e = k) =
      ((lines.filterMap layout.complete).map l.store).find? (fun e => key e = k) := by
  rw [List.find?_map, find?_yielded_initial, filterMap_entry reads]
  split
  · rename_i short
    obtain ⟨line, here, none_⟩ := short
    have inside : line ∈ lines := List.mem_of_mem_head? here
    have found := first line here ((entry_none_iff (reads line inside)).mp none_)
    by_cases same : key (l.store l.initial) = k
    · rw [List.find?_cons_of_pos (by simpa using same), ← same, found]
      rfl
    · rw [List.find?_cons_of_neg (by simpa using same), List.find?_map]
  · rw [List.find?_map]

theorem loadsComplete_iff {text : StdString} :
    layout.LoadsComplete text ↔ layout.ReadsWell (getlines text) := by
  constructor
  · intro loads
    refine ⟨?_, ?_⟩
    · intro before line after split reads few
      by_contra misread
      have refused : ¬ l.Reads line := by
        rintro ⟨fields, found, short | ⟨r, converted⟩⟩
        · refine misread ⟨?_, ?_⟩
          · rintro rfl
            cases found
          · rwa [fieldCount, found]
        · have enough := (layout.reads line fields r found converted).1
          omega
      have failed : (l.loadLines (fun _ => false) (before ++ [line])).2 ≠ .ok () := by
        intro returned
        exact refused (returns_iff.mp returned line (by simp))
      have whole := loads.spared before line after split (returns_iff.mpr reads) failed
      omega
    · intro reads line here short
      have stored := (Loader.loadLines_passed (passes_iff.mpr reads)).2
      have complete := loads.contents [] (.empty key) _ (Prod.ext rfl (returns_iff.mpr reads))
      refine (complete _).mp ((stored _).mpr ?_)
      have inside : line ∈ getlines text := List.mem_of_mem_head? here
      have none_ := (entry_none_iff (reads line inside)).mpr short
      rw [List.find?_map, find?_yielded_initial, if_pos ⟨line, here, none_⟩,
        List.find?_cons_of_pos (by simp)]
      rfl
  · intro well
    refine ⟨?_, ?_⟩
    · intro source old cache returned
      change l.loadLines _ (getlines text) = _ at returned
      have reads := returns_iff.mp (congrArg Prod.snd returned)
      have stored := (Loader.loadLines_passed (passes_iff.mpr reads)).2
      rw [returned] at stored
      intro e
      rw [stored e, stored_find? reads (well.first reads)]
    · intro before line after split returned failed
      by_contra few
      obtain ⟨some_, fewer⟩ :=
        well.short before line after split (returns_iff.mp returned) (Nat.lt_of_not_le few)
      refine failed (returns_iff.mpr ?_)
      intro b inside
      rcases List.mem_append.mp inside with earlier | last
      · exact returns_iff.mp returned b earlier
      · cases List.mem_singleton.mp last
        cases line with
        | nil => exact absurd rfl some_
        | cons c rest => exact ⟨_, rfl, .inl fewer⟩

end Layout

section Caches

variable (lc : LexicalCast) {line : StdString} {fields : List StringView}

/-- An ad in seven columns, the last of which takes what follows. -/
def Ad.ofColumns (cs : List StdString) : Option Ad := do
  let adId ← numberIn lc.uint64 cs 0
  let campaignId ← numberIn lc.uint64 cs 1
  let width ← numberIn lc.uint16 cs 2
  let height ← numberIn lc.uint16 cs 3
  let position ← numberIn lc.uint16 cs 4
  let maxBidMicros ← numberIn lc.uint64 cs 5
  some { adId, campaignId := campaignId.toUInt32, width, height, position, maxBidMicros
         code := (joined (cs.drop 6)).takeWhile fun c => c ≠ 0 }

/-- What is read is in the columns. -/
theorem ad_reads {lc} {r} (found : splitString tab line = some fields)
    (converted : Ad.convert lc fields = .ok r) :
    7 ≤ (columns line).length ∧ Ad.ofColumns lc (columns line) = some r := by
  obtain ⟨adId, read₀, converted⟩ := bind_eq_ok.mp converted
  obtain ⟨campaignId, read₁, converted⟩ := bind_eq_ok.mp converted
  obtain ⟨width, read₂, converted⟩ := bind_eq_ok.mp converted
  obtain ⟨height, read₃, converted⟩ := bind_eq_ok.mp converted
  obtain ⟨position, read₄, converted⟩ := bind_eq_ok.mp converted
  obtain ⟨maxBidMicros, read₅, converted⟩ := bind_eq_ok.mp converted
  obtain ⟨code, read₆, converted⟩ := bind_eq_ok.mp converted
  cases converted
  have split := split_of_number lc.numeral64 found (.inl read₀)
  have last := field_ok.mp read₆
  have enough := (List.getElem?_eq_some_iff.mp last).1
  refine ⟨enough.trans_le (fields_le_columns found), ?_⟩
  simp only [Ad.ofColumns, split.numberIn lc.numeral64 read₀, split.numberIn lc.numeral64 read₁,
    split.numberIn lc.numeral16 read₂, split.numberIn lc.numeral16 read₃,
    split.numberIn lc.numeral16 read₄, split.numberIn lc.numeral64 read₅,
    Option.bind_eq_bind, Option.bind_some, ← (split.column last).1, StringView.cString]

/-- The numbers in the columns are all found. -/
theorem ad_finds {lc} {r} (found : splitString tab line = some fields)
    (record : Ad.ofColumns lc (columns line) = some r) : 6 ≤ fields.length := by
  obtain ⟨adId, read₀, record⟩ := Option.bind_eq_some_iff.mp record
  obtain ⟨campaignId, read₁, record⟩ := Option.bind_eq_some_iff.mp record
  obtain ⟨width, read₂, record⟩ := Option.bind_eq_some_iff.mp record
  obtain ⟨height, read₃, record⟩ := Option.bind_eq_some_iff.mp record
  obtain ⟨position, read₄, record⟩ := Option.bind_eq_some_iff.mp record
  obtain ⟨maxBidMicros, read₅, -⟩ := Option.bind_eq_some_iff.mp record
  have split := split_of_number lc.numeral64 found (.inr read₀)
  apply split.numbers_found
  intro i le
  interval_cases i
  · exact numberIn_numeral lc.numeral64 read₀
  · exact numberIn_numeral lc.numeral64 read₁
  · exact numberIn_numeral lc.numeral16 read₂
  · exact numberIn_numeral lc.numeral16 read₃
  · exact numberIn_numeral lc.numeral16 read₄
  · exact numberIn_numeral lc.numeral64 read₅

def AdDataEntity.layout : Layout (AdDataEntity.loader lc) where
  required := 7
  record := Ad.ofColumns lc
  reads _ _ _ := ad_reads
  finds _ _ _ := ad_finds

def GeoCampaign.ofColumns (cs : List StdString) : Option GeoCampaign := do
  let geoId ← numberIn lc.uint32 cs 0
  let campaignId ← numberIn lc.uint32 cs 1
  some { geoId, campaignId }

/-- What is read is in the columns. -/
theorem geoCampaign_reads {lc} {r} (found : splitString tab line = some fields)
    (converted : GeoCampaign.convert lc fields = .ok r) :
    2 ≤ (columns line).length ∧ GeoCampaign.ofColumns lc (columns line) = some r := by
  obtain ⟨geoId, read₀, converted⟩ := bind_eq_ok.mp converted
  obtain ⟨campaignId, read₁, converted⟩ := bind_eq_ok.mp converted
  cases converted
  have split := split_of_number lc.numeral32 found (.inl read₀)
  obtain ⟨v, last, -⟩ := number_ok.mp read₁
  have enough := (List.getElem?_eq_some_iff.mp last).1
  refine ⟨enough.trans_le (fields_le_columns found), ?_⟩
  simp only [GeoCampaign.ofColumns, split.numberIn lc.numeral32 read₀,
    split.numberIn lc.numeral32 read₁, Option.bind_eq_bind, Option.bind_some]

/-- The numbers in the columns are all found. -/
theorem geoCampaign_finds {lc} {r} (found : splitString tab line = some fields)
    (record : GeoCampaign.ofColumns lc (columns line) = some r) : 2 ≤ fields.length := by
  obtain ⟨geoId, read₀, record⟩ := Option.bind_eq_some_iff.mp record
  obtain ⟨campaignId, read₁, -⟩ := Option.bind_eq_some_iff.mp record
  have split := split_of_number lc.numeral32 found (.inr read₀)
  apply split.numbers_found
  intro i le
  interval_cases i
  · exact numberIn_numeral lc.numeral32 read₀
  · exact numberIn_numeral lc.numeral32 read₁

def GeoCampaignEntity.layout : Layout (GeoCampaignEntity.loader lc) where
  required := 2
  record := GeoCampaign.ofColumns lc
  reads _ _ _ := geoCampaign_reads
  finds _ _ _ := geoCampaign_finds

def budgetOfColumns (cs : List StdString) : Option CampaignBudget := do
  let campaignId ← numberIn lc.uint32 cs 0
  let dayBudgetLimit ← numberIn lc.uint64 cs 1
  let dayBudgetSpent ← numberIn lc.uint64 cs 2
  let type ← numberIn lc.uint32 cs 3
  let value ← numberIn lc.uint64 cs 4
  some { campaignId, dayBudgetLimit, dayBudgetSpent, metric := ⟨metricType type, value⟩ }

/-- What is read is in the columns. -/
theorem campaignBudget_reads {lc} {r} (found : splitString tab line = some fields)
    (converted : CampaignBudget.convert lc fields = .ok r) :
    5 ≤ (columns line).length ∧ budgetOfColumns lc (columns line) = some r := by
  obtain ⟨campaignId, read₀, converted⟩ := bind_eq_ok.mp converted
  obtain ⟨dayBudgetLimit, read₁, converted⟩ := bind_eq_ok.mp converted
  obtain ⟨dayBudgetSpent, read₂, converted⟩ := bind_eq_ok.mp converted
  obtain ⟨type, read₃, converted⟩ := bind_eq_ok.mp converted
  obtain ⟨value, read₄, converted⟩ := bind_eq_ok.mp converted
  cases converted
  have split := split_of_number lc.numeral32 found (.inl read₀)
  obtain ⟨v, last, -⟩ := number_ok.mp read₄
  have enough := (List.getElem?_eq_some_iff.mp last).1
  refine ⟨enough.trans_le (fields_le_columns found), ?_⟩
  simp only [budgetOfColumns, split.numberIn lc.numeral32 read₀,
    split.numberIn lc.numeral64 read₁, split.numberIn lc.numeral64 read₂,
    split.numberIn lc.numeral32 read₃, split.numberIn lc.numeral64 read₄,
    Option.bind_eq_bind, Option.bind_some]

/-- The numbers in the columns are all found. -/
theorem campaignBudget_finds {lc} {r} (found : splitString tab line = some fields)
    (record : budgetOfColumns lc (columns line) = some r) : 5 ≤ fields.length := by
  obtain ⟨campaignId, read₀, record⟩ := Option.bind_eq_some_iff.mp record
  obtain ⟨dayBudgetLimit, read₁, record⟩ := Option.bind_eq_some_iff.mp record
  obtain ⟨dayBudgetSpent, read₂, record⟩ := Option.bind_eq_some_iff.mp record
  obtain ⟨type, read₃, record⟩ := Option.bind_eq_some_iff.mp record
  obtain ⟨value, read₄, -⟩ := Option.bind_eq_some_iff.mp record
  have split := split_of_number lc.numeral32 found (.inr read₀)
  apply split.numbers_found
  intro i le
  interval_cases i
  · exact numberIn_numeral lc.numeral32 read₀
  · exact numberIn_numeral lc.numeral64 read₁
  · exact numberIn_numeral lc.numeral64 read₂
  · exact numberIn_numeral lc.numeral32 read₃
  · exact numberIn_numeral lc.numeral64 read₄

def campaignLayout : Layout (CampaignCache.loader lc) where
  required := 5
  record := budgetOfColumns lc
  reads _ _ _ := campaignBudget_reads
  finds _ _ _ := campaignBudget_finds

/-- A load that returns leaves the records of the complete lines, and short lines do not make
    it fail, exactly if it comes to no blank line, to no line of six fields where ads are
    loaded, and not to a short line first, unless that leaves what is there anyway. -/
theorem loads_complete_iff (text : StdString) :
    ((AdDataEntity.layout lc).LoadsComplete text ↔
      (AdDataEntity.layout lc).ReadsWell (getlines text)) ∧
    ((GeoCampaignEntity.layout lc).LoadsComplete text ↔
      (GeoCampaignEntity.layout lc).ReadsWell (getlines text)) ∧
    ((campaignLayout lc).LoadsComplete text ↔ (campaignLayout lc).ReadsWell (getlines text)) :=
  ⟨Layout.loadsComplete_iff, Layout.loadsComplete_iff, Layout.loadsComplete_iff⟩

/-- A file of one short line leaves a campaign 0 for location 0. -/
theorem first_short_line_stored : ¬ ∀ text : StdString,
    (GeoCampaignEntity.layout .classic).LoadsComplete text := by
  intro always
  have well := Layout.loadsComplete_iff.mp (always (ascii "7\n"))
  have lines : getlines (ascii "7\n") = [ascii "7"] := by decide +kernel
  rw [lines] at well
  have short : fieldCount (ascii "7") < 2 := by decide +kernel
  have reads : ∀ line ∈ [ascii "7"], (GeoCampaignEntity.loader .classic).Reads line := by
    intro line inside
    cases List.mem_singleton.mp inside
    exact ⟨_, rfl, .inl short⟩
  have found := well.first reads (ascii "7") rfl short
  exact absurd found (by decide +kernel)

end Caches

end VanillaRtb.Matchers
