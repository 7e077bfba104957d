import VanillaRtb.Parsers.JsmnText

/-! # Where the tokens lie

Whatever the text is, a token that the parser gives lies in it, and no more tokens are counted in
it than the text has bytes. The pass has a reach: the bytes it has been at and those it will skip.
A turn takes it at least one byte on, and no token it makes or changes goes beyond it.
-/

namespace VanillaRtb.Parsers

open Lib

namespace Jsmn

open JsmnToken

/-- A token within the first so many bytes. -/
structure InReach (reach : Nat) (t : JsmnToken) : Prop where
  ordered : t.start ≤ t.end_.getD t.start
  inside : t.end_.getD t.start ≤ reach
  counted : t.size ≤ reach

theorem InReach.mono {reach further : Nat} {t : JsmnToken} (le : reach ≤ further)
    (h : InReach reach t) : InReach further t :=
  ⟨h.ordered, h.inside.trans le, h.counted.trans le⟩

theorem InReach.grow {reach : Nat} {t : JsmnToken} (h : InReach reach t) :
    InReach (reach + 1) t.grow :=
  ⟨h.ordered, h.inside.trans (Nat.le_succ reach), Nat.succ_le_succ h.counted⟩

theorem InReach.of_grow {reach : Nat} {t : JsmnToken} (h : InReach reach t.grow) :
    InReach reach t :=
  ⟨h.ordered, h.inside, (Nat.le_succ t.size).trans h.counted⟩

theorem InReach.close {pos : Nat} {t : JsmnToken} (h : InReach pos t) :
    InReach (pos + 1) { t with end_ := some (pos + 1) } :=
  ⟨(h.ordered.trans h.inside).trans (Nat.le_succ pos), le_rfl, h.counted.trans (Nat.le_succ pos)⟩

/-- All tokens so far. -/
def AllInReach (reach : Nat) (ts : List JsmnToken) : Prop := ∀ t ∈ ts, InReach reach t

section

variable {reach further num pos : Nat} {p : Jsmn} {ts : List JsmnToken}

theorem AllInReach.mono (le : reach ≤ further) (h : AllInReach reach ts) : AllInReach further ts :=
  fun t inside => (h t inside).mono le

theorem AllInReach.modify {f : JsmnToken → JsmnToken}
    (all : ∀ t ∈ ts, InReach reach t ∧ InReach reach (f t)) (i : Nat) :
    AllInReach reach (ts.modify i f) := by
  induction ts generalizing i with
  | nil =>
      rw [List.modify_nil]
      exact fun t inside => (all t inside).1
  | cons t ts ih =>
      have both := List.forall_mem_cons.1 all
      cases i with
      | zero => exact List.forall_mem_cons.2 ⟨both.1.2, fun t inside => (both.2 t inside).1⟩
      | succ i => exact List.forall_mem_cons.2 ⟨both.1.1, ih both.2 i⟩

theorem growSuper_inReach (all : ∀ t ∈ p.tokens, InReach reach t.grow) :
    AllInReach reach p.growSuper.tokens := by
  unfold growSuper
  split
  next i _ => exact AllInReach.modify (fun t inside => ⟨(all t inside).of_grow, all t inside⟩) i
  next => exact fun t inside => (all t inside).of_grow

/-- A new token, counted in the one that is named. -/
theorem taken_inReach {t : JsmnToken} {f : Jsmn → T} {r : T}
    (h : (do let p ← p.allocToken num t; pure (f p.growSuper)) = Except.ok r)
    (le : reach + 1 ≤ further) (all : AllInReach reach p.tokens) (one : InReach further t.grow) :
    ∃ q, r = f q ∧ AllInReach further q.tokens := by
  rw [allocToken] at h
  split at h
  · cases h
  · cases h
    refine ⟨_, rfl, growSuper_inReach (List.forall_mem_append.2 ⟨?_, ?_⟩)⟩
    · intro t inside
      exact (all t inside).grow.mono le
    · exact List.forall_mem_singleton.2 one

theorem openToken_inReach {type : JsmnType} {q : Jsmn} (all : AllInReach pos p.tokens)
    (h : p.openToken num pos type = .ok q) : AllInReach (pos + 1) q.tokens := by
  rw [openToken] at h
  obtain ⟨q, same, reached⟩ := taken_inReach (t := { type, start := pos, end_ := none })
    (f := fun p => { p with toksuper := some (p.tokens.length - 1) }) h le_rfl all
    ⟨le_rfl, Nat.le_succ pos, Nat.le_add_left 1 pos⟩
  cases same
  exact reached

theorem closeToken_inReach {type : JsmnType} {q : Jsmn} (all : AllInReach pos p.tokens)
    (h : p.closeToken pos type = .ok q) : AllInReach (pos + 1) q.tokens := by
  rw [closeToken] at h
  split at h
  · cases h
  · split at h
    · cases h
    · cases h
      apply AllInReach.modify
      intro t inside
      exact ⟨(all t inside).mono (Nat.le_succ pos), (all t inside).close⟩

theorem primitiveLength_le {cs : StdString} {n : Nat} (h : primitiveLength cs = .ok n) :
    n ≤ cs.length := by
  induction cs generalizing n with
  | nil =>
      cases h
      exact le_rfl
  | cons c cs ih =>
      rw [primitiveLength] at h
      split at h
      · cases h
        exact Nat.zero_le _
      · split at h
        · cases h
        · obtain ⟨m, rest, rfl⟩ := map_eq_ok.mp h
          exact Nat.succ_le_succ (ih rest)

theorem counted_lt {length : Except JsmnError Nat} {k n m : Nat}
    (ih : ∀ {n}, length = .ok n → n < m) (h : length.map (· + k) = .ok n) : n < m + k := by
  obtain ⟨l, rest, rfl⟩ := map_eq_ok.mp h
  exact Nat.add_lt_add_right (ih rest) k

/-- The closing quote stands behind them. -/
theorem stringLength_lt {hex : Nat} {cs : StdString} {n : Nat} (h : stringLength hex cs = .ok n) :
    n < cs.length := by
  fun_induction stringLength hex cs generalizing n with
  | case1 | case2 | case4 | case5 | case7 | case10 => cases h
  | case3 hex c cs _ _ ih => exact counted_lt ih h
  | case6 c cs =>
      cases h
      exact Nat.succ_pos _
  | case8 e cs _ _ _ ih => exact counted_lt (k := 2) (m := cs.length) ih h
  | case9 cs _ _ _ ih => exact counted_lt (k := 2) (m := cs.length) ih h
  | case11 c cs _ _ _ ih => exact counted_lt ih h

theorem primitive_inReach {cs : StdString} {skip : Nat} {q : Jsmn}
    (all : AllInReach pos p.tokens) (some_ : cs ≠ [])
    (h : p.primitive num pos cs = .ok (q, skip)) :
    AllInReach (pos + 1 + skip) q.tokens ∧ skip < cs.length := by
  rw [primitive] at h
  obtain ⟨n, len, taken⟩ := bind_eq_ok.mp h
  have within := primitiveLength_le len
  have first := List.length_pos_iff.2 some_
  obtain ⟨q, same, reached⟩ := taken_inReach (f := fun p => (p, n - 1)) taken
    (Nat.le_add_right (pos + 1) (n - 1)) all
    ⟨Nat.le_add_right pos n, by dsimp only [JsmnToken.grow, Option.getD_some]; omega,
      by dsimp only [JsmnToken.grow]; omega⟩
  cases same
  exact ⟨reached, by omega⟩

theorem string_inReach {cs : StdString} {skip : Nat} {q : Jsmn}
    (all : AllInReach pos p.tokens) (h : p.string num pos cs = .ok (q, skip)) :
    AllInReach (pos + 1 + skip) q.tokens ∧ skip ≤ cs.length := by
  rw [string] at h
  obtain ⟨n, len, taken⟩ := bind_eq_ok.mp h
  obtain ⟨q, same, reached⟩ := taken_inReach (f := fun p => (p, n + 1)) taken
    (Nat.le_add_right (pos + 1) (n + 1)) all
    ⟨Nat.le_add_right (pos + 1) n, by dsimp only [JsmnToken.grow, Option.getD_some]; omega,
      by dsimp only [JsmnToken.grow]; omega⟩
  cases same
  exact ⟨reached, stringLength_lt len⟩

theorem step_inReach {c : UInt8} {cs : StdString} {skip : Nat} {q : Jsmn}
    (all : AllInReach pos p.tokens) (h : p.step num pos c cs = .ok (q, skip)) :
    AllInReach (pos + 1 + skip) q.tokens ∧ skip ≤ cs.length := by
  have opens {type : JsmnType} (h : (p.openToken num pos type).map (·, 0) = .ok (q, skip)) :
      AllInReach (pos + 1 + skip) q.tokens ∧ skip ≤ cs.length := by
    obtain ⟨opened, rfl⟩ := map_pair_ok h
    exact ⟨openToken_inReach all opened, Nat.zero_le _⟩
  have closes {type : JsmnType} (h : (p.closeToken pos type).map (·, 0) = .ok (q, skip)) :
      AllInReach (pos + 1 + skip) q.tokens ∧ skip ≤ cs.length := by
    obtain ⟨closed, rfl⟩ := map_pair_ok h
    exact ⟨closeToken_inReach all closed, Nat.zero_le _⟩
  have on : AllInReach (pos + 1) p.tokens := all.mono (Nat.le_succ pos)
  unfold step at h
  split_ifs at h with isOpen isArray isClose isArrayClose isQuote isBlank isColon isComma
  · exact opens h
  · exact opens h
  · exact closes h
  · exact closes h
  · exact string_inReach all h
  · cases h
    exact ⟨on, Nat.zero_le _⟩
  · cases h
    exact ⟨on, Nat.zero_le _⟩
  · cases h
    refine ⟨?_, Nat.zero_le _⟩
    rw [length_comma]
    exact on
  · obtain ⟨reached, within⟩ := primitive_inReach all (List.cons_ne_nil c cs) h
    exact ⟨reached, Nat.le_of_lt_succ within⟩

theorem finish_inReach {skip n : Nat} {q : Jsmn} (all : AllInReach (pos + skip) p.tokens)
    (within : skip ≤ n) (h : p.finish = .ok q) : AllInReach (pos + n) q.tokens := by
  rw [finish_ok h]
  exact all.mono (Nat.add_le_add_left within pos)

/-- The bytes that are skipped are there. -/
theorem loop_inReach {cs : StdString} {skip : Nat} {q : Jsmn}
    (all : AllInReach (pos + skip) p.tokens) (within : skip ≤ cs.length)
    (h : loop num skip pos cs p = .ok q) : AllInReach (pos + cs.length) q.tokens := by
  induction cs generalizing skip pos p with
  | nil =>
      rw [loop] at h
      exact finish_inReach all within h
  | cons c cs ih =>
      have length : pos + (c :: cs).length = pos + 1 + cs.length := by
        rw [List.length_cons, Nat.add_assoc, Nat.add_comm 1]
      cases skip with
      | succ skip =>
          rw [loop] at h
          rw [length]
          rw [← Nat.add_assoc, Nat.add_right_comm] at all
          exact ih all (Nat.le_of_succ_le_succ within) h
      | zero =>
          rw [loop] at h
          split at h
          · exact finish_inReach all within h
          · obtain ⟨⟨p', skip⟩, turn, rest⟩ := bind_eq_ok.mp h
            obtain ⟨reached, within'⟩ := step_inReach all turn
            rw [length]
            exact ih reached within' rest

end

end Jsmn

theorem jsmnParse_inReach {num : Nat} {js : StdString} {ts : List JsmnToken}
    (h : jsmnParse num js = .ok ts) : ∀ t ∈ ts, Jsmn.InReach js.length t := by
  rw [jsmnParse] at h
  obtain ⟨p, run, rfl⟩ := map_eq_ok.mp h
  have start : Jsmn.AllInReach (0 + 0) (Jsmn.tokens {}) := List.forall_mem_nil _
  have reached := Jsmn.loop_inReach start (Nat.zero_le js.length) run
  rwa [Nat.zero_add] at reached

end VanillaRtb.Parsers
