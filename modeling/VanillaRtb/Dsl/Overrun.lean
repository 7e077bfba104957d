import VanillaRtb.Dsl.Encoders

/-! # How far the encoders read

The sizes in a token array say where each value ends. An array may hold whole values
only, or be cut off inside one; the encoders stay within the array except where it is cut
off, and nothing but the sizes, the types of keys and the primitives before the cut decides.
-/

namespace VanillaRtb.Dsl

open Lib Parsers Encoders

/-- What a run of tokens can stand for: a value, the elements of an array that are still to
come, or the members of an object that are. -/
inductive Part where
  | value
  | elements (n : Nat)
  | members (n : Nat)

section

variable (lexicalDouble : StdString → Option Float) (version : Version) (js : StdString)

/-- A primitive that the lexical casts take. -/
def Accepted (t : JsmnToken) : Prop :=
  ∃ v, primitive lexicalDouble version (t.text js) = .ok v

/-- The part is there in full, with strings for keys, and some tokens are left. -/
inductive Whole : Part → List JsmnToken → List JsmnToken → Prop
  | primitive {t ts} : t.type = .primitive → Accepted lexicalDouble version js t →
      Whole .value (t :: ts) ts
  | string {t ts} : t.type = .string → Whole .value (t :: ts) ts
  | array {t ts rest} : t.type = .array → Whole (.elements t.size) ts rest →
      Whole .value (t :: ts) rest
  | object {t ts rest} : t.type = .object → Whole (.members t.size) ts rest →
      Whole .value (t :: ts) rest
  | noElements {ts} : Whole (.elements 0) ts ts
  | element {n ts ts' rest} : Whole .value ts ts' → Whole (.elements n) ts' rest →
      Whole (.elements (n + 1)) ts rest
  | noMembers {ts} : Whole (.members 0) ts ts
  | member {n t ts ts' rest} : t.type = .string → Whole .value ts ts' →
      Whole (.members n) ts' rest → Whole (.members (n + 1)) (t :: ts) rest

/-- The tokens end within the part. -/
inductive Cut : Part → List JsmnToken → Prop
  | missing : Cut .value []
  | array {t ts} : t.type = .array → Cut (.elements t.size) ts → Cut .value (t :: ts)
  | object {t ts} : t.type = .object → Cut (.members t.size) ts → Cut .value (t :: ts)
  | element {n ts} : Cut .value ts → Cut (.elements (n + 1)) ts
  | elements {n ts ts'} : Whole lexicalDouble version js .value ts ts' →
      Cut (.elements n) ts' → Cut (.elements (n + 1)) ts
  | key {n ts} : Cut .value ts → Cut (.members (n + 1)) ts
  | memberValue {n ts ts'} : Whole lexicalDouble version js .value ts ts' → Cut .value ts' →
      Cut (.members (n + 1)) ts
  | members {n t ts ts'} : t.type = .string → Whole lexicalDouble version js .value ts ts' →
      Cut (.members n) ts' → Cut (.members (n + 1)) (t :: ts)

end

section Values

variable {lexicalDouble : StdString → Option Float} {version : Version} {js : StdString}

theorem cast_error {x : Option T} {f : Fault} (h : cast x = .error f) : f = .thrown := by
  cases x with
  | none => cases h; rfl
  | some x => cases h

theorem front_error {s : StdString} {f : Fault} (h : front version s = .error f) :
    f = .thrown := by
  cases s with
  | nil => cases version <;> cases h; rfl
  | cons c cs => cases h

variable (lexicalDouble version) in
/-- A primitive gives a boolean or a number, or it is thrown out. -/
theorem primitive_cases (s : StdString) :
    primitive lexicalDouble version s = .error .thrown ∨
      ∃ v, primitive lexicalDouble version s = .ok v ∧ isNull v = false ∧
        ∀ name, v ≠ .string name := by
  unfold primitive
  split
  · cases h : cast (lexicalDouble s) with
    | error f => exact .inl (by rw [cast_error h]; rfl)
    | ok x => exact .inr ⟨.decimal x, rfl, rfl, nofun⟩
  · cases h : front version s with
    | error f => exact .inl (by rw [front_error h]; rfl)
    | ok c =>
        simp only [bind, Except.bind]
        split
        · cases h : cast (lexicalCastInt64 s) with
          | error f => exact .inl (by rw [cast_error h])
          | ok n => exact .inr ⟨.integer n, rfl, rfl, nofun⟩
        · split
          · exact .inr ⟨.boolean true, rfl, rfl, nofun⟩
          · split
            · exact .inr ⟨.boolean false, rfl, rfl, nofun⟩
            · cases h : cast (lexicalCastUint64 s) with
              | error f => exact .inl (by rw [cast_error h])
              | ok n => exact .inr ⟨.integer n.toInt64, rfl, rfl, nofun⟩

end Values

section Sound

/-! What a run of the encoder says about the tokens. -/

variable (lexicalDouble : StdString → Option Float) (version : Version) (js : StdString)

/-- A value comes from whole tokens, a string from a string token, and a fault is an
exception or shows that the part is cut off. -/
def ValueSound (ts : List JsmnToken) : Except Fault (JsonValue × Nat) → Prop
  | .ok (v, d) => d ≤ ts.length ∧ isNull v = false ∧
      Whole lexicalDouble version js .value ts (ts.drop d) ∧
      ∀ name, v = .string name → ∃ t, ts = t :: ts.drop d ∧ t.type = .string
  | .error f => f = .thrown ∨ f = .beyond ∧ Cut lexicalDouble version js .value ts

def PartSound (part : Part) (base : List JsmnToken) (j : Nat) : Except Fault (A × Nat) → Prop
  | .ok (_, j') => j ≤ j' ∧ j' ≤ base.length ∧
      Whole lexicalDouble version js part (base.drop j) (base.drop j')
  | .error f => f = .thrown ∨ f = .beyond ∧ Cut lexicalDouble version js part (base.drop j)

variable {lexicalDouble version js}
  {enc : List JsmnToken → Nat → Except Fault (JsonValue × Nat)} {base : List JsmnToken} {count : Nat}
  (sound : ∀ j ≤ base.length,
    ValueSound lexicalDouble version js (base.drop j) (enc (base.drop j) (count - j)))
  (room : base.length < count)

include sound room

/-- A child within a larger run of tokens. -/
theorem child_sound {j : Nat} (within : j ≤ base.length) :
    match child enc base count j with
    | .ok (v, j') => j ≤ j' ∧ j' ≤ base.length ∧ isNull v = false ∧
        Whole lexicalDouble version js .value (base.drop j) (base.drop j') ∧
        ∀ name, v = .string name → ∃ t, base.drop j = t :: base.drop j' ∧ t.type = .string
    | .error f => f = .thrown ∨ f = .beyond ∧ Cut lexicalDouble version js .value (base.drop j) := by
  have one := sound j within
  rw [child, if_neg (by omega)]
  cases h : enc (base.drop j) (count - j) with
  | error f =>
      rw [h] at one
      exact one
  | ok r =>
      obtain ⟨v, d⟩ := r
      rw [h] at one
      obtain ⟨taken, full, whole, key⟩ := one
      rw [List.length_drop] at taken
      rw [List.drop_drop] at whole key
      exact ⟨by omega, by omega, full, whole, key⟩

theorem elements_sound (n : Nat) {j : Nat} (within : j ≤ base.length) (vs : List JsonValue) :
    PartSound lexicalDouble version js (.elements n) base j (elements enc base count n j vs) := by
  induction n generalizing j vs with
  | zero => exact ⟨le_rfl, within, .noElements⟩
  | succ n ih =>
      have one := child_sound sound room within
      rw [elements]
      cases h : child enc base count j with
      | error f =>
          rw [h] at one
          exact one.imp_right fun ⟨beyond, cut⟩ => ⟨beyond, .element cut⟩
      | ok r =>
          obtain ⟨v, j'⟩ := r
          rw [h] at one
          obtain ⟨up, within', full, whole, -⟩ := one
          have more := ih within' (if isNull v then vs else vs ++ [v])
          simp only [bind, Except.bind]
          cases h : elements enc base count n j' (if isNull v then vs else vs ++ [v]) with
          | error f =>
              rw [h] at more
              exact more.imp_right fun ⟨beyond, cut⟩ => ⟨beyond, .elements whole cut⟩
          | ok r =>
              rw [h] at more
              obtain ⟨up', within'', whole'⟩ := more
              exact ⟨up.trans up', within'', .element whole whole'⟩

theorem members_sound (n : Nat) {j : Nat} (within : j ≤ base.length)
    (ms : List (StdString × JsonValue)) :
    PartSound lexicalDouble version js (.members n) base j (members enc base count n j ms) := by
  induction n generalizing j ms with
  | zero => exact ⟨le_rfl, within, .noMembers⟩
  | succ n ih =>
      have first := child_sound sound room within
      rw [members]
      cases h : child enc base count j with
      | error f =>
          rw [h] at first
          exact first.imp_right fun ⟨beyond, cut⟩ => ⟨beyond, .key cut⟩
      | ok r =>
          obtain ⟨k, j₁⟩ := r
          rw [h] at first
          obtain ⟨up₁, within₁, full₁, whole₁, key⟩ := first
          have second := child_sound sound room within₁
          simp only [bind, Except.bind]
          cases h : child enc base count j₁ with
          | error f =>
              rw [h] at second
              exact second.imp_right fun ⟨beyond, cut⟩ => ⟨beyond, .memberValue whole₁ cut⟩
          | ok r =>
              obtain ⟨v, j₂⟩ := r
              rw [h] at second
              obtain ⟨up₂, within₂, full₂, whole₂, -⟩ := second
              simp only [full₁, full₂, Bool.false_eq_true, or_self, if_false]
              cases k with
              | string name =>
                  obtain ⟨t, front, isString⟩ := key name rfl
                  have more := ih within₂ (insert ms name v)
                  dsimp only
                  cases h : members enc base count n j₂ (insert ms name v) with
                  | error f =>
                      rw [h] at more
                      exact more.imp_right fun ⟨beyond, cut⟩ =>
                        ⟨beyond, front ▸ .members isString whole₂ cut⟩
                  | ok r =>
                      rw [h] at more
                      obtain ⟨up₃, within₃, whole₃⟩ := more
                      exact ⟨by omega, within₃, front ▸ .member isString whole₂ whole₃⟩
              | _ => exact .inl rfl

end Sound

section

variable {lexicalDouble : StdString → Option Float} {version : Version} {js : StdString}

theorem encodeWith_sound (fuel : Nat) {ts : List JsmnToken} {count : Nat}
    (enough : ts.length < fuel) (room : ts.length ≤ count) (some_ : 0 < count) :
    ValueSound lexicalDouble version js ts
      (encodeWith lexicalDouble version js fuel ts count) := by
  induction fuel generalizing ts count with
  | zero => exact absurd enough (by omega)
  | succ fuel ih =>
      unfold encodeWith
      rw [if_neg (by omega)]
      cases ts with
      | nil => exact .inr ⟨rfl, .missing⟩
      | cons t rest =>
          have inside : ∀ j ≤ rest.length,
              ValueSound lexicalDouble version js (rest.drop j)
                (encodeWith lexicalDouble version js fuel (rest.drop j) (count - j)) := by
            intro j within
            simp only [List.length_cons] at enough room
            exact ih (by rw [List.length_drop]; omega) (by rw [List.length_drop]; omega) (by omega)
          dsimp only
          cases type : t.type with
          | primitive =>
              obtain thrown | ⟨v, ok, full, noString⟩ :=
                primitive_cases lexicalDouble version (t.text js)
              · rw [thrown]
                exact .inl rfl
              · rw [ok]
                exact ⟨by simp, full, .primitive type ⟨v, ok⟩, fun name h => (noString name h).elim⟩
          | string => exact ⟨by simp, rfl, .string type, fun _ _ => ⟨t, rfl, type⟩⟩
          | object =>
              have all := members_sound inside room t.size (Nat.zero_le _) []
              dsimp only
              cases h : members (encodeWith lexicalDouble version js fuel) rest count t.size 0 [] with
              | error f =>
                  rw [h] at all
                  exact all.imp_right fun ⟨beyond, cut⟩ => ⟨beyond, .object type cut⟩
              | ok r =>
                  rw [h] at all
                  obtain ⟨-, within, whole⟩ := all
                  exact ⟨Nat.succ_le_succ within, rfl, .object type whole, nofun⟩
          | array =>
              have all := elements_sound inside room t.size (Nat.zero_le _) []
              dsimp only
              cases h : elements (encodeWith lexicalDouble version js fuel) rest count t.size 0 [] with
              | error f =>
                  rw [h] at all
                  exact all.imp_right fun ⟨beyond, cut⟩ => ⟨beyond, .array type cut⟩
              | ok r =>
                  rw [h] at all
                  obtain ⟨-, within, whole⟩ := all
                  exact ⟨Nat.succ_le_succ within, rfl, .array type whole, nofun⟩

end

section Complete

/-! What the tokens say about a run of the encoder. -/

variable (lexicalDouble : StdString → Option Float) (version : Version) (js : StdString)

/-- However a run of the encoder comes to the part, `Q` holds of its outcome. -/
def Outcome (Q : {A : Type} → List JsmnToken → Except Fault (A × Nat) → Prop) :
    Part → List JsmnToken → Prop
  | .value, ts => ∀ fuel count, ts.length < fuel → ts.length ≤ count → 0 < count →
      Q ts (encodeWith lexicalDouble version js fuel ts count)
  | .elements n, ts => ∀ fuel base count j vs, base.length < fuel → base.length < count →
      j ≤ base.length → base.drop j = ts →
      Q base (elements (encodeWith lexicalDouble version js fuel) base count n j vs)
  | .members n, ts => ∀ fuel base count j ms, base.length < fuel → base.length < count →
      j ≤ base.length → base.drop j = ts →
      Q base (members (encodeWith lexicalDouble version js fuel) base count n j ms)

/-- The run comes to an end at the tokens that are left. -/
def EndsAt (rest : List JsmnToken) (base : List JsmnToken) (r : Except Fault (A × Nat)) : Prop :=
  ∃ a j, r = .ok (a, j) ∧ j ≤ base.length ∧ base.drop j = rest

variable {lexicalDouble version js}

/-- A child that is whole. -/
theorem child_whole {base ts rest : List JsmnToken} {fuel count j : Nat}
    (runs : Outcome lexicalDouble version js (EndsAt rest) .value ts)
    (enough : base.length < fuel) (room : base.length < count) (within : j ≤ base.length)
    (here : base.drop j = ts) :
    ∃ v d, encodeWith lexicalDouble version js fuel ts (count - j) = .ok (v, d) ∧
      child (encodeWith lexicalDouble version js fuel) base count j = .ok (v, j + d) ∧
      isNull v = false ∧ j + d ≤ base.length ∧ base.drop (j + d) = rest := by
  have shorter : ts.length = base.length - j := by rw [← here, List.length_drop]
  obtain ⟨v, d, ok, short, left⟩ := runs fuel (count - j) (by omega) (by omega) (by omega)
  have valueSound : ValueSound lexicalDouble version js ts
      (encodeWith lexicalDouble version js fuel ts (count - j)) :=
    encodeWith_sound fuel (by omega) (by omega) (by omega)
  rw [ok] at valueSound
  refine ⟨v, d, ok, ?_, valueSound.2.1, by omega, by rw [← List.drop_drop, here, left]⟩
  rw [child, if_neg (by omega), here, ok]
  rfl

theorem encodeWith_string {t : JsmnToken} (type : t.type = .string) (ts : List JsmnToken)
    {fuel count : Nat} (some_ : 0 < count) :
    encodeWith lexicalDouble version js (fuel + 1) (t :: ts) count =
      .ok (.string (t.text js), 1) := by
  unfold encodeWith
  rw [if_neg (by omega)]
  simp only [type]

theorem string_outcome {t : JsmnToken} (type : t.type = .string) (ts : List JsmnToken) :
    Outcome lexicalDouble version js (EndsAt ts) .value (t :: ts) := by
  rintro (_ | fuel) count enough room some_
  · exact absurd enough (by omega)
  · exact ⟨_, 1, encodeWith_string type ts some_, by simp, rfl⟩

/-- A part that is there in full is read to its end. -/
theorem Whole.outcome {part : Part} {ts rest : List JsmnToken}
    (whole : Whole lexicalDouble version js part ts rest) :
    Outcome lexicalDouble version js (EndsAt rest) part ts := by
  induction whole with
  | @primitive t ts type accepted =>
      rintro (_ | fuel) count enough room some_
      · exact absurd enough (by omega)
      · obtain ⟨v, ok⟩ := accepted
        unfold encodeWith
        rw [if_neg (by omega)]
        simp only [type, ok]
        exact ⟨v, 1, rfl, by simp, rfl⟩
  | string type => exact string_outcome type _
  | @array t ts rest type _ ih =>
      rintro (_ | fuel) count enough room some_
      · exact absurd enough (by omega)
      · simp only [List.length_cons] at enough room
        obtain ⟨vs, j, ok, short, left⟩ :=
          ih fuel ts count 0 [] (by omega) (by omega) (Nat.zero_le _) rfl
        unfold encodeWith
        rw [if_neg (by omega)]
        simp only [type, ok]
        exact ⟨.array vs, j + 1, rfl, Nat.succ_le_succ short, left⟩
  | @object t ts rest type _ ih =>
      rintro (_ | fuel) count enough room some_
      · exact absurd enough (by omega)
      · simp only [List.length_cons] at enough room
        obtain ⟨ms, j, ok, short, left⟩ :=
          ih fuel ts count 0 [] (by omega) (by omega) (Nat.zero_le _) rfl
        unfold encodeWith
        rw [if_neg (by omega)]
        simp only [type, ok]
        exact ⟨.object ms, j + 1, rfl, Nat.succ_le_succ short, left⟩
  | noElements =>
      intro fuel base count j vs _ _ within here
      exact ⟨vs, j, rfl, within, here⟩
  | element _ _ one more =>
      intro fuel base count j vs enough room within here
      obtain ⟨v, d, -, ok, -, within', here'⟩ := child_whole one enough room within here
      rw [elements, ok]
      exact more fuel base count (j + d) _ enough room within' here'
  | noMembers =>
      intro fuel base count j ms _ _ within here
      exact ⟨ms, j, rfl, within, here⟩
  | @member n t ts ts' rest type _ _ one more =>
      intro fuel base count j ms enough room within here
      obtain ⟨k, d, value, ok, full, within', here'⟩ :=
        child_whole (string_outcome type ts) enough room within here
      obtain ⟨v, d', -, ok', full', within'', here''⟩ := child_whole one enough room within' here'
      cases fuel with
      | zero => exact absurd enough (by omega)
      | succ fuel =>
          rw [encodeWith_string type ts (by omega)] at value
          cases value
          rw [members, ok]
          simp only [bind, Except.bind, ok', full, full', Bool.false_eq_true, or_self, if_false]
          exact more (fuel + 1) base count (j + 1 + d') _ enough room within'' here''

/-- A child that the tokens end within. -/
theorem child_cut {base ts : List JsmnToken} {fuel count j : Nat}
    (runs : Outcome lexicalDouble version js (fun _ r => r = .error .beyond) .value ts)
    (enough : base.length < fuel) (room : base.length < count) (within : j ≤ base.length)
    (here : base.drop j = ts) :
    child (encodeWith lexicalDouble version js fuel) base count j = .error .beyond := by
  have shorter : ts.length = base.length - j := by rw [← here, List.length_drop]
  rw [child, if_neg (by omega), here, runs fuel (count - j) (by omega) (by omega) (by omega)]
  rfl

/-- A part that the tokens end within is read beyond their end. -/
theorem Cut.outcome {part : Part} {ts : List JsmnToken}
    (cut : Cut lexicalDouble version js part ts) :
    Outcome lexicalDouble version js (fun _ r => r = .error .beyond) part ts := by
  induction cut with
  | missing =>
      rintro (_ | fuel) count enough room some_
      · exact absurd enough (by omega)
      · unfold encodeWith
        rw [if_neg (by omega)]
  | @array t ts type _ ih =>
      rintro (_ | fuel) count enough room some_
      · exact absurd enough (by omega)
      · simp only [List.length_cons] at enough room
        unfold encodeWith
        rw [if_neg (by omega)]
        simp only [type, ih fuel ts count 0 [] (by omega) (by omega) (Nat.zero_le _) rfl]
        rfl
  | @object t ts type _ ih =>
      rintro (_ | fuel) count enough room some_
      · exact absurd enough (by omega)
      · simp only [List.length_cons] at enough room
        unfold encodeWith
        rw [if_neg (by omega)]
        simp only [type, ih fuel ts count 0 [] (by omega) (by omega) (Nat.zero_le _) rfl]
        rfl
  | element _ one =>
      intro fuel base count j vs enough room within here
      rw [Encoders.elements, child_cut one enough room within here]
      rfl
  | elements whole _ more =>
      intro fuel base count j vs enough room within here
      obtain ⟨v, d, -, ok, -, within', here'⟩ :=
        child_whole whole.outcome enough room within here
      rw [Encoders.elements, ok]
      exact more fuel base count (j + d) _ enough room within' here'
  | key _ one =>
      intro fuel base count j ms enough room within here
      rw [Encoders.members, child_cut one enough room within here]
      rfl
  | memberValue whole _ one =>
      intro fuel base count j ms enough room within here
      obtain ⟨k, d, -, ok, -, within', here'⟩ :=
        child_whole whole.outcome enough room within here
      rw [Encoders.members, ok]
      simp only [bind, Except.bind, child_cut one enough room within' here']
  | @members n t ts ts' type whole _ more =>
      intro fuel base count j ms enough room within here
      obtain ⟨k, d, value, ok, full, within', here'⟩ :=
        child_whole (string_outcome type ts) enough room within here
      obtain ⟨v, d', -, ok', full', within'', here''⟩ :=
        child_whole whole.outcome enough room within' here'
      cases fuel with
      | zero => exact absurd enough (by omega)
      | succ fuel =>
          rw [encodeWith_string type ts (by omega)] at value
          cases value
          rw [Encoders.members, ok]
          simp only [bind, Except.bind, ok', full, full', Bool.false_eq_true, or_self, if_false]
          exact more (fuel + 1) base count (j + 1 + d') _ enough room within'' here''

end Complete

section

variable (lexicalDouble : StdString → Option Float) (version : Version) (js : StdString)

/-- No fault but an exception. -/
def Within (r : Except Fault A) : Prop := ∀ f, r = .error f → f = .thrown

/-- What a run of the encoder over all tokens of a text can come to. -/
theorem encode_sound {ts : List JsmnToken} (some_ : ts ≠ []) :
    ValueSound lexicalDouble version js ts (encode lexicalDouble version js ts) :=
  encodeWith_sound (ts.length + 1) (Nat.lt_succ_self _) le_rfl (List.length_pos_iff.2 some_)

theorem encode_cut {ts : List JsmnToken} (some_ : ts ≠ [])
    (cut : Cut lexicalDouble version js .value ts) :
    encode lexicalDouble version js ts = .error .beyond :=
  cut.outcome (ts.length + 1) ts.length (Nat.lt_succ_self _) le_rfl (List.length_pos_iff.2 some_)

/-- The count that is handed down never wraps. -/
theorem encode_ne_wrapped (ts : List JsmnToken) :
    encode lexicalDouble version js ts ≠ .error .wrapped := by
  intro h
  by_cases some_ : ts = []
  · subst some_
    cases h
  · have sound := encode_sound lexicalDouble version js some_
    rw [h] at sound
    obtain thrown | ⟨beyond, -⟩ := sound
    · cases thrown
    · cases beyond

/-- Within the tokens of a text, unless they end inside the value that the first one starts. -/
theorem encode_within_iff (num : Nat) {ts : List JsmnToken} (_ : jsmnParse num js = .ok ts) :
    Within (encode lexicalDouble version js ts) ↔
      ts = [] ∨ ¬ Cut lexicalDouble version js .value ts := by
  constructor
  · intro within
    by_contra outside
    rw [not_or, not_not] at outside
    cases within _ (encode_cut lexicalDouble version js outside.1 outside.2)
  · rintro (rfl | notCut) f fault
    · cases fault
    · by_cases some_ : ts = []
      · subst some_
        cases fault
      · have sound := encode_sound lexicalDouble version js some_
        rw [fault] at sound
        exact sound.resolve_right fun ⟨_, cut⟩ => notCut cut

end

/-- A list of one string. -/
theorem encode_within_list :
    Within (encode (fun _ => none) .any (ascii "[\"a\"]")
      [{ type := .array, start := 0, end_ := some 5, size := 1 },
        { type := .string, start := 2, end_ := some 3 }]) := by
  refine (encode_within_iff _ _ _ 128 rfl).2 (.inr ?_)
  intro cut
  cases cut with
  | array _ cut =>
      cases cut with
      | element cut =>
          cases cut with
          | array type => cases type
          | object type => cases type
      | elements _ cut => cases cut
  | object type => cases type

/-- An object of a name alone: the value that should follow is read from a token that the
parser has not produced. -/
theorem name_without_value : ∃ ts, jsmnParse 128 (ascii "\x7b\"a\"\x7d") = .ok ts ∧
    ∀ lexicalDouble version,
      encode lexicalDouble version (ascii "\x7b\"a\"\x7d") ts = .error .beyond :=
  ⟨[{ type := .object, start := 0, end_ := some 5, size := 1 },
    { type := .string, start := 2, end_ := some 3 }], rfl, fun _ _ => rfl⟩

end VanillaRtb.Dsl
