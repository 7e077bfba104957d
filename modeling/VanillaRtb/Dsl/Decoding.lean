import VanillaRtb.Dsl.Overrun
import VanillaRtb.Parsers.JsmnText

/-! # What the encoders make of a JSON document

Over the tokens of a well-formed document the encoders take every value in turn, so what
they return is said by recursion on the document. That is the tree the document denotes
as long as no value is null, every number is spelled in one of the two ways the lexical
casts know, and no object repeats a name.
-/

namespace VanillaRtb.Dsl

open Lib Lib.JsonText Parsers Parsers.Jsmn Encoders

section Encoded

variable (lexicalDouble : StdString → Option Float)

/-- A decimal point makes a double, and an exponent without one makes nothing. -/
def encodedNumber (n : Number) : Except Fault JsonValue :=
  if n.fraction.isSome then (cast (lexicalDouble n.text)).map .decimal
  else if n.exponent.isSome then .error .thrown
  else
    let m := magnitude n.integral.digits
    if n.minus then
      if m ≤ 2 ^ 63 then .ok (.integer (Int64.ofInt (-m))) else .error .thrown
    else if m < 2 ^ 64 then .ok (.integer (UInt64.ofNat m).toInt64) else .error .thrown

def insertAll (ps members : List (StdString × JsonValue)) : List (StdString × JsonValue) :=
  ps.foldl (fun ms p => insert ms p.1 p.2) members

mutual

def encoded : Json → Except Fault JsonValue
  | .null => .error .thrown
  | .boolean b => .ok (.boolean b)
  | .number n => encodedNumber lexicalDouble n
  | .string s => .ok (.string (stringText s))
  | .array es _ => (encodedElements es).map .array
  | .object ms _ => (encodedMembers ms).map fun ps => .object (insertAll ps [])

def encodedElements : List (Element Json) → Except Fault (List JsonValue)
  | [] => .ok []
  | ⟨_, v, _⟩ :: es => do
      let x ← encoded v
      let xs ← encodedElements es
      pure (x :: xs)

/-- The members of an object, a name that comes again among them. -/
def encodedMembers : List (Member Json) → Except Fault (List (StdString × JsonValue))
  | [] => .ok []
  | ⟨_, name, _, _, v, _⟩ :: ms => do
      let x ← encoded v
      let ps ← encodedMembers ms
      pure ((stringText name, x) :: ps)

end

end Encoded

section Cons

variable {lexicalDouble : StdString → Option Float}

theorem encodedElements_cons {e : Element Json} {es : List (Element Json)}
    {ys : List JsonValue} (taken : encodedElements lexicalDouble (e :: es) = .ok ys) :
    ∃ y ys', encoded lexicalDouble e.value = .ok y ∧ encodedElements lexicalDouble es = .ok ys' ∧
      ys = y :: ys' := by
  obtain ⟨before, v, after⟩ := e
  rw [encodedElements] at taken
  obtain ⟨y, value, taken⟩ := bind_eq_ok.mp taken
  obtain ⟨ys', more, taken⟩ := bind_eq_ok.mp taken
  cases taken
  exact ⟨y, ys', value, more, rfl⟩

theorem encodedMembers_cons {m : Member Json} {ms : List (Member Json)}
    {ps : List (StdString × JsonValue)}
    (taken : encodedMembers lexicalDouble (m :: ms) = .ok ps) :
    ∃ x ps', encoded lexicalDouble m.value = .ok x ∧ encodedMembers lexicalDouble ms = .ok ps' ∧
      ps = (stringText m.name, x) :: ps' := by
  obtain ⟨before, name, colonBefore, colonAfter, v, after⟩ := m
  rw [encodedMembers] at taken
  obtain ⟨x, value, taken⟩ := bind_eq_ok.mp taken
  obtain ⟨ps', more, taken⟩ := bind_eq_ok.mp taken
  cases taken
  exact ⟨x, ps', value, more, rfl⟩

end Cons

section Numbers

variable {lexicalDouble : StdString → Option Float} {version : Version}

theorem digitsValue_map (ds : List (Fin 10)) (n : Nat) :
    (ds.map digit).foldl (fun n c => 10 * n + (c.toNat - 48)) n =
      ds.foldl (fun n d => 10 * n + d.val) n := by
  induction ds generalizing n with
  | nil => rfl
  | cons d ds ih =>
      have one : ∀ d, (digit d).toNat - 48 = d.val := by decide
      rw [List.map_cons, List.foldl_cons, List.foldl_cons, ih, one]

theorem all_isDigit (ds : List (Fin 10)) : (ds.map digit).all isDigit = true := by
  have one : ∀ d, isDigit (digit d) = true := by decide
  simp [List.all_map, one]

theorem digits?_map {ds : List (Fin 10)} (some_ : ds ≠ []) :
    digits? (ds.map digit) = some (magnitude ds) := by
  rw [digits?, if_pos ⟨by simpa using some_, all_isDigit ds⟩, digitsValue, digitsValue_map]
  rfl

theorem digits?_letter {s t : StdString} {c : UInt8} (letter : isDigit c = false) :
    digits? (s ++ c :: t) = none := by
  rw [digits?, if_neg]
  simp [letter]

theorem integral_some (i : Integral) : i.digits ≠ [] := by
  cases i <;> simp [Integral.digits]

theorem exponent_text (e : Exponent) :
    ∃ c t, e.text = c :: t ∧ isDigit c = false := by
  refine ⟨_, _, rfl, ?_⟩
  cases e.capital <;> rfl

theorem exponent_noPoint (e : Exponent) : 46 ∉ e.text := by
  have one : ∀ d, digit d ≠ 46 := by decide
  have marker : (46 : UInt8) ≠ if e.capital then 69 else 101 := by cases e.capital <;> decide
  have sign : 46 ∉ e.signText := by
    unfold Exponent.signText
    split <;> decide
  simp [Exponent.text, marker, sign, one]

theorem number_point (n : Number) : n.text.contains 46 = n.fraction.isSome := by
  obtain ⟨minus, integral, fraction, exponent⟩ := n
  cases fraction with
  | some f => simp [Number.text, Fraction.text]
  | none =>
      have one : ∀ d, digit d ≠ 46 := by decide
      have noExponent : 46 ∉ exponent.elim [] Exponent.text := by
        cases exponent with
        | none => simp
        | some e => exact exponent_noPoint e
      have noMinus : (46 : UInt8) ∉ if minus then [45] else [] := by cases minus <;> decide
      simp [Number.text, noExponent, noMinus, one]

/-- The lexical casts of a number without a fraction fail on its exponent. -/
theorem digits?_integral (i : Integral) (exponent : Option Exponent) :
    digits? (i.digits.map digit ++ exponent.elim [] Exponent.text) =
      if exponent.isSome then none else some (magnitude i.digits) := by
  cases exponent with
  | none => simpa using digits?_map (integral_some i)
  | some e =>
      obtain ⟨c, t, text, letter⟩ := exponent_text e
      simp only [Option.elim_some, text, digits?_letter letter, Option.isSome_some, if_true]

theorem lexicalCastUint64_digit {d : Fin 10} {s : StdString} :
    lexicalCastUint64 (digit d :: s) =
      (digits? (digit d :: s)).bind fun n => if n < 2 ^ 64 then some (UInt64.ofNat n) else none := by
  have one : ∀ d, digit d ≠ 43 := by decide
  unfold lexicalCastUint64
  split
  · next plus => exact absurd (List.cons.inj plus).1 (one d)
  · rfl

variable (lexicalDouble version) in
theorem primitive_number (n : Number) :
    primitive lexicalDouble version n.text = encodedNumber lexicalDouble n := by
  rw [Encoders.primitive, number_point, encodedNumber]
  obtain ⟨minus, integral, fraction, exponent⟩ := n
  cases fraction with
  | some f =>
      simp only [Option.isSome_some, if_true]
      cases lexicalDouble _ <;> rfl
  | none =>
      simp only [Option.isSome_none, Bool.false_eq_true, if_false]
      have cut := digits?_integral integral exponent
      cases minus with
      | true =>
          have text : (Number.mk true integral none exponent).text =
              45 :: (integral.digits.map digit ++ exponent.elim [] Exponent.text) := by
            simp [Number.text]
          simp only [text, front, bind, Except.bind, if_true, lexicalCastInt64, List.drop_one,
            List.tail_cons, cut]
          cases exponent with
          | some e => rfl
          | none =>
              simp only [Option.isSome_none, Bool.false_eq_true, if_false, Option.bind_some]
              by_cases fits : magnitude integral.digits ≤ 2 ^ 63 <;> simp only [fits] <;> rfl
      | false =>
          obtain ⟨d, more, digits⟩ := List.exists_cons_of_ne_nil (integral_some integral)
          have text : (Number.mk false integral none exponent).text =
              digit d :: (more.map digit ++ exponent.elim [] Exponent.text) := by
            simp [Number.text, digits]
          have other : ∀ d, digit d ≠ 45 ∧ digit d ≠ 116 ∧ digit d ≠ 102 := by decide
          obtain ⟨noMinus, noTrue, noFalse⟩ := other d
          rw [digits, List.map_cons, List.cons_append] at cut
          simp only [text, front, bind, Except.bind, Option.some.injEq, noMinus, noTrue, noFalse,
            if_false, lexicalCastUint64_digit, cut, digits]
          cases exponent with
          | some e => rfl
          | none =>
              simp only [Option.isSome_none, Bool.false_eq_true, if_false, Option.bind_some]
              by_cases fits : magnitude (d :: more) < 2 ^ 64 <;> simp only [fits] <;> rfl

end Numbers

section Positions

/-- The text has `s` at the position. -/
def At (js : StdString) (pos : Nat) (s : StdString) : Prop := s <+: js.drop pos

variable {js : StdString} {pos : Nat}

theorem At.left {s t : StdString} (here : At js pos (s ++ t)) : At js pos s :=
  (List.prefix_append s t).trans here

theorem At.right {s t : StdString} (here : At js pos (s ++ t)) : At js (pos + s.length) t := by
  obtain ⟨rest, text⟩ := here
  refine ⟨rest, ?_⟩
  rw [← List.drop_drop, ← text, List.append_assoc, List.drop_left]

theorem At.tail {c : UInt8} {s : StdString} (here : At js pos (c :: s)) : At js (pos + 1) s :=
  At.right (s := [c]) here

/-- Between start and end of a token stands its text. -/
theorem At.token {s : StdString} (here : At js pos s) (type : JsmnType) (size : Nat) :
    JsmnToken.text js ⟨type, pos, some (pos + s.length), size⟩ = s := by
  rw [JsmnToken.text, Option.getD_some, Nat.add_sub_cancel_left]
  exact (List.prefix_iff_eq_take.1 here).symm

theorem At.quoted {s : List Character} (here : At js pos (quoted s)) (size : Nat) :
    (stringToken pos size s).text js = stringText s :=
  (At.left (At.tail here)).token .string size

end Positions

section Documents

variable {lexicalDouble : StdString → Option Float} {version : Version} {js : StdString}

theorem encoded_full {v : Json} {x : JsonValue} (h : encoded lexicalDouble v = .ok x) :
    isNull x = false := by
  cases v with
  | null => cases h
  | boolean b => cases h; rfl
  | number n =>
      rw [encoded, ← primitive_number lexicalDouble .any] at h
      obtain thrown | ⟨y, ok, full, -⟩ := primitive_cases lexicalDouble .any n.text
      · rw [thrown] at h
        cases h
      · rw [ok] at h
        cases h
        exact full
  | string s => cases h; rfl
  | array es space =>
      obtain ⟨xs, -, rfl⟩ := map_eq_ok.mp h
      rfl
  | object ms space =>
      obtain ⟨ps, -, rfl⟩ := map_eq_ok.mp h
      rfl

theorem encodeWith_primitive {v : Json} {pos fuel count : Nat} (primitive : isPrimitive v = true)
    (more : List JsmnToken) (here : At js pos v.text) (room : (tokensOf pos v).length ≤ count) :
    encodeWith lexicalDouble version js (fuel + 1) (tokensOf pos v ++ more) count =
      (encoded lexicalDouble v).map (·, (tokensOf pos v).length) := by
  have value : Encoders.primitive lexicalDouble version v.text = encoded lexicalDouble v := by
    cases v with
    | null => rfl
    | boolean b => cases b <;> rfl
    | number n => exact primitive_number lexicalDouble version n
    | string s => cases primitive
    | array es space => cases primitive
    | object ms space => cases primitive
  rw [tokensOf_primitive primitive] at room ⊢
  unfold encodeWith
  rw [if_neg (by rw [List.length_singleton] at room; omega), List.singleton_append]
  dsimp only
  rw [here.token, value]
  rfl

theorem encodeWith_name {s : List Character} {pos fuel count : Nat} (more : List JsmnToken)
    (size : Nat) (here : At js pos (quoted s)) (some_ : 0 < count) :
    encodeWith lexicalDouble version js (fuel + 1) (stringToken pos size s :: more) count =
      (Except.ok (.string (stringText s))).map (·, 1) := by
  have string : (stringToken pos size s).type = .string := rfl
  rw [encodeWith_string string more some_, here.quoted]
  rfl

/-- A child whose tokens come next. -/
theorem child_tokens {enc : List JsmnToken → Nat → Except Fault (JsonValue × Nat)}
    {done ts : List JsmnToken} {count length : Nat} {r : Except Fault JsonValue}
    (one : enc ts (count - done.length) = r.map (·, length)) (room : done.length ≤ count) :
    child enc (done ++ ts) count done.length = r.map (·, done.length + length) := by
  rw [child, if_neg (by omega), List.drop_left, one]
  cases r <;> rfl

mutual

theorem encodeWith_tokens (v : Json) {pos fuel count : Nat} (more : List JsmnToken)
    (here : At js pos v.text) (enough : (tokensOf pos v).length ≤ fuel)
    (room : (tokensOf pos v).length ≤ count) :
    encodeWith lexicalDouble version js (fuel + 1) (tokensOf pos v ++ more) count =
      (encoded lexicalDouble v).map (·, (tokensOf pos v).length) := by
  cases v with
  | null => exact encodeWith_primitive rfl more here room
  | boolean b => exact encodeWith_primitive rfl more here room
  | number n => exact encodeWith_primitive rfl more here room
  | string s =>
      rw [tokensOf, List.length_singleton] at room
      exact encodeWith_name more 0 here room
  | array es space =>
      rw [tokensOf, List.length_cons] at enough room
      cases fuel with
      | zero => exact absurd enough (by omega)
      | succ fuel =>
          have all := elements_tokens es [] more [] here.tail.left (Nat.le_of_succ_le_succ enough)
            (by rw [List.length_nil, Nat.zero_add]; exact room)
          rw [List.nil_append, List.length_nil, Nat.zero_add] at all
          rw [tokensOf, List.cons_append]
          unfold encodeWith
          rw [if_neg (by omega)]
          simp only [head, all, encoded]
          cases encodedElements lexicalDouble es <;> rfl
  | object ms space =>
      rw [tokensOf, List.length_cons] at enough room
      cases fuel with
      | zero => exact absurd enough (by omega)
      | succ fuel =>
          have all := members_tokens ms [] more [] here.tail.left (Nat.le_of_succ_le_succ enough)
            (by rw [List.length_nil, Nat.zero_add]; exact room)
          rw [List.nil_append, List.length_nil, Nat.zero_add] at all
          rw [tokensOf, List.cons_append]
          unfold encodeWith
          rw [if_neg (by omega)]
          simp only [head, all, encoded]
          cases encodedMembers lexicalDouble ms <;> rfl

theorem elements_tokens (es : List (Element Json)) {first : Bool} {pos fuel count : Nat}
    (done more : List JsmnToken) (vs : List JsonValue)
    (here : At js pos (Json.textOfElements first es))
    (enough : (tokensOfElements first pos es).length ≤ fuel)
    (room : done.length + (tokensOfElements first pos es).length < count) :
    elements (encodeWith lexicalDouble version js (fuel + 1))
        (done ++ (tokensOfElements first pos es ++ more)) count es.length done.length vs =
      (encodedElements lexicalDouble es).map fun xs =>
        (vs ++ xs, done.length + (tokensOfElements first pos es).length) := by
  cases es with
  | nil => simp [tokensOfElements, elements, encodedElements, Except.map]
  | cons e es =>
      obtain ⟨before, v, after⟩ := e
      rw [Json.textOfElements] at here
      simp only [tokensOfElements, List.length_append] at enough room ⊢
      have atValue := here.right.right
      generalize start : pos + (separator first).length + before.bytes.length = k at *
      have fits : (tokensOf k v).length ≤ count - done.length := by omega
      have one := child_tokens (encodeWith_tokens v
        (tokensOfElements false (k + v.text.length + after.bytes.length) es ++ more)
        atValue.left (by omega : _ ≤ fuel) fits) (by omega)
      rw [List.length_cons, elements, List.append_assoc, one, encodedElements]
      cases value : encoded lexicalDouble v with
      | error f => rfl
      | ok x =>
          have rest := elements_tokens es (done ++ tokensOf k v) more (vs ++ [x]) atValue.right.right
            (by omega : _ ≤ fuel) (by rw [List.length_append]; omega : _ < count)
          rw [List.length_append, List.append_assoc] at rest
          simp only [Except.map, bind, Except.bind, encoded_full value, Bool.false_eq_true, if_false,
            rest]
          cases encodedElements lexicalDouble es <;>
            simp [pure, Except.pure, Nat.add_assoc]

theorem members_tokens (ms : List (Member Json)) {first : Bool} {pos fuel count : Nat}
    (done more : List JsmnToken) (acc : List (StdString × JsonValue))
    (here : At js pos (Json.textOfMembers first ms))
    (enough : (tokensOfMembers first pos ms).length ≤ fuel)
    (room : done.length + (tokensOfMembers first pos ms).length < count) :
    members (encodeWith lexicalDouble version js (fuel + 1))
        (done ++ (tokensOfMembers first pos ms ++ more)) count ms.length done.length acc =
      (encodedMembers lexicalDouble ms).map fun ps =>
        (insertAll ps acc, done.length + (tokensOfMembers first pos ms).length) := by
  cases ms with
  | nil => simp [tokensOfMembers, members, encodedMembers, Except.map, insertAll]
  | cons m ms =>
      obtain ⟨before, name, colonBefore, colonAfter, v, after⟩ := m
      rw [Json.textOfMembers] at here
      simp only [tokensOfMembers, List.length_cons, List.length_append] at enough room ⊢
      have atName := here.right.right
      have atValue := atName.right.right.tail.right
      generalize key : pos + (separator first).length + before.bytes.length = k at *
      generalize start : k + (quoted name).length + colonBefore.bytes.length + 1 +
        colonAfter.bytes.length = l at *
      -- the name
      have named : child (encodeWith lexicalDouble version js (fuel + 1))
          (done ++ stringToken k 1 name :: (tokensOf l v ++
            tokensOfMembers false (l + v.text.length + after.bytes.length) ms ++ more)) count
          done.length = .ok (.string (stringText name), done.length + 1) :=
        child_tokens (encodeWith_name _ 1 atName.left (by omega)) (by omega)
      -- its value
      have fits : (tokensOf l v).length ≤ count - (done ++ [stringToken k 1 name]).length := by
        rw [List.length_append, List.length_singleton]
        omega
      have one := child_tokens (encodeWith_tokens v
        (tokensOfMembers false (l + v.text.length + after.bytes.length) ms ++ more)
        atValue.left (by omega : _ ≤ fuel) fits)
        (by rw [List.length_append, List.length_singleton]; omega)
      rw [List.append_assoc, List.singleton_append, List.length_append, List.length_singleton] at one
      rw [members, List.cons_append, named, encodedMembers]
      simp only [Except.map, bind, Except.bind, List.append_assoc, one]
      cases value : encoded lexicalDouble v with
      | error f => rfl
      | ok x =>
          have rest := members_tokens ms (done ++ stringToken k 1 name :: tokensOf l v) more
            (insert acc (stringText name) x) atValue.right.right (by omega : _ ≤ fuel)
            (by rw [List.length_append, List.length_cons]; omega : _ < count)
          rw [List.length_append, List.length_cons, List.append_assoc, List.cons_append] at rest
          have same : done.length + 1 + (tokensOf l v).length =
              done.length + ((tokensOf l v).length + 1) := by omega
          have full : isNull (.string (stringText name)) = false := rfl
          simp only [Except.map, full, encoded_full value, Bool.false_eq_true, or_self, if_false,
            same, rest]
          cases encodedMembers lexicalDouble ms <;>
            simp [pure, Except.pure, insertAll, Nat.add_assoc, Nat.add_comm, Nat.add_left_comm]

end

end Documents

end VanillaRtb.Dsl
