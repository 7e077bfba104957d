import VanillaRtb.Lib.JsonText
import VanillaRtb.Lib.Outcome
import VanillaRtb.Parsers.Jsmn

/-! # The tokens of a JSON document

On a well-formed text the tokenizer does what it documents: one token for every object,
array, string and primitive in the order in which they start, each over its own bytes, an
object counting its names, an array its elements and a name the one value after it.
-/

namespace VanillaRtb.Parsers

open Lib Lib.JsonText

namespace Jsmn

section Tokens

def stringToken (pos size : Nat) (s : List Character) : JsmnToken :=
  { type := .string, start := pos + 1, end_ := some (pos + 1 + (stringText s).length), size }

/-- The token that a value starts with. -/
def head (pos : Nat) (v : Json) : JsmnToken :=
  match v with
  | .string s => stringToken pos 0 s
  | .array es _ =>
      { type := .array, start := pos, end_ := some (pos + v.text.length), size := es.length }
  | .object ms _ =>
      { type := .object, start := pos, end_ := some (pos + v.text.length), size := ms.length }
  | _ => { type := .primitive, start := pos, end_ := some (pos + v.text.length) }

mutual

/-- The tokens of a value whose text starts at `pos`. -/
def tokensOf (pos : Nat) : Json → List JsmnToken
  | .array es space => head pos (.array es space) :: tokensOfElements true (pos + 1) es
  | .object ms space => head pos (.object ms space) :: tokensOfMembers true (pos + 1) ms
  | .null => [head pos .null]
  | .boolean b => [head pos (.boolean b)]
  | .number n => [head pos (.number n)]
  | .string s => [head pos (.string s)]

def tokensOfElements (first : Bool) (pos : Nat) : List (Element Json) → List JsmnToken
  | [] => []
  | ⟨before, v, after⟩ :: es =>
      let start := pos + (separator first).length + before.bytes.length
      tokensOf start v ++
        tokensOfElements false (start + v.text.length + after.bytes.length) es

def tokensOfMembers (first : Bool) (pos : Nat) : List (Member Json) → List JsmnToken
  | [] => []
  | ⟨before, name, colonBefore, colonAfter, v, after⟩ :: ms =>
      let key := pos + (separator first).length + before.bytes.length
      let start := key + (quoted name).length + colonBefore.bytes.length + 1 +
        colonAfter.bytes.length
      stringToken key 1 name :: (tokensOf start v ++
        tokensOfMembers false (start + v.text.length + after.bytes.length) ms)

end

end Tokens

section Loop

variable (num : Nat)

theorem loop_skip (pos : Nat) (xs ys : StdString) (p : Jsmn) :
    loop num xs.length pos (xs ++ ys) p = loop num 0 (pos + xs.length) ys p := by
  induction xs generalizing pos with
  | nil => rfl
  | cons x xs ih =>
      rw [List.length_cons, List.cons_append, loop, ih]
      congr 1
      omega

/-- One turn that takes the first byte and those of `xs`. -/
theorem loop_step {pos : Nat} {c : UInt8} {xs ys : StdString} {p q : Jsmn} (more : c ≠ 0)
    (turn : step num pos c (xs ++ ys) p = .ok (q, xs.length)) :
    loop num 0 pos (c :: (xs ++ ys)) p = loop num 0 (pos + (xs.length + 1)) ys q := by
  rw [loop, if_neg more, turn]
  simp only [bind, Except.bind]
  rw [loop_skip]
  congr 1
  omega

theorem loop_byte {pos : Nat} {c : UInt8} {ys : StdString} {p q : Jsmn} (more : c ≠ 0)
    (turn : step num pos c ys p = .ok (q, 0)) :
    loop num 0 pos (c :: ys) p = loop num 0 (pos + 1) ys q := by
  rw [loop, if_neg more, turn]
  rfl

theorem step_space {c : UInt8} (space : JsonText.isSpace c = true) (pos : Nat) (cs : StdString)
    (p : Jsmn) : step num pos c cs p = .ok (p, 0) := by
  simp only [JsonText.isSpace, decide_eq_true_eq] at space
  obtain rfl | rfl | rfl | rfl := space <;> rfl

theorem loop_space (pos : Nat) (space : Space) (ys : StdString) (p : Jsmn) :
    loop num 0 pos (space.bytes ++ ys) p = loop num 0 (pos + space.bytes.length) ys p := by
  obtain ⟨bytes, valid⟩ := space
  dsimp only
  induction bytes generalizing pos with
  | nil => rfl
  | cons c cs ih =>
      rw [List.forall_mem_cons] at valid
      have more : c ≠ 0 := by
        rintro rfl
        exact absurd valid.1 (by decide)
      rw [List.cons_append, loop_byte num more (step_space num valid.1 pos _ p), ih _ valid.2]
      congr 1
      rw [List.length_cons]
      omega

/-! A primitive or a string is taken as a whole. -/

/-- What the primitives of a document are made of. -/
def isPlain (c : UInt8) : Bool :=
  c = 43 ∨ c = 45 ∨ c = 46 ∨ (48 ≤ c ∧ c ≤ 57) ∨ (65 ≤ c ∧ c ≤ 90) ∨ (97 ≤ c ∧ c ≤ 122)

/-- What ends a primitive, or the end of the text. -/
def Delimited : StdString → Prop
  | [] => True
  | c :: _ => endsPrimitive c = true

theorem isPlain_cases {c : UInt8} (plain : isPlain c = true) :
    endsPrimitive c = false ∧ c ≠ 0 ∧ ¬ (c < 32 ∨ 127 ≤ c) := by
  revert c
  decide +kernel

theorem step_plain {c : UInt8} (plain : isPlain c = true) (pos : Nat) (cs : StdString) (p : Jsmn) :
    step num pos c cs p = p.primitive num pos (c :: cs) := by
  have other : (c ≠ 123 ∧ c ≠ 91 ∧ c ≠ 125 ∧ c ≠ 93) ∧
      (c ≠ 34 ∧ isSpace c = false ∧ c ≠ 58 ∧ c ≠ 44) := by
    revert c
    decide +kernel
  obtain ⟨⟨h₁, h₂, h₃, h₄⟩, h₅, h₆, h₇, h₈⟩ := other
  simp only [step, h₁, h₂, h₃, h₄, h₅, h₆, h₇, h₈, if_false, Bool.false_eq_true]

theorem primitiveLength_plain {s rest : StdString} (plain : ∀ c ∈ s, isPlain c = true)
    (delimited : Delimited rest) : primitiveLength (s ++ rest) = .ok s.length := by
  induction s with
  | nil =>
      cases rest with
      | nil => rfl
      | cons c cs => rw [List.nil_append, primitiveLength, if_pos (.inr delimited)]; rfl
  | cons c cs ih =>
      rw [List.forall_mem_cons] at plain
      obtain ⟨goesOn, more, printable⟩ := isPlain_cases plain.1
      rw [List.cons_append, primitiveLength, if_neg (by simp [more, goesOn]), if_neg printable,
        ih plain.2]
      rfl

theorem stringLength_hex (hex : Nat) (d : HexDigit) (cs : StdString) :
    stringLength (hex + 1) (d.text :: cs) = (stringLength hex cs).map (· + 1) := by
  obtain ⟨value, capital⟩ := d
  have digit : (HexDigit.mk value capital).text ≠ 0 ∧ isHex (HexDigit.mk value capital).text = true := by
    revert value capital
    decide
  rw [stringLength, if_neg digit.1, if_pos digit.2]

theorem stringLength_character (c : Character) (cs : StdString) :
    stringLength 0 (c.text ++ cs) = (stringLength 0 cs).map (· + c.text.length) := by
  cases c with
  | plain c valid =>
      have more : c ≠ 0 := by
        rintro rfl
        exact absurd valid.1 (by decide)
      rw [Character.text, List.singleton_append]
      conv_lhs => unfold stringLength
      rw [if_neg more, if_neg valid.2.1, if_neg valid.2.2]
      rfl
  | escape e => cases e <;> rfl
  | unicode a b c d =>
      have four : stringLength 0 (92 :: 117 :: a.text :: b.text :: c.text :: d.text :: cs) =
          (stringLength 4 (a.text :: b.text :: c.text :: d.text :: cs)).map (· + 2) := rfl
      simp only [Character.text, List.cons_append, List.nil_append, four, stringLength_hex]
      cases stringLength 0 cs <;> rfl

theorem stringLength_text (s : List Character) (rest : StdString) :
    stringLength 0 (stringText s ++ 34 :: rest) = .ok (stringText s).length := by
  induction s with
  | nil => unfold stringLength; rfl
  | cons c cs ih =>
      rw [stringText, List.flatMap_cons, List.append_assoc, stringLength_character, ← stringText, ih,
        List.length_append, Nat.add_comm]
      rfl

end Loop

section Open

/-! Where a new token is counted. -/

theorem modify_append_left {i : Nat} {ts us : List T} {f : T → T} (h : i < ts.length) :
    (ts ++ us).modify i f = ts.modify i f ++ us := by
  induction ts generalizing i with
  | nil => simp at h
  | cons t ts ih =>
      cases i with
      | zero => simp
      | succ i => simp [ih (Nat.lt_of_succ_lt_succ h)]

theorem modify_append_cons (ts us : List T) (t : T) (f : T → T) :
    (ts ++ t :: us).modify ts.length f = ts ++ f t :: us := by
  induction ts with
  | nil => rfl
  | cons u ts ih => simp [ih]

/-- No token without an end. -/
def Closed (ts : List JsmnToken) : Prop := ∀ t ∈ ts, t.isOpen = false

theorem lastOpen_closed {ts : List JsmnToken} (closed : Closed ts) : lastOpen ts = none := by
  induction ts with
  | nil => rfl
  | cons t ts ih =>
      have both := List.forall_mem_cons.1 closed
      simp [lastOpen, ih both.2, both.1]

theorem lastOpen_append_closed (ts : List JsmnToken) {us : List JsmnToken} (closed : Closed us) :
    lastOpen (ts ++ us) = lastOpen ts := by
  induction ts with
  | nil => rw [List.nil_append, lastOpen_closed closed]; rfl
  | cons t ts ih => rw [List.cons_append, lastOpen, ih, lastOpen]

theorem lastOpen_append_cons (ts : List JsmnToken) {t : JsmnToken} {us : List JsmnToken}
    (isOpen : t.isOpen = true) (closed : Closed us) : lastOpen (ts ++ t :: us) = some ts.length := by
  induction ts with
  | nil => simp [lastOpen, lastOpen_closed closed, isOpen]
  | cons u ts ih => rw [List.cons_append, lastOpen, ih, List.length_cons]

theorem lastOpen_modify_grow (i : Nat) (ts : List JsmnToken) :
    lastOpen (ts.modify i JsmnToken.grow) = lastOpen ts := by
  induction ts generalizing i with
  | nil => rw [List.modify_nil]
  | cons t ts ih =>
      cases i with
      | zero => rw [List.modify_zero_cons, lastOpen, JsmnToken.grow_isOpen, lastOpen]
      | succ i => rw [List.modify_succ_cons, lastOpen, ih, lastOpen]

/-- The tokens after one more is counted in the one that `super` names. -/
def grown (super : Option Nat) (ts : List JsmnToken) : List JsmnToken :=
  super.elim ts fun i => ts.modify i JsmnToken.grow

@[simp] theorem length_grown (super : Option Nat) (ts : List JsmnToken) :
    (grown super ts).length = ts.length := by
  cases super <;> simp [grown]

theorem lastOpen_grown (super : Option Nat) (ts : List JsmnToken) :
    lastOpen (grown super ts) = lastOpen ts := by
  cases super with
  | none => rfl
  | some i => exact lastOpen_modify_grow i ts

theorem growSuper_mk (ts : List JsmnToken) (super : Option Nat) :
    growSuper ⟨ts, super⟩ = ⟨grown super ts, super⟩ := by
  cases super <;> rfl

theorem grown_append {super : Option Nat} {ts : List JsmnToken} (valid : ∀ i ∈ super, i < ts.length)
    (us : List JsmnToken) : grown super (ts ++ us) = grown super ts ++ us := by
  cases super with
  | none => rfl
  | some i => exact modify_append_left (valid i rfl)

end Open

section Turns

/-! What each piece of a document does to the parser. -/

variable {num pos : Nat} {ts : List JsmnToken} {super : Option Nat} {rest : StdString}

theorem allocToken_mk (room : ts.length < num) (t : JsmnToken) (super : Option Nat) :
    allocToken num t ⟨ts, super⟩ = .ok ⟨ts ++ [t], super⟩ := by
  rw [allocToken, if_neg (by dsimp only; omega)]

theorem loop_primitive {s : StdString} (some_ : s ≠ []) (plain : ∀ c ∈ s, isPlain c = true)
    (room : ts.length < num) (valid : ∀ i ∈ super, i < ts.length) (delimited : Delimited rest) :
    loop num 0 pos (s ++ rest) ⟨ts, super⟩ =
      loop num 0 (pos + s.length) rest ⟨grown super ts ++
        [{ type := .primitive, start := pos, end_ := some (pos + s.length) }], super⟩ := by
  obtain ⟨c, cs, rfl⟩ := List.exists_cons_of_ne_nil some_
  have more : c ≠ 0 := (isPlain_cases (plain c (by simp))).2.1
  rw [List.cons_append]
  refine (loop_step num more ?_).trans (by rw [List.length_cons])
  rw [step_plain num (plain c (by simp)), primitive, ← List.cons_append, primitiveLength_plain plain delimited]
  simp only [bind, Except.bind, allocToken_mk room, growSuper_mk, grown_append valid]
  rfl

theorem loop_string (s : List Character) (room : ts.length < num)
    (valid : ∀ i ∈ super, i < ts.length) :
    loop num 0 pos (quoted s ++ rest) ⟨ts, super⟩ =
      loop num 0 (pos + (quoted s).length) rest ⟨grown super ts ++ [stringToken pos 0 s], super⟩ := by
  rw [quoted, List.cons_append]
  refine (loop_step num (by decide) ?_).trans (by rw [List.length_cons])
  rw [List.append_assoc, List.singleton_append]
  have turn : ∀ cs p, step num pos 34 cs p = p.string num pos cs := fun _ _ => rfl
  rw [turn, string, stringLength_text]
  simp only [bind, Except.bind, allocToken_mk room, growSuper_mk, grown_append valid,
    List.length_append, List.length_singleton]
  rfl

theorem openToken_mk (room : ts.length < num) (valid : ∀ i ∈ super, i < ts.length)
    (type : JsmnType) : openToken num pos type ⟨ts, super⟩ =
      .ok ⟨grown super ts ++ [{ type, start := pos, end_ := none }], some ts.length⟩ := by
  simp only [openToken, bind, Except.bind, allocToken_mk room, growSuper_mk, grown_append valid]
  simp [pure, Except.pure]

theorem closeToken_mk {t : JsmnToken} {us : List JsmnToken} (isOpen : t.isOpen = true)
    (closed : Closed us) : closeToken pos t.type ⟨ts ++ t :: us, super⟩ =
      .ok ⟨ts ++ { t with end_ := some (pos + 1) } :: us, lastOpen ts⟩ := by
  have here : (ts ++ t :: us)[ts.length]? = some t := by simp
  have after : Closed ({ t with end_ := some (pos + 1) } :: us) :=
    List.forall_mem_cons.2 ⟨rfl, closed⟩
  rw [closeToken]
  simp only [lastOpen_append_cons ts isOpen closed, here, Option.map_some, ne_eq, not_true_eq_false,
    if_false, modify_append_cons, lastOpen_append_closed ts after]

theorem loop_colon (t : JsmnToken) :
    loop num 0 pos (58 :: rest) ⟨ts ++ [t], super⟩ =
      loop num 0 (pos + 1) rest ⟨ts ++ [t], some ts.length⟩ := by
  refine loop_byte num (by decide) ?_
  have turn : ∀ cs p, step num pos 58 cs p = .ok (p.colon, 0) := fun _ _ => rfl
  rw [turn, colon, if_neg (by simp)]
  simp

/-- New tokens are counted in `t`, or in a name or primitive until the next comma. -/
def Inside (ts : List JsmnToken) (t : JsmnToken) (us : List JsmnToken) (super : Option Nat) : Prop :=
  super = some ts.length ∨
    ∃ j k, super = some j ∧ (ts ++ t :: us)[j]? = some k ∧ k.isContainer = false

/-- After the comma they are counted in `t` again. -/
theorem loop_separator {first : Bool} {t : JsmnToken} {us : List JsmnToken}
    (isOpen : t.isOpen = true) (container : t.isContainer = true) (closed : Closed us)
    (inside : Inside ts t us super) (start : first = true → super = some ts.length) :
    loop num 0 pos (separator first ++ rest) ⟨ts ++ t :: us, super⟩ =
      loop num 0 (pos + (separator first).length) rest ⟨ts ++ t :: us, some ts.length⟩ := by
  cases first with
  | true =>
      rw [start rfl]
      rfl
  | false =>
      have turn : ∀ cs p, step num pos 44 cs p = .ok (p.comma, 0) := fun _ _ => rfl
      refine loop_byte num (by decide) ?_
      rw [turn]
      obtain rfl | ⟨j, k, rfl, here, notContainer⟩ := inside
      · simp [comma, container]
      · simp [comma, here, notContainer, lastOpen_append_cons ts isOpen closed]

end Turns

theorem delimited_space {rest : StdString} (space : Space) (delimited : Delimited rest) :
    Delimited (space.bytes ++ rest) := by
  obtain ⟨bytes, valid⟩ := space
  cases bytes with
  | nil => exact delimited
  | cons c cs =>
      have here := valid c (by simp)
      simp only [JsonText.isSpace, decide_eq_true_eq] at here
      obtain rfl | rfl | rfl | rfl := here <;> rfl

section Values

def isPrimitive : Json → Bool
  | .null => true
  | .boolean _ => true
  | .number _ => true
  | _ => false

theorem digits_plain (ds : List (Fin 10)) : ∀ c ∈ ds.map digit, isPlain c = true := by
  intro c mem
  obtain ⟨d, -, rfl⟩ := List.mem_map.1 mem
  have all : ∀ d, isPlain (digit d) = true := by decide
  exact all d

theorem number_plain (n : Number) : ∀ c ∈ n.text, isPlain c = true := by
  intro c mem
  obtain ⟨minus, integral, fraction, exponent⟩ := n
  simp only [Number.text, List.mem_append] at mem
  obtain (minus_ | integral_) | fraction_ | exponent_ := mem
  · cases minus <;> simp_all
    rfl
  · exact digits_plain _ c integral_
  · cases fraction with
    | none => cases fraction_
    | some f =>
        obtain rfl | digits_ := List.mem_cons.1 fraction_
        · rfl
        · exact digits_plain _ c digits_
  · cases exponent with
    | none => cases exponent_
    | some e =>
        obtain rfl | digits_ := List.mem_cons.1 exponent_
        · cases e.capital <;> rfl
        · obtain sign_ | digits_ := List.mem_append.1 digits_
          · cases h : e.sign with
            | none => simp [Exponent.signText, h] at sign_
            | some b => cases b <;> simp_all [Exponent.signText] <;> rfl
          · exact digits_plain _ c digits_

theorem primitive_plain {v : Json} (primitive : isPrimitive v = true) :
    v.text ≠ [] ∧ ∀ c ∈ v.text, isPlain c = true := by
  cases v with
  | null => exact ⟨by simp [Json.text], List.all_eq_true.1 rfl⟩
  | boolean b => cases b <;> exact ⟨by simp [Json.text], List.all_eq_true.1 rfl⟩
  | number n =>
      refine ⟨?_, number_plain n⟩
      have some_ : n.integral.digits ≠ [] := by cases n.integral <;> simp [Integral.digits]
      simp [Json.text, Number.text, some_]
  | string s => cases primitive
  | array es space => cases primitive
  | object ms space => cases primitive

mutual

theorem tokensOf_closed (v : Json) (pos : Nat) : Closed (tokensOf pos v) := by
  cases v with
  | null => exact List.forall_mem_singleton.2 rfl
  | boolean b => exact List.forall_mem_singleton.2 rfl
  | number n => exact List.forall_mem_singleton.2 rfl
  | string s => exact List.forall_mem_singleton.2 rfl
  | array es space => exact List.forall_mem_cons.2 ⟨rfl, tokensOfElements_closed es true _⟩
  | object ms space => exact List.forall_mem_cons.2 ⟨rfl, tokensOfMembers_closed ms true _⟩

theorem tokensOfElements_closed (es : List (Element Json)) (first : Bool) (pos : Nat) :
    Closed (tokensOfElements first pos es) := by
  cases es with
  | nil => exact List.forall_mem_nil _
  | cons e es =>
      obtain ⟨before, v, after⟩ := e
      exact List.forall_mem_append.2 ⟨tokensOf_closed v _, tokensOfElements_closed es false _⟩

theorem tokensOfMembers_closed (ms : List (Member Json)) (first : Bool) (pos : Nat) :
    Closed (tokensOfMembers first pos ms) := by
  cases ms with
  | nil => exact List.forall_mem_nil _
  | cons m ms =>
      obtain ⟨before, name, colonBefore, colonAfter, v, after⟩ := m
      exact List.forall_mem_cons.2
        ⟨rfl, List.forall_mem_append.2 ⟨tokensOf_closed v _, tokensOfMembers_closed ms false _⟩⟩

end

theorem tokensOf_primitive {v : Json} (primitive : isPrimitive v = true) (pos : Nat) :
    tokensOf pos v =
      [{ type := .primitive, start := pos, end_ := some (pos + v.text.length) }] := by
  cases v with
  | null => rfl
  | boolean b => rfl
  | number n => rfl
  | string s => cases primitive
  | array es space => cases primitive
  | object ms space => cases primitive

theorem delimited_elements {rest : StdString} (es : List (Element Json))
    (delimited : Delimited rest) : Delimited (Json.textOfElements false es ++ rest) := by
  cases es with
  | nil => exact delimited
  | cons e es => exact rfl

theorem delimited_members {rest : StdString} (ms : List (Member Json))
    (delimited : Delimited rest) : Delimited (Json.textOfMembers false ms ++ rest) := by
  cases ms with
  | nil => exact delimited
  | cons m ms => exact rfl

end Values

section Reads

variable {num : Nat}

/-- Where the next token is counted after a value. -/
def behind (v : Json) (super : Option Nat) (ts : List JsmnToken) : Option Nat :=
  match v with
  | .array _ _ => lastOpen ts
  | .object _ _ => lastOpen ts
  | _ => super

theorem loop_primitiveValue {v : Json} (primitive : isPrimitive v = true) {pos : Nat}
    {ts : List JsmnToken} {super : Option Nat} {rest : StdString}
    (room : ts.length + (tokensOf pos v).length ≤ num) (valid : ∀ i ∈ super, i < ts.length)
    (delimited : Delimited rest) :
    loop num 0 pos (v.text ++ rest) ⟨ts, super⟩ =
      loop num 0 (pos + v.text.length) rest ⟨grown super ts ++ tokensOf pos v, super⟩ := by
  rw [tokensOf_primitive primitive] at room ⊢
  obtain ⟨some_, plain⟩ := primitive_plain primitive
  rw [List.length_singleton] at room
  exact loop_primitive some_ plain (by omega) valid delimited

/-- Between its brackets a container counts its own, and afterwards it is one of the tokens
that are done with. -/
theorem loop_container (opening closing : UInt8) (type : JsmnType) (size : Nat) (rest : StdString)
    {body : StdString} {inner : List JsmnToken} {pos : Nat} {ts : List JsmnToken}
    {super : Option Nat} (space : Space) (room : ts.length < num)
    (valid : ∀ i ∈ super, i < ts.length)
    (opens : opening ≠ 0 ∧ ∀ pos cs p,
      step num pos opening cs p = (p.openToken num pos type).map (·, 0))
    (closes : closing ≠ 0 ∧ ∀ pos cs p,
      step num pos closing cs p = (p.closeToken pos type).map (·, 0))
    (closed : Closed inner)
    (reads : ∃ super', loop num 0 (pos + 1) (body ++ (space.bytes ++ (closing :: rest)))
        ⟨grown super ts ++ [{ type, start := pos, end_ := none }], some (grown super ts).length⟩ =
      loop num 0 (pos + 1 + body.length) (space.bytes ++ (closing :: rest))
        ⟨grown super ts ++ { type, start := pos, end_ := none, size } :: inner, super'⟩) :
    loop num 0 pos (opening :: (body ++ (space.bytes ++ (closing :: rest)))) ⟨ts, super⟩ =
      loop num 0 (pos + (1 + body.length + space.bytes.length + 1)) rest
        ⟨grown super ts ++
          ⟨type, pos, some (pos + (1 + body.length + space.bytes.length + 1)), size⟩ :: inner,
          lastOpen ts⟩ := by
  obtain ⟨super', reads⟩ := reads
  rw [length_grown] at reads
  rw [loop_byte num opens.1 (by rw [opens.2, openToken_mk room valid]; rfl), reads, loop_space]
  have close : closeToken (pos + 1 + body.length + space.bytes.length) type
      ⟨grown super ts ++ ⟨type, pos, none, size⟩ :: inner, super'⟩ = _ :=
    closeToken_mk (t := ⟨type, pos, none, size⟩) rfl closed
  rw [loop_byte num closes.1 (by rw [closes.2, close]; rfl), lastOpen_grown]
  have position : pos + 1 + body.length + space.bytes.length + 1 =
      pos + (1 + body.length + space.bytes.length + 1) := by omega
  rw [position]

theorem grown_here (ts us : List JsmnToken) (t : JsmnToken) :
    grown (some ts.length) (ts ++ t :: us) = ts ++ t.grow :: us := modify_append_cons ts us t _

/-- A value between the brackets of `t` leaves new tokens to be counted where it was counted, or
in `t`. -/
theorem behind_inside (v : Json) (ts : List JsmnToken) {us : List JsmnToken} {t : JsmnToken}
    (isOpen : t.isOpen = true)
    (closed : Closed us) (super : Option Nat) :
    behind v super (ts ++ t :: us) = super ∨ behind v super (ts ++ t :: us) = some ts.length := by
  cases v with
  | array es space => exact .inr (lastOpen_append_cons ts isOpen closed)
  | object ms space => exact .inr (lastOpen_append_cons ts isOpen closed)
  | _ => exact .inl rfl

mutual

theorem loop_value (v : Json) {pos : Nat} {ts : List JsmnToken} {super : Option Nat}
    {rest : StdString} (room : ts.length + (tokensOf pos v).length ≤ num)
    (valid : ∀ i ∈ super, i < ts.length) (delimited : Delimited rest) :
    loop num 0 pos (v.text ++ rest) ⟨ts, super⟩ =
      loop num 0 (pos + v.text.length) rest
        ⟨grown super ts ++ tokensOf pos v, behind v super ts⟩ := by
  cases v with
  | array es space =>
      rw [tokensOf, List.length_cons] at room
      have reads : loop num 0 (pos + 1)
          (Json.textOfElements true es ++ (space.bytes ++ (93 :: rest)))
          ⟨grown super ts ++ [⟨.array, pos, none, 0⟩], some (grown super ts).length⟩ = _ :=
        loop_elements es (by rw [length_grown, List.length_nil]; omega) rfl rfl
          (List.forall_mem_nil _) (delimited_space space rfl)
      have all := loop_container 91 93 .array (0 + es.length) rest space (by omega) valid
        ⟨by decide, fun _ _ _ => rfl⟩
        ⟨by decide, fun _ _ _ => rfl⟩ (tokensOfElements_closed es true (pos + 1)) ⟨_, reads⟩
      simpa [Json.text, tokensOf, head, behind, Nat.add_assoc, Nat.add_comm, Nat.add_left_comm]
        using all
  | object ms space =>
      rw [tokensOf, List.length_cons] at room
      have reads : ∃ super', loop num 0 (pos + 1)
          (Json.textOfMembers true ms ++ (space.bytes ++ (125 :: rest)))
          ⟨grown super ts ++ [⟨.object, pos, none, 0⟩], some (grown super ts).length⟩ =
            loop num 0 _ _ ⟨_, super'⟩ :=
        loop_members ms (by rw [length_grown, List.length_nil]; omega) rfl rfl
          (List.forall_mem_nil _) (.inl rfl) (fun _ => rfl) (delimited_space space rfl)
      have all := loop_container 123 125 .object (0 + ms.length) rest space (by omega) valid
        ⟨by decide, fun _ _ _ => rfl⟩
        ⟨by decide, fun _ _ _ => rfl⟩ (tokensOfMembers_closed ms true (pos + 1)) reads
      simpa [Json.text, tokensOf, head, behind, Nat.add_assoc, Nat.add_comm, Nat.add_left_comm]
        using all
  | string s =>
      exact loop_string s (by rw [tokensOf, List.length_singleton] at room; omega) valid
  | null => exact loop_primitiveValue rfl room valid delimited
  | boolean b => exact loop_primitiveValue rfl room valid delimited
  | number n => exact loop_primitiveValue rfl room valid delimited

theorem loop_elements (es : List (Element Json)) {first : Bool} {pos : Nat}
    {ts us : List JsmnToken} {t : JsmnToken} {rest : StdString}
    (room : ts.length + 1 + us.length + (tokensOfElements first pos es).length ≤ num)
    (isOpen : t.isOpen = true) (container : t.isContainer = true) (closed : Closed us)
    (delimited : Delimited rest) :
    loop num 0 pos (Json.textOfElements first es ++ rest) ⟨ts ++ t :: us, some ts.length⟩ =
      loop num 0 (pos + (Json.textOfElements first es).length) rest
        ⟨ts ++ { t with size := t.size + es.length } :: (us ++ tokensOfElements first pos es),
          some ts.length⟩ := by
  cases es with
  | nil => simp [Json.textOfElements, tokensOfElements]
  | cons e es =>
      obtain ⟨before, v, after⟩ := e
      simp only [tokensOfElements, List.length_append] at room
      have here : ∀ i ∈ some ts.length, i < (ts ++ t :: us).length := by simp
      have counted : behind v (some ts.length) (ts ++ t :: us) = some ts.length :=
        (behind_inside v ts isOpen closed _).elim id id
      have next := delimited_space after (delimited_elements es delimited)
      rw [Json.textOfElements, List.append_assoc, List.append_assoc, List.append_assoc,
        List.append_assoc, loop_separator isOpen container closed (.inl rfl) fun _ => rfl, loop_space,
        loop_value v (by simp only [List.length_append, List.length_cons]; omega) here next,
        loop_space, grown_here, counted, List.append_assoc, List.cons_append,
        loop_elements es (t := t.grow) (by simp only [List.length_append]; omega) isOpen container
          (List.forall_mem_append.2 ⟨closed, tokensOf_closed v _⟩) delimited]
      simp [tokensOfElements, JsmnToken.grow, Nat.add_assoc, Nat.add_comm, Nat.add_left_comm]

theorem loop_members (ms : List (Member Json)) {first : Bool} {pos : Nat}
    {ts us : List JsmnToken} {t : JsmnToken} {super : Option Nat} {rest : StdString}
    (room : ts.length + 1 + us.length + (tokensOfMembers first pos ms).length ≤ num)
    (isOpen : t.isOpen = true) (container : t.isContainer = true) (closed : Closed us)
    (inside : Inside ts t us super) (start : first = true → super = some ts.length)
    (delimited : Delimited rest) :
    ∃ super', loop num 0 pos (Json.textOfMembers first ms ++ rest) ⟨ts ++ t :: us, super⟩ =
      loop num 0 (pos + (Json.textOfMembers first ms).length) rest
        ⟨ts ++ { t with size := t.size + ms.length } :: (us ++ tokensOfMembers first pos ms),
          super'⟩ := by
  cases ms with
  | nil => exact ⟨super, by simp [Json.textOfMembers, tokensOfMembers]⟩
  | cons m ms =>
      obtain ⟨before, name, colonBefore, colonAfter, v, after⟩ := m
      simp only [tokensOfMembers, List.length_cons, List.length_append] at room
      have next := delimited_space after (delimited_members ms delimited)
      have here : ∀ i ∈ some ts.length, i < (ts ++ t :: us).length := by simp
      rw [Json.textOfMembers, List.append_assoc, List.append_assoc, List.append_assoc,
        List.append_assoc, List.cons_append, List.append_assoc, List.append_assoc, List.append_assoc,
        loop_separator isOpen container closed inside start, loop_space,
        loop_string name (by simp only [List.length_append, List.length_cons]; omega) here,
        loop_space, grown_here, loop_colon, loop_space]
      generalize key : pos + (separator first).length + before.bytes.length = k at room ⊢
      generalize start_ : k + (quoted name).length + colonBefore.bytes.length + 1 +
        colonAfter.bytes.length = l at room ⊢
      -- the name counts the value
      have named : ∀ i ∈ some (ts ++ t.grow :: us).length,
          i < ((ts ++ t.grow :: us) ++ [stringToken k 0 name]).length := by simp
      rw [loop_value v (by simp only [List.length_append, List.length_cons, List.length_nil]; omega)
        named next, loop_space, grown_here]
      have before_ : Closed (us ++ [stringToken k 0 name]) :=
        List.forall_mem_append.2 ⟨closed, List.forall_mem_singleton.2 rfl⟩
      have counted := behind_inside v ts (t := t.grow) isOpen before_
        (some (ts ++ t.grow :: us).length)
      rw [← List.cons_append, ← List.append_assoc] at counted
      generalize behind v _ _ = super' at counted ⊢
      -- the members after it
      have between : Closed (us ++ stringToken k 1 name :: tokensOf l v) :=
        List.forall_mem_append.2 ⟨closed, List.forall_mem_cons.2 ⟨rfl, tokensOf_closed v _⟩⟩
      have named_ : Inside ts t.grow (us ++ stringToken k 1 name :: tokensOf l v) super' :=
        counted.symm.imp_right fun named => ⟨_, stringToken k 1 name, named, by simp, rfl⟩
      have more : ∃ super'', loop num 0 (l + v.text.length + after.bytes.length)
          (Json.textOfMembers false ms ++ rest)
          ⟨ts ++ t.grow :: (us ++ stringToken k 1 name :: tokensOf l v), super'⟩ =
            loop num 0 _ _ ⟨_, super''⟩ :=
        loop_members ms (by simp only [List.length_append, List.length_cons]; omega) isOpen
          container between named_ nofun delimited
      obtain ⟨super'', more⟩ := more
      refine ⟨super'', ?_⟩
      have grownName : (stringToken k 0 name).grow = stringToken k 1 name := rfl
      simp only [grownName, List.append_assoc, List.cons_append, List.nil_append] at more ⊢
      rw [more]
      subst start_ key
      simp [tokensOfMembers, JsmnToken.grow, Nat.add_assoc, Nat.add_comm, Nat.add_left_comm]

end

end Reads

theorem finish_closed {p : Jsmn} (closed : Closed p.tokens) : p.finish = .ok p := by
  have none_ : p.tokens.any JsmnToken.isOpen = false :=
    List.any_eq_false.2 fun t mem => by simp [closed t mem]
  rw [finish, none_]
  rfl

section Room

/-! A larger array of tokens changes nothing where the smaller one is enough. -/

variable {num num' : Nat}

theorem allocToken_mono (more : num ≤ num') {t : JsmnToken} {p q : Jsmn}
    (h : p.allocToken num t = .ok q) :
    p.allocToken num' t = .ok q ∧ q.tokens.length ≤ num := by
  rw [allocToken] at h
  split at h
  · cases h
  · cases h
    refine ⟨by rw [allocToken, if_neg (by omega)], ?_⟩
    rw [List.length_append, List.length_singleton]
    omega

theorem length_growSuper (p : Jsmn) : p.growSuper.tokens.length = p.tokens.length := by
  obtain ⟨ts, super⟩ := p
  rw [growSuper_mk, length_grown]

/-- A token that is allocated and counted. -/
theorem taken_mono (more : num ≤ num') {t : JsmnToken} {p : Jsmn} {f : Jsmn → T} {r : T}
    (h : (do let p ← p.allocToken num t; pure (f p.growSuper)) = Except.ok r) :
    (do let p ← p.allocToken num' t; pure (f p.growSuper)) = Except.ok r ∧
      ∃ q, r = f q ∧ q.tokens.length ≤ num := by
  obtain ⟨q, alloc, done⟩ := bind_eq_ok.mp h
  cases done
  obtain ⟨alloc', room⟩ := allocToken_mono more alloc
  exact ⟨by rw [alloc']; rfl, q.growSuper, rfl, by rwa [length_growSuper]⟩

theorem openToken_mono (more : num ≤ num') {pos : Nat} {type : JsmnType} {p q : Jsmn}
    (h : p.openToken num pos type = .ok q) :
    p.openToken num' pos type = .ok q ∧ q.tokens.length ≤ num := by
  rw [openToken] at h ⊢
  obtain ⟨h', q, same, room⟩ := taken_mono more
    (f := fun p => { p with toksuper := some (p.tokens.length - 1) }) h
  cases same
  exact ⟨h', room⟩

theorem closeToken_length {pos : Nat} {type : JsmnType} {p q : Jsmn}
    (h : p.closeToken pos type = .ok q) : q.tokens.length = p.tokens.length := by
  rw [closeToken] at h
  split at h
  · cases h
  · split at h
    · cases h
    · cases h
      exact List.length_modify ..

theorem primitive_mono (more : num ≤ num') {pos skip : Nat} {js : StdString} {p q : Jsmn}
    (h : p.primitive num pos js = .ok (q, skip)) :
    p.primitive num' pos js = .ok (q, skip) ∧ q.tokens.length ≤ num := by
  rw [primitive] at h ⊢
  obtain ⟨n, len, taken⟩ := bind_eq_ok.mp h
  obtain ⟨taken', q, same, room⟩ := taken_mono more (f := fun p => (p, n - 1)) taken
  cases same
  exact ⟨bind_eq_ok.mpr ⟨n, len, taken'⟩, room⟩

theorem string_mono (more : num ≤ num') {pos skip : Nat} {js : StdString} {p q : Jsmn}
    (h : p.string num pos js = .ok (q, skip)) :
    p.string num' pos js = .ok (q, skip) ∧ q.tokens.length ≤ num := by
  rw [string] at h ⊢
  obtain ⟨n, len, taken⟩ := bind_eq_ok.mp h
  obtain ⟨taken', q, same, room⟩ := taken_mono more (f := fun p => (p, n + 1)) taken
  cases same
  exact ⟨bind_eq_ok.mpr ⟨n, len, taken'⟩, room⟩

theorem map_pair_ok {r : Except JsmnError Jsmn} {q : Jsmn} {skip : Nat}
    (h : r.map (·, 0) = .ok (q, skip)) : r = .ok q ∧ skip = 0 := by
  obtain ⟨q', opened, same⟩ := map_eq_ok.mp h
  cases same
  exact ⟨opened, rfl⟩

theorem length_comma (p : Jsmn) : p.comma.tokens = p.tokens := by
  rw [comma]
  split
  · rfl
  · split <;> rfl

theorem step_mono (more : num ≤ num') {pos skip : Nat} {c : UInt8} {cs : StdString} {p q : Jsmn}
    (h : p.step num pos c cs = .ok (q, skip)) (room : p.tokens.length ≤ num) :
    p.step num' pos c cs = .ok (q, skip) ∧ q.tokens.length ≤ num := by
  have opens {type : JsmnType} (h : (p.openToken num pos type).map (·, 0) = .ok (q, skip)) :
      (p.openToken num' pos type).map (·, 0) = .ok (q, skip) ∧ q.tokens.length ≤ num := by
    obtain ⟨opened, rfl⟩ := map_pair_ok h
    obtain ⟨opened', room⟩ := openToken_mono more opened
    exact ⟨by rw [opened']; rfl, room⟩
  have closes {type : JsmnType} (h : (p.closeToken pos type).map (·, 0) = .ok (q, skip)) :
      q.tokens.length ≤ num := by
    rw [closeToken_length (map_pair_ok h).1]
    exact room
  unfold step at h ⊢
  split_ifs at h ⊢ with isOpen isArray isClose isArrayClose isQuote isBlank isColon isComma
  · exact opens h
  · exact opens h
  · exact ⟨h, closes h⟩
  · exact ⟨h, closes h⟩
  · exact string_mono more h
  · cases h
    exact ⟨rfl, room⟩
  · cases h
    exact ⟨rfl, room⟩
  · cases h
    exact ⟨rfl, by rwa [length_comma]⟩
  · exact primitive_mono more h

theorem finish_ok {p q : Jsmn} (h : p.finish = .ok q) : q = p := by
  rw [finish] at h
  split at h
  · cases h
  · cases h
    rfl

theorem loop_mono (more : num ≤ num') {skip pos : Nat} {js : StdString} {p q : Jsmn}
    (h : loop num skip pos js p = .ok q) (room : p.tokens.length ≤ num) :
    loop num' skip pos js p = .ok q ∧ q.tokens.length ≤ num := by
  induction js generalizing skip pos p with
  | nil =>
      rw [loop] at h ⊢
      exact ⟨h, finish_ok h ▸ room⟩
  | cons c cs ih =>
      cases skip with
      | succ skip => exact ih h room
      | zero =>
          rw [loop] at h ⊢
          split at h
          · next nul => exact ⟨by rw [if_pos nul]; exact h, finish_ok h ▸ room⟩
          · next notNul =>
              rw [if_neg notNul]
              obtain ⟨⟨p', skip⟩, turn, rest⟩ := bind_eq_ok.mp h
              obtain ⟨turn', room'⟩ := step_mono more turn room
              obtain ⟨rest', room''⟩ := ih rest room'
              exact ⟨bind_eq_ok.mpr ⟨(p', skip), turn', rest'⟩, room''⟩

end Room

end Jsmn

theorem jsmnParse_mono {num num' : Nat} (more : num ≤ num') {js : StdString} {ts : List JsmnToken}
    (h : jsmnParse num js = .ok ts) : jsmnParse num' js = .ok ts ∧ ts.length ≤ num := by
  rw [jsmnParse] at h ⊢
  obtain ⟨p, run, rfl⟩ := map_eq_ok.mp h
  obtain ⟨run', room⟩ := Jsmn.loop_mono more run (Nat.zero_le _)
  exact ⟨map_eq_ok.mpr ⟨p, run', rfl⟩, room⟩

/-- The documented tokens of a document. -/
def documentTokens (d : JsonDocument) : List JsmnToken :=
  Jsmn.tokensOf d.before.bytes.length d.value

/-- Every document with no more tokens than there is room for gets the documented ones. -/
theorem jsmnParse_text (d : JsonDocument) {num : Nat} (room : (documentTokens d).length ≤ num) :
    jsmnParse num d.text = .ok (documentTokens d) := by
  have value : Jsmn.loop num 0 d.before.bytes.length (d.value.text ++ (d.after.bytes ++ [])) {} = _ :=
    Jsmn.loop_value d.value (by simpa [documentTokens] using room) nofun
      (Jsmn.delimited_space d.after trivial)
  rw [Jsmn.loop_space, List.append_nil] at value
  have closed : Jsmn.Closed (Jsmn.grown none [] ++ Jsmn.tokensOf d.before.bytes.length d.value) :=
    Jsmn.tokensOf_closed d.value _
  rw [jsmnParse, JsonDocument.text, Jsmn.loop_space, Nat.zero_add, value, Jsmn.loop,
    Jsmn.finish_closed closed]
  rfl

/-- And with more tokens than that it gets none. -/
theorem jsmnParse_text_iff (d : JsonDocument) (num : Nat) :
    (∃ ts, jsmnParse num d.text = .ok ts) ↔ (documentTokens d).length ≤ num := by
  constructor
  · rintro ⟨ts, h⟩
    by_contra tooMany
    obtain ⟨larger, room⟩ := jsmnParse_mono (Nat.le_of_not_le tooMany) h
    rw [jsmnParse_text d le_rfl] at larger
    cases larger
    exact tooMany room
  · exact fun room => ⟨_, jsmnParse_text d room⟩

end VanillaRtb.Parsers
