import VanillaRtb.Http.Language

/-! # The version numbers of a request

The source keeps the two numbers of the version in an `int` and goes over to the next digit with
`v * 10 + input - '0'`, from left to right. Here an expression that leaves the range of an `int`
is undefined. What the numbers have to be is read off the text of the request.
-/

namespace VanillaRtb.Http

open RequestParser

/-- The number that a byte is appended to as a digit. -/
def accumulated (state : State) (req : Request) (input : UInt8) : Option Int :=
  if isDigit input then
    match state with
    | .httpVersionMajorStart => some req.httpVersionMajor
    | .httpVersionMajor => some req.httpVersionMajor
    | .httpVersionMinorStart => some req.httpVersionMinor
    | .httpVersionMinor => some req.httpVersionMinor
    | _ => none
  else
    none

/-- `v * 10` and `v * 10 + input` are values of an `int`. -/
def InRange (v : Int) (input : UInt8) : Prop :=
  -2 ^ 31 ≤ v * 10 ∧ v * 10 + input.toNat < 2 ^ 31

instance (v : Int) (input : UInt8) : Decidable (InRange v input) :=
  inferInstanceAs (Decidable (_ ∧ _))

/-- `consume`, none where it is undefined. -/
def consumeInt (state : State) (req : Request) (input : UInt8) :
    Option (ResultType × State × Request) :=
  if (accumulated state req input).all fun v => InRange v input then
    some (consume state req input)
  else
    none

def parseInt (state : State) (req : Request) :
    StdString → Option (ResultType × State × Request × StdString)
  | [] => some (.indeterminate, state, req, [])
  | input :: rest =>
      match consumeInt state req input with
      | none => none
      | some (.indeterminate, state, req) => parseInt state req rest
      | some (result, state, req) => some (result, state, req, rest)

/-- `parse` for one piece of the input after the other. -/
def parseCallsInt (state : State) (req : Request) :
    List StdString → Option (ResultType × State × Request × StdString)
  | [] => some (.indeterminate, state, req, [])
  | piece :: pieces =>
      match parseInt state req piece with
      | none => none
      | some (.indeterminate, next, held, _) => parseCallsInt next held pieces
      | some (result, next, held, rest) => some (result, next, held, rest ++ pieces.flatten)

section Text

/-- The request line up to the version. -/
structure RequestStart where
  method : StdString
  uri : StdString
  method_some : method ≠ []
  method_token : ∀ c ∈ method, isToken c = true
  uri_plain : ∀ c ∈ uri, isCtl c = false ∧ c ≠ byte ' '

def RequestStart.render (s : RequestStart) : StdString :=
  s.method ++ byte ' ' :: s.uri ++ ascii " HTTP/"

/-- The number that digits denote. -/
def number (digits : StdString) : Nat :=
  Nat.ofDigits 10 (digits.reverse.map fun c => c.toNat - 48)

/-- The digits of the first number in the text behind the start of a request. -/
def majorDigits (text : StdString) : StdString := text.takeWhile isDigit

/-- Those of the second, which comes behind a dot behind the first. -/
def minorDigits (text : StdString) : StdString :=
  if majorDigits text = [] then
    []
  else
    match text.dropWhile isDigit with
    | [] => []
    | c :: rest => if c = byte '.' then rest.takeWhile isDigit else []

/-- However the bytes come and wherever they end, the numbers are those of the digits that have
been read, and one that is no value of an `int` has been rejected. -/
def Counts (req : Request) (xs : StdString) : Prop :=
  ∀ pieces : List StdString, pieces.flatten <+: xs →
    ∃ result state held rest,
      parseCallsInt .methodStart req pieces = some (result, state, held, rest) ∧
      ∀ (start : RequestStart) (text : StdString), pieces.flatten = start.render ++ text →
        held.httpVersionMajor = number (majorDigits text) ∧
          held.httpVersionMinor = number (minorDigits text) ∧
          (2 ^ 31 ≤ number (majorDigits text) ∨ 2 ^ 31 ≤ number (minorDigits text) →
            result = .bad)

/-- The greatest number that the last digit can be appended to give. -/
def greatest : Nat := 2 ^ 31 - 1 - 48

/-- The text has no version number above that. -/
def Fits (xs : StdString) : Prop :=
  ∀ (start : RequestStart) (text : StdString), xs = start.render ++ text →
    number (majorDigits text) ≤ greatest ∧ number (minorDigits text) ≤ greatest

end Text

section Digits

variable {digits more rest : StdString} {c : UInt8}

theorem isDigit_range (digit : isDigit c = true) : 48 ≤ c.toNat ∧ c.toNat ≤ 57 := by
  simp only [isDigit, Bool.and_eq_true, decide_eq_true_eq, UInt8.le_iff_toNat_le] at digit
  exact digit

theorem decimal_append (digits : StdString) (c : UInt8) :
    decimal (digits ++ [c]) = appendDigit (decimal digits) c := by
  rw [decimal, List.foldl_append]
  rfl

theorem number_append (digits : StdString) (c : UInt8) :
    number (digits ++ [c]) = number digits * 10 + (c.toNat - 48) := by
  simp only [number, List.reverse_append, List.reverse_singleton, List.singleton_append,
    List.map_cons, Nat.ofDigits_cons]
  omega

/-- What the parser computes is the number. -/
theorem decimal_eq_number (all : ∀ c ∈ digits, isDigit c = true) :
    decimal digits = number digits := by
  induction digits using List.reverseRecOn with
  | nil => rfl
  | append_singleton digits c ih =>
      have digit := isDigit_range (all c (by simp))
      rw [decimal_append, number_append, ih fun d inside => all d (by simp [inside]), appendDigit]
      push_cast
      omega

theorem number_le_append (digits more : StdString) : number digits ≤ number (digits ++ more) := by
  induction more using List.reverseRecOn with
  | nil => simp
  | append_singleton more c ih =>
      rw [← List.append_assoc, number_append]
      omega

/-- A run of digits that goes no further. -/
def Ends (rest : StdString) : Prop := ∀ c ∈ rest.head?, isDigit c = false

theorem takeWhile_digits (all : ∀ c ∈ digits, isDigit c = true) (rest : StdString) :
    (digits ++ rest).takeWhile isDigit = digits ++ rest.takeWhile isDigit :=
  List.takeWhile_append_of_pos all

theorem takeWhile_ends (ends : Ends rest) : rest.takeWhile isDigit = [] := by
  cases rest with
  | nil => rfl
  | cons c rest => simp [ends c rfl]

theorem majorDigits_append (all : ∀ c ∈ digits, isDigit c = true) (ends : Ends rest) :
    majorDigits (digits ++ rest) = digits := by
  rw [majorDigits, takeWhile_digits all, takeWhile_ends ends, List.append_nil]

theorem minorDigits_dot (some_ : digits ≠ []) (all : ∀ c ∈ digits, isDigit c = true)
    (more : StdString) :
    minorDigits (digits ++ byte '.' :: more) = more.takeWhile isDigit := by
  have ends : Ends (byte '.' :: more) := by
    rintro c ⟨⟩
    rfl
  have behind : (digits ++ byte '.' :: more).dropWhile isDigit = byte '.' :: more := by
    rw [List.dropWhile_append_of_pos all]
    rfl
  rw [minorDigits, majorDigits_append all ends, if_neg some_, behind]
  rfl

theorem minorDigits_none (all : ∀ c ∈ digits, isDigit c = true) (ends : Ends rest)
    (other : digits = [] ∨ rest.head? ≠ some (byte '.')) : minorDigits (digits ++ rest) = [] := by
  rw [minorDigits, majorDigits_append all ends]
  rcases other with none_ | other
  · rw [if_pos none_]
  split
  · rfl
  · rw [List.dropWhile_append_of_pos all]
    cases rest with
    | nil => rfl
    | cons c rest =>
        have stop := ends c rfl
        simp only [List.head?_cons, ne_eq, Option.some.injEq] at other
        simp [stop, other]

end Digits

section Defined

variable {state next : State} {req held : Request} {input c : UInt8} {xs before after : StdString}
  {outcome : ResultType × State × Request × StdString}

theorem consumeInt_some (inRange : ∀ v, accumulated state req input = some v → InRange v input) :
    consumeInt state req input = some (consume state req input) := by
  rw [consumeInt]
  cases here : accumulated state req input with
  | none => rfl
  | some v => simp [inRange v here]

theorem consumeInt_none {v : Int} (here : accumulated state req input = some v)
    (outside : ¬ InRange v input) : consumeInt state req input = none := by
  simp [consumeInt, here, outside]

theorem parseInt_cons_none {v : Int} (here : accumulated state req input = some v)
    (outside : ¬ InRange v input) : parseInt state req (input :: xs) = none := by
  simp [parseInt, consumeInt_none here outside]

theorem parseInt_cons (inRange : ∀ v, accumulated state req input = some v → InRange v input) :
    parseInt state req (input :: xs) =
      match consume state req input with
      | (.indeterminate, next, held) => parseInt next held xs
      | (result, next, held) => some (result, next, held, xs) := by
  rw [parseInt, consumeInt_some inRange]
  obtain ⟨result, next, held⟩ := consume state req input
  cases result <;> rfl

/-- A byte that is consumed where the bytes are parsed. -/
theorem inRange_of_parseInt (parsed : parseInt state req (input :: xs) = some outcome) (v : Int)
    (here : accumulated state req input = some v) : InRange v input := by
  by_contra outside
  rw [parseInt_cons_none here outside] at parsed
  cases parsed

/-- Where it is defined, the result is that of unbounded numbers. -/
theorem parse_of_parseInt (parsed : parseInt state req xs = some outcome) :
    parse state req xs = outcome := by
  induction xs generalizing state req with
  | nil => exact Option.some.inj parsed
  | cons input xs ih =>
      rw [parseInt_cons (inRange_of_parseInt parsed)] at parsed
      rw [parse]
      cases step : consume state req input with | mk result more =>
      obtain ⟨next, held⟩ := more
      rw [step] at parsed
      cases result with
      | indeterminate => exact ih parsed
      | good => exact Option.some.inj parsed
      | bad => exact Option.some.inj parsed

theorem parseInt_append (state : State) (req : Request) (xs ys : StdString) :
    parseInt state req (xs ++ ys) =
      match parseInt state req xs with
      | none => none
      | some (.indeterminate, next, held, _) => parseInt next held ys
      | some (result, next, held, rest) => some (result, next, held, rest ++ ys) := by
  induction xs generalizing state req with
  | nil => rfl
  | cons input rest ih =>
      rw [List.cons_append, parseInt, parseInt]
      cases consumeInt state req input with
      | none => rfl
      | some step =>
          obtain ⟨result, next, held⟩ := step
          cases result with
          | good => rfl
          | bad => rfl
          | indeterminate => exact ih next held

/-- The rest is parsed too. -/
theorem parseInt_behind (parsed : parseInt state req (before ++ after) = some outcome)
    (reached : parse state req before = (.indeterminate, next, held, [])) :
    parseInt next held after = some outcome := by
  rw [parseInt_append] at parsed
  cases first : parseInt state req before with
  | none =>
      rw [first] at parsed
      cases parsed
  | some step =>
      rw [parse_of_parseInt first] at reached
      rw [first, reached] at parsed
      exact parsed

theorem parseCallsInt_eq (state : State) (req : Request) (pieces : List StdString) :
    parseCallsInt state req pieces = parseInt state req pieces.flatten := by
  induction pieces generalizing state req with
  | nil => rfl
  | cons piece pieces ih =>
      rw [parseCallsInt, List.flatten_cons, parseInt_append]
      cases parseInt state req piece with
      | none => rfl
      | some step =>
          obtain ⟨result, next, held, rest⟩ := step
          cases result with
          | good => rfl
          | bad => rfl
          | indeterminate => exact ih next held

/-- What is undefined is so at one byte. -/
theorem parseInt_eq_none (undefined : parseInt state req xs = none) :
    ∃ before c after next held v, xs = before ++ c :: after ∧
      parse state req before = (.indeterminate, next, held, []) ∧
      accumulated next held c = some v ∧ ¬ InRange v c := by
  induction xs generalizing state req with
  | nil => cases undefined
  | cons input xs ih =>
      by_cases inRange : ∀ v, accumulated state req input = some v → InRange v input
      · rw [parseInt_cons inRange] at undefined
        cases step : consume state req input with | mk result more =>
        obtain ⟨next, held⟩ := more
        rw [step] at undefined
        cases result with
        | indeterminate =>
            obtain ⟨before, c, after, next', held', v, rfl, reached, rest⟩ := ih undefined
            exact ⟨input :: before, c, after, next', held', v, rfl,
              (parse_step step before).trans reached, rest⟩
        | good => cases undefined
        | bad => cases undefined
      · push Not at inRange
        obtain ⟨v, here, outside⟩ := inRange
        exact ⟨[], input, xs, state, req, v, rfl, rfl, here, outside⟩

end Defined

section Version

variable {state next : State} {req held : Request} {input c : UInt8}
  {text more digits rest before after : StdString} {result : ResultType}

theorem parse_start (start : RequestStart) (req : Request) (rest : StdString) :
    parse .methodStart req (start.render ++ rest) =
      parse .httpVersionMajorStart
        { req with
          method := req.method ++ start.method
          uri := req.uri ++ start.uri
          httpVersionMajor := 0
          httpVersionMinor := 0 } rest := by
  have letters : ascii "HTTP/" = [byte 'H', byte 'T', byte 'T', byte 'P', byte '/'] := rfl
  have shape : start.render ++ rest =
      start.method ++ byte ' ' :: (start.uri ++ byte ' ' :: (ascii "HTTP/" ++ rest)) := by
    have space : ascii " HTTP/" = byte ' ' :: ascii "HTTP/" := rfl
    simp [RequestStart.render, space]
  rw [shape, parse_methodStart _ start.method_some start.method_token,
    parse_uri _ start.uri_plain, letters]
  simp only [List.cons_append, List.nil_append, parse, consume, if_true]

/-- A version has been begun. -/
def versionBegun : State → Bool
  | .methodStart => false
  | .method => false
  | .uri => false
  | .httpVersionH => false
  | .httpVersionT1 => false
  | .httpVersionT2 => false
  | .httpVersionP => false
  | .httpVersionSlash => false
  | .httpVersionMajorStart => false
  | _ => true

theorem versionBegun_step (within : versionBegun state ∨ state = .httpVersionMajorStart)
    (step : consume state req input = (.indeterminate, next, held)) : versionBegun next := by
  cases state <;> simp [versionBegun] at within <;> simp only [consume] at step <;>
    grind [versionBegun]

theorem versionBegun_parse (within : versionBegun state ∨ state = .httpVersionMajorStart)
    (some_ : text ≠ []) (parsed : parse state req text = (.indeterminate, next, held, [])) :
    versionBegun next := by
  induction text generalizing state req with
  | nil => exact absurd rfl some_
  | cons input text ih =>
      cases step : consume state req input with | mk result more =>
      obtain ⟨next', held'⟩ := more
      rw [parse, step] at parsed
      cases result with
      | good => cases parsed
      | bad => cases parsed
      | indeterminate =>
          have begun := versionBegun_step within step
          cases text with
          | nil =>
              cases parsed
              exact begun
          | cons input' text => exact ih (.inl begun) (by simp) parsed

/-- The line of the version is over. -/
def isLater : State → Bool
  | .expectingNewline1 => true
  | .headerLineStart => true
  | .headerLws => true
  | .headerName => true
  | .spaceBeforeHeaderValue => true
  | .headerValue => true
  | .expectingNewline2 => true
  | .expectingNewline3 => true
  | _ => false

theorem isLater_step (later : isLater state)
    (step : consume state req input = (.indeterminate, next, held)) :
    isLater next ∧ held.httpVersionMajor = req.httpVersionMajor ∧
      held.httpVersionMinor = req.httpVersionMinor := by
  cases state <;> simp [isLater] at later <;>
    simp only [consume, pushName, pushValue] at step <;> grind [isLater]

/-- What has been read of the text behind the start of a request, in each state. -/
def Reads (state : State) (held : Request) (text : StdString) : Prop :=
  ∃ major minor : StdString,
    (∀ c ∈ major, isDigit c = true) ∧ (∀ c ∈ minor, isDigit c = true) ∧
      held.httpVersionMajor = decimal major ∧ held.httpVersionMinor = decimal minor ∧
      match state with
      | .httpVersionMajorStart => major = [] ∧ minor = [] ∧ text = []
      | .httpVersionMajor => major ≠ [] ∧ minor = [] ∧ text = major
      | .httpVersionMinorStart => major ≠ [] ∧ minor = [] ∧ text = major ++ [byte '.']
      | .httpVersionMinor => major ≠ [] ∧ text = major ++ byte '.' :: minor
      | _ => isLater state ∧ major ≠ [] ∧
          ∃ rest, text = major ++ byte '.' :: (minor ++ byte '\r' :: rest)

theorem reads_start (major : req.httpVersionMajor = 0) (minor : req.httpVersionMinor = 0) :
    Reads .httpVersionMajorStart req [] :=
  ⟨[], [], by simp, by simp, major, minor, rfl, rfl, rfl⟩

theorem all_append (all : ∀ c ∈ digits, isDigit c = true) (digit : isDigit c = true) :
    ∀ d ∈ digits ++ [c], isDigit d = true := by
  simpa [or_imp, forall_and] using ⟨all, digit⟩

/-- One byte more. -/
theorem Reads.step (reads : Reads state req text)
    (step : consume state req input = (.indeterminate, next, held)) :
    Reads next held (text ++ [input]) := by
  obtain ⟨major, minor, majors, minors, majorValue, minorValue, here⟩ := reads
  cases state with
  | httpVersionMajorStart =>
      obtain ⟨digit, rfl, rfl⟩ := of_accepting step
      obtain ⟨rfl, rfl, rfl⟩ := here
      refine ⟨[input], [], all_append majors digit, minors, ?_, minorValue, by simp⟩
      simp [majorValue, decimal]
  | httpVersionMajor =>
      obtain ⟨some_, rfl, rfl⟩ := here
      rcases of_leading step with ⟨dot, rfl, rfl⟩ | ⟨-, step⟩
      · exact ⟨text, [], majors, minors, majorValue, minorValue, some_, rfl, by rw [dot]⟩
      · obtain ⟨digit, rfl, rfl⟩ := of_accepting step
        refine ⟨text ++ [input], [], all_append majors digit, minors, ?_, minorValue, by simp⟩
        simp [majorValue, decimal_append]
  | httpVersionMinorStart =>
      obtain ⟨digit, rfl, rfl⟩ := of_accepting step
      obtain ⟨some_, rfl, rfl⟩ := here
      refine ⟨major, [input], majors, all_append minors digit, majorValue, ?_, some_, by simp⟩
      simp [minorValue, decimal]
  | httpVersionMinor =>
      obtain ⟨some_, rfl⟩ := here
      rcases of_leading step with ⟨stop, rfl, rfl⟩ | ⟨-, step⟩
      · exact ⟨major, minor, majors, minors, majorValue, minorValue, rfl, some_, [], by simp [stop]⟩
      · obtain ⟨digit, rfl, rfl⟩ := of_accepting step
        refine ⟨major, minor ++ [input], majors, all_append minors digit, majorValue, ?_, some_,
          by simp⟩
        simp [minorValue, decimal_append]
  | methodStart | method | uri | httpVersionH | httpVersionT1 | httpVersionT2 | httpVersionP
  | httpVersionSlash => cases here.1
  | _ =>
      obtain ⟨later, some_, rest, rfl⟩ := here
      obtain ⟨still, sameMajor, sameMinor⟩ := isLater_step later step
      have line : major ++ byte '.' :: (minor ++ byte '\r' :: rest) ++ [input] =
          major ++ byte '.' :: (minor ++ byte '\r' :: (rest ++ [input])) := by
        simp
      refine ⟨major, minor, majors, minors, sameMajor.trans majorValue,
        sameMinor.trans minorValue, ?_⟩
      cases next with
      | methodStart | method | uri | httpVersionH | httpVersionT1 | httpVersionT2 | httpVersionP
      | httpVersionSlash | httpVersionMajorStart | httpVersionMajor | httpVersionMinorStart
      | httpVersionMinor => cases still
      | _ => exact ⟨rfl, some_, _, line⟩

theorem Reads.parse (reads : Reads state req text)
    (parsed : parse state req more = (.indeterminate, next, held, [])) :
    Reads next held (text ++ more) := by
  induction more generalizing state req text with
  | nil =>
      cases parsed
      simpa using reads
  | cons input more ih =>
      cases step : consume state req input with | mk result rest =>
      obtain ⟨next', held'⟩ := rest
      rw [RequestParser.parse, step] at parsed
      cases result with
      | good => cases parsed
      | bad => cases parsed
      | indeterminate => simpa using ih (reads.step step) parsed

/-- The first byte of the rest, if there is one, is where the parser stops. -/
def Stops (state : State) (req : Request) (rest : StdString) : Prop :=
  ∀ c ∈ rest.head?, (consume state req c).1 ≠ .indeterminate

/-- A number ends where the parser stops. -/
theorem Stops.ends (stops : Stops state req rest)
    (reading : state = .httpVersionMajorStart ∨ state = .httpVersionMajor ∨
      state = .httpVersionMinorStart ∨ state = .httpVersionMinor) : Ends rest := by
  intro c first
  have stop := stops c first
  by_contra digit
  have digit : isDigit c = true := by simpa using digit
  have dot : c ≠ byte '.' := ne_of_test digit rfl
  have return_ : c ≠ byte '\r' := ne_of_test digit rfl
  rcases reading with rfl | rfl | rfl | rfl <;> simp [consume, digit, dot, return_] at stop

/-- Where the parser stops it holds the numbers of the text. -/
theorem Reads.numbers (reads : Reads state held text) (stops : Stops state held rest) :
    held.httpVersionMajor = number (majorDigits (text ++ rest)) ∧
      held.httpVersionMinor = number (minorDigits (text ++ rest)) := by
  obtain ⟨major, minor, majors, minors, majorValue, minorValue, here⟩ := reads
  rw [majorValue, minorValue, decimal_eq_number majors, decimal_eq_number minors]
  suffices majorDigits (text ++ rest) = major ∧ minorDigits (text ++ rest) = minor by
    rw [this.1, this.2]
    exact ⟨rfl, rfl⟩
  have dotEnds (more : StdString) : Ends (byte '.' :: more) := by
    rintro c ⟨⟩
    rfl
  cases state with
  | httpVersionMajorStart =>
      obtain ⟨rfl, rfl, rfl⟩ := here
      have ends := stops.ends (by simp)
      exact ⟨majorDigits_append majors ends, minorDigits_none majors ends (.inl rfl)⟩
  | httpVersionMajor =>
      obtain ⟨some_, rfl, rfl⟩ := here
      have ends := stops.ends (by simp)
      have other : rest.head? ≠ some (byte '.') := by
        intro first
        exact stops _ first (by simp [consume])
      exact ⟨majorDigits_append majors ends, minorDigits_none majors ends (.inr other)⟩
  | httpVersionMinorStart =>
      obtain ⟨some_, rfl, rfl⟩ := here
      have ends := stops.ends (by simp)
      rw [List.append_assoc, List.singleton_append]
      exact ⟨majorDigits_append majors (dotEnds _),
        (minorDigits_dot some_ majors _).trans (takeWhile_ends ends)⟩
  | httpVersionMinor =>
      obtain ⟨some_, rfl⟩ := here
      have ends := stops.ends (by simp)
      rw [List.append_assoc, List.cons_append]
      refine ⟨majorDigits_append majors (dotEnds _), ?_⟩
      rw [minorDigits_dot some_ majors, takeWhile_digits minors, takeWhile_ends ends,
        List.append_nil]
  | methodStart | method | uri | httpVersionH | httpVersionT1 | httpVersionT2 | httpVersionP
  | httpVersionSlash => cases here.1
  | _ =>
      obtain ⟨-, some_, after, rfl⟩ := here
      rw [List.append_assoc, List.cons_append, List.append_assoc]
      refine ⟨majorDigits_append majors (dotEnds _), ?_⟩
      rw [minorDigits_dot some_ majors, takeWhile_digits minors]
      simp [show isDigit (byte '\r') = false from rfl]

/-- The request is left as it is by a byte that is not asked to be followed by another. -/
theorem consume_stop (step : consume state req input = (result, next, held))
    (stopped : result ≠ .indeterminate) : held = req := by
  cases state <;> simp only [consume] at step <;> grind

/-- The parser holds the numbers of the text, wherever it stops. -/
theorem numbers_of_parse (major : req.httpVersionMajor = 0) (minor : req.httpVersionMinor = 0)
    (parsed : parse .httpVersionMajorStart req text = (result, next, held, rest)) :
    held.httpVersionMajor = number (majorDigits text) ∧
      held.httpVersionMinor = number (minorDigits text) := by
  have start := reads_start major minor
  by_cases going : result = .indeterminate
  · subst going
    obtain rfl := parse_indeterminate parsed
    have reads := start.parse parsed
    have stops : Stops next held [] := by simp [Stops]
    simpa using reads.numbers stops
  · obtain ⟨before, input, state', held', rfl, reached, step⟩ := parse_stop parsed going
    have same := consume_stop step going
    have stops : Stops state' held' (input :: rest) := by
      rintro c ⟨⟩
      rwa [step]
    rw [same]
    simpa using (start.parse reached).numbers stops

/-- A digit is only appended behind the start of a request. -/
theorem start_of_accumulated {v : Int} (fresh : hasHeader req = false)
    (reached : parse .methodStart req before = (.indeterminate, next, held, []))
    (here : accumulated next held c = some v) :
    ∃ (start : RequestStart) (text : StdString),
      before = start.render ++ text ∧ Reads next held text := by
  obtain ⟨more, -, h, word⟩ := begins_of_indeterminate fresh reached
  let start : RequestStart := ⟨h.method, h.uri, h.method_some, h.method_token, h.uri_plain⟩
  have cut : ∃ tail, before ++ more = start.render ++ tail :=
    ⟨h.versionMajor ++ byte '.' :: h.versionMinor ++ crlf ++
      h.lines.flatMap HeaderLine.render ++ crlf, by
        simp [← word, RequestHead.render, RequestStart.render, start]⟩
  obtain ⟨tail, cut⟩ := cut
  have begun : versionBegun next ∨ next = .httpVersionMajorStart := by
    unfold accumulated at here
    split at here
    · cases next <;> simp [versionBegun] at here ⊢
    · cases here
  have opened := parse_start start req []
  rw [List.append_nil] at opened
  have reads (text : StdString) (whole : before = start.render ++ text) :
      Reads next held text := by
    have behind := parse_append .methodStart req start.render text
    rw [← whole, reached, opened] at behind
    simpa using (reads_start rfl rfl).parse behind.symm
  rcases List.append_eq_append_iff.mp cut with ⟨short, whole, -⟩ | ⟨text, whole, -⟩
  · -- the version is not begun before the start is complete
    cases short with
    | nil =>
        rw [List.append_nil] at whole
        exact ⟨start, [], by rw [whole, List.append_nil], reads [] (by rw [whole, List.append_nil])⟩
    | cons d short =>
        have split := parse_append .methodStart req before (d :: short)
        rw [← whole, opened, reached] at split
        have still := versionBegun_parse begun (List.cons_ne_nil d short) split.symm
        cases still
  · exact ⟨start, text, whole, reads text whole⟩

end Version

section Limits

variable {state next : State} {req held : Request} {c : UInt8} {xs digits rest : StdString}
  {outcome : ResultType × State × Request × StdString}

theorem inRange_iff (all : ∀ d ∈ digits, isDigit d = true) (digit : isDigit c = true) :
    InRange (decimal digits) c ↔ number (digits ++ [c]) ≤ greatest := by
  have := isDigit_range digit
  rw [InRange, decimal_eq_number all, number_append, greatest]
  omega

/-- The text of a number that fits goes on with a digit that can be appended. -/
theorem inRange_of_longer (all : ∀ d ∈ digits, isDigit d = true) (digit : isDigit c = true)
    (fits : number ((digits ++ c :: rest).takeWhile isDigit) ≤ greatest) :
    InRange (decimal digits) c := by
  rw [inRange_iff all digit]
  rw [takeWhile_digits all, List.takeWhile_cons_of_pos digit, ← List.singleton_append,
    ← List.append_assoc] at fits
  exact (number_le_append _ _).trans fits

/-- A request whose version numbers are small enough is parsed. -/
theorem defined_of_fits (fresh : hasHeader req = false) (fits : Fits xs) :
    ∃ outcome, parseInt .methodStart req xs = some outcome := by
  by_contra undefined
  have none_ : parseInt .methodStart req xs = none := by
    simpa [Option.eq_none_iff_forall_ne_some] using undefined
  obtain ⟨before, c, after, next, held, v, rfl, reached, here, outside⟩ := parseInt_eq_none none_
  obtain ⟨start, text, rfl, major, minor, majors, minors, majorValue, minorValue, shape⟩ :=
    start_of_accumulated fresh reached here
  obtain ⟨majorFits, minorFits⟩ := fits start (text ++ c :: after) (by simp)
  have digit : isDigit c = true := by
    by_contra other
    simp [accumulated, other] at here
  simp only [accumulated, if_pos digit] at here
  apply outside
  cases next with
  | httpVersionMajorStart =>
      cases here
      obtain ⟨rfl, -, rfl⟩ := shape
      rw [majorValue]
      exact inRange_of_longer majors digit majorFits
  | httpVersionMajor =>
      cases here
      obtain ⟨-, -, rfl⟩ := shape
      rw [majorValue]
      exact inRange_of_longer majors digit majorFits
  | httpVersionMinorStart =>
      cases here
      obtain ⟨some_, rfl, rfl⟩ := shape
      rw [List.append_assoc, List.singleton_append, minorDigits_dot some_ majors] at minorFits
      rw [minorValue]
      exact inRange_of_longer minors digit minorFits
  | httpVersionMinor =>
      cases here
      obtain ⟨some_, rfl⟩ := shape
      rw [List.append_assoc, List.cons_append, minorDigits_dot some_ majors] at minorFits
      rw [minorValue]
      exact inRange_of_longer minors digit minorFits
  | _ => cases here

/-- `get` is the number that the digits are appended to in the states `reading`. -/
def Appends (reading : State → Prop) (get : Request → Int) : Prop :=
  ∀ state req c, reading state → isDigit c = true → accumulated state req c = some (get req) ∧
    ∃ next held, consume state req c = (.indeterminate, next, held) ∧ reading next ∧
      get held = appendDigit (get req) c

theorem appends_major :
    Appends (fun s => s = .httpVersionMajorStart ∨ s = .httpVersionMajor)
      Request.httpVersionMajor := by
  intro state req c reading digit
  have dot : c ≠ byte '.' := ne_of_test digit rfl
  have step : consume state req c = (.indeterminate, .httpVersionMajor,
      { req with httpVersionMajor := appendDigit req.httpVersionMajor c }) := by
    rcases reading with rfl | rfl <;> simp [consume, dot, digit]
  refine ⟨?_, _, _, step, .inr rfl, rfl⟩
  rcases reading with rfl | rfl <;> simp [accumulated, digit]

theorem appends_minor :
    Appends (fun s => s = .httpVersionMinorStart ∨ s = .httpVersionMinor)
      Request.httpVersionMinor := by
  intro state req c reading digit
  have return_ : c ≠ byte '\r' := ne_of_test digit rfl
  have step : consume state req c = (.indeterminate, .httpVersionMinor,
      { req with httpVersionMinor := appendDigit req.httpVersionMinor c }) := by
    rcases reading with rfl | rfl <;> simp [consume, return_, digit]
  refine ⟨?_, _, _, step, .inr rfl, rfl⟩
  rcases reading with rfl | rfl <;> simp [accumulated, digit]

/-- Digits that are parsed denote a number that is small enough, `read` being those before. -/
theorem Appends.number_le {reading : State → Prop} {get : Request → Int}
    (appends : Appends reading get) (read : StdString) (within : reading state)
    (reads : ∀ d ∈ read, isDigit d = true) (value : get req = decimal read)
    (fits : number read ≤ greatest) (all : ∀ d ∈ digits, isDigit d = true)
    (parsed : parseInt state req (digits ++ rest) = some outcome) :
    number (read ++ digits) ≤ greatest := by
  induction digits generalizing state req read with
  | nil => simpa using fits
  | cons c digits ih =>
      rw [List.forall_mem_cons] at all
      obtain ⟨appended, next, held, step, still, more⟩ := appends state req c within all.1
      have inRange := inRange_of_parseInt parsed _ appended
      rw [value, inRange_iff reads all.1] at inRange
      rw [List.cons_append, parseInt_cons (inRange_of_parseInt parsed), step] at parsed
      have later := @ih next held (read ++ [c]) still (all_append reads all.1)
        (by rw [more, value, decimal_append]) inRange all.2 parsed
      simpa using later

theorem parse_major_dot (req : Request) (some_ : digits ≠ [])
    (all : ∀ d ∈ digits, isDigit d = true) :
    ∃ held, parse .httpVersionMajorStart req (digits ++ [byte '.']) =
      (.indeterminate, .httpVersionMinorStart, held, []) ∧
        held.httpVersionMinor = req.httpVersionMinor := by
  cases digits with
  | nil => exact absurd rfl some_
  | cons c digits =>
      rw [List.forall_mem_cons] at all
      have step : consume .httpVersionMajorStart req c = (.indeterminate, .httpVersionMajor,
          { req with httpVersionMajor := appendDigit req.httpVersionMajor c }) := by
        simp [consume, all.1]
      have run := @parse_major [] digits
        { req with httpVersionMajor := appendDigit req.httpVersionMajor c } all.2
      exact ⟨_, (parse_step step _).trans run, rfl⟩

/-- The version numbers of a request that is parsed are small enough. -/
theorem fits_of_defined (parsed : parseInt .methodStart req xs = some outcome) : Fits xs := by
  rintro start text rfl
  have opened := parse_start start req []
  rw [List.append_nil] at opened
  have behind := parseInt_behind parsed opened
  have zero : number [] ≤ greatest := Nat.zero_le _
  have cut : text = majorDigits text ++ text.dropWhile isDigit :=
    (List.takeWhile_append_dropWhile).symm
  have majors : ∀ d ∈ majorDigits text, isDigit d = true := fun d inside =>
    List.mem_takeWhile_imp inside
  constructor
  · rw [cut] at behind
    exact appends_major.number_le [] (.inl rfl) (by simp) rfl zero majors behind
  · rw [minorDigits]
    split
    · exact zero
    rename_i some_
    cases tail : text.dropWhile isDigit with
    | nil => exact zero
    | cons c rest =>
        by_cases dot : c = byte '.'
        · subst dot
          have minors : ∀ d ∈ rest.takeWhile isDigit, isDigit d = true := fun d inside =>
            List.mem_takeWhile_imp inside
          obtain ⟨held, reached, minor⟩ := parse_major_dot _ some_ majors
          rw [cut, tail, ← List.singleton_append, ← List.append_assoc] at behind
          have later := parseInt_behind behind reached
          rw [← List.takeWhile_append_dropWhile (p := isDigit) (l := rest)] at later
          exact appends_minor.number_le [] (.inl rfl) (by simp) minor zero minors later
        · simp [dot, zero]

end Limits

/-- The numbers are those of the text if and only if they stay below the last few values of an
`int`; what the two hold at first does not matter. -/
theorem counts_iff_fits (major minor : Int) (xs : StdString) :
    Counts { httpVersionMajor := major, httpVersionMinor := minor } xs ↔ Fits xs := by
  constructor
  · intro counts
    obtain ⟨result, state, held, rest, parsed, -⟩ := counts [xs] (by simp)
    rw [parseCallsInt_eq, List.flatten_singleton] at parsed
    exact fits_of_defined parsed
  · rintro fits pieces ⟨more, rfl⟩
    let req : Request := { httpVersionMajor := major, httpVersionMinor := minor }
    obtain ⟨outcome, whole⟩ := @defined_of_fits req _ rfl fits
    rw [parseInt_append] at whole
    rw [parseCallsInt_eq]
    generalize pieces.flatten = read at whole ⊢
    cases parsed : parseInt .methodStart req read with
    | none =>
        rw [parsed] at whole
        cases whole
    | some outcome =>
        obtain ⟨result, state, held, rest⟩ := outcome
        refine ⟨result, state, held, rest, rfl, ?_⟩
        rintro start text rfl
        have reached := parse_of_parseInt parsed
        rw [parse_start] at reached
        obtain ⟨majorValue, minorValue⟩ := numbers_of_parse rfl rfl reached
        refine ⟨majorValue, minorValue, ?_⟩
        obtain ⟨majorFits, minorFits⟩ := fits_of_defined parsed start text rfl
        unfold greatest at majorFits minorFits
        omega

/-- A number that an `int` holds is read by way of one that it does not hold. -/
theorem greatest_version_undefined : ¬ Counts {} (ascii "a / HTTP/2147483600") := by
  intro counts
  obtain ⟨result, state, held, rest, parsed, -⟩ :=
    counts [ascii "a / HTTP/2147483600"] (by simp)
  have undefined :
      parseCallsInt .methodStart {} [ascii "a / HTTP/2147483600"] = none := by decide
  rw [undefined] at parsed
  cases parsed

end VanillaRtb.Http
