import VanillaRtb.Http.Reply
import VanillaRtb.Lib.Paths

/-! # Files of the document root

The handler of the original server decodes the URI to a path, refuses one with two dots in a
row, and sends the file behind the document root. Escapes are read by a stream, which takes
more than two hexadecimal digits, and the file is opened by a C string, which ends at the first
zero.
-/

namespace VanillaRtb.Http

open RequestParser
open Lib

namespace RequestHandler

/-- `std::isspace` in the classic locale. -/
def isSpace (c : UInt8) : Bool := c = byte ' ' || byte '\t' ≤ c && c ≤ byte '\r'

def hexDigit (c : UInt8) : Option Nat :=
  if byte '0' ≤ c ∧ c ≤ byte '9' then some (c.toNat - 48)
  else if byte 'A' ≤ c ∧ c ≤ byte 'F' then some (c.toNat - 55)
  else if byte 'a' ≤ c ∧ c ≤ byte 'f' then some (c.toNat - 87)
  else none

/-- The digits up to the first other character; without one the extraction fails. -/
def hexDigits (s : StdString) : Option Nat :=
  let digits := (s.takeWhile fun c => (hexDigit c).isSome).filterMap hexDigit
  if digits = [] then none else some (digits.foldl (fun n d => 16 * n + d) 0)

/-- A number behind its sign, with or without `0x`. -/
def hexNumber : StdString → Option Nat
  | c :: x :: s =>
      if c = byte '0' ∧ (x = byte 'x' ∨ x = byte 'X') then hexDigits s else hexDigits (c :: x :: s)
  | s => hexDigits s

/-- The number at the start of a stream, behind blanks. -/
def scanHex (s : StdString) : Option Int :=
  match s.dropWhile isSpace with
  | [] => none
  | c :: s =>
      if c = byte '-' then (hexNumber s).map fun n : Nat => -(n : Int)
      else if c = byte '+' then (hexNumber s).map fun n : Nat => (n : Int)
      else (hexNumber (c :: s)).map fun n : Nat => (n : Int)

/-- `is >> std::hex >> value` for an `int`. -/
def extractHex (s : StdString) : Option Int :=
  (scanHex s).filter fun n => -2 ^ 31 ≤ n ∧ n < 2 ^ 31

/-- `static_cast<char>` -/
def toChar (value : Int) : UInt8 := (value % 256).toNat.toUInt8

/-- `url_decode`, with what is in `out` so far. -/
def urlDecode (out : StdString) : StdString → Option StdString
  | [] => some out
  | c :: s =>
      if c = byte '%' then
        match s with
        | a :: b :: s =>
            match extractHex [a, b] with
            | some value => urlDecode (out ++ [toChar value]) s
            | none => none
        | _ => none
      else if c = byte '+' then urlDecode (out ++ [byte ' ']) s
      else urlDecode (out ++ [c]) s

/-- `find_last_of` one character. -/
def findLastOf (c : UInt8) (s : StdString) : Option Nat :=
  (s.reverse.idxOf? c).map fun i => s.length - 1 - i

/-- Where there is no slash, `last_slash_pos` is greater than any position. -/
def extensionOf (requestPath : StdString) : StdString :=
  match findLastOf (byte '.') requestPath, findLastOf (byte '/') requestPath with
  | some lastDotPos, some lastSlashPos =>
      if lastSlashPos < lastDotPos then requestPath.drop (lastDotPos + 1) else []
  | _, _ => []

/-- `c_str`, as far as it is read. -/
def cStr (s : StdString) : StdString := s.takeWhile fun c => c ≠ 0

/-- The reads of the loop, 512 bytes at a time, behind what the content is. -/
def readLoop (content file : StdString) : StdString :=
  if file = [] then content else readLoop (content ++ file.take 512) (file.drop 512)
termination_by file.length
decreasing_by
  have some_ : 0 < file.length := List.length_pos_iff.mpr (by assumption)
  rw [List.length_drop]
  omega

/-- What can be read of the file at a path that can be opened. -/
abbrev Files := StdString → Option StdString

def isRefused (requestPath : StdString) : Bool :=
  requestPath = [] || requestPath.head? ≠ some (byte '/') || decide (ascii ".." <:+: requestPath)

def withIndex (requestPath : StdString) : StdString :=
  if requestPath.getLast? = some (byte '/') then requestPath ++ ascii "index.html" else requestPath

def handleRequest (docRoot : StdString) (files : Files) (req : Request) (rep : Reply) : Reply :=
  match urlDecode [] req.uri with
  | none => Reply.stockReply .badRequest (ascii "text/html")
  | some requestPath =>
      if isRefused requestPath then Reply.stockReply .badRequest (ascii "text/html")
      else
        let requestPath := withIndex requestPath
        let extension := extensionOf requestPath
        match files (cStr (docRoot ++ requestPath)) with
        | none => Reply.stockReply .notFound (ascii "text/html")
        | some file =>
            let content := readLoop rep.content file
            { status := StatusType.ok.code
              headers := [Reply.lengthHeader content.length,
                Reply.typeHeader (extensionToType extension)]
              content := content }

/-- The two characters behind a percent sign that are taken for a byte. One digit is enough, in
    front of anything that does not go on with the number, or behind a blank or a sign. -/
inductive Escape : UInt8 → UInt8 → UInt8 → Prop where
  | digits (high : hexDigit a = some m) (low : hexDigit b = some n) :
      Escape a b (16 * m + n).toUInt8
  | first (digit : hexDigit a = some m) (other : hexDigit b = none)
      (plain : ¬ (a = byte '0' ∧ (b = byte 'x' ∨ b = byte 'X'))) : Escape a b m.toUInt8
  | second (blank : isSpace a = true ∨ a = byte '+') (digit : hexDigit b = some n) :
      Escape a b n.toUInt8
  | negative (digit : hexDigit b = some n) : Escape (byte '-') b (256 - n).toUInt8

/-- How a byte of a path is spelled. -/
inductive Spelling : StdString → UInt8 → Prop where
  | plain (unescaped : c ≠ byte '%') (other : c ≠ byte '+') : Spelling [c] c
  | plus : Spelling [byte '+'] (byte ' ')
  | escape (taken : Escape a b c) : Spelling [byte '%', a, b] c

inductive Spelled : StdString → StdString → Prop where
  | nil : Spelled [] []
  | cons (here : Spelling word c) (later : Spelled text path) :
      Spelled (word ++ text) (c :: path)

section Escapes

variable {a b c : UInt8} {m n : Nat} {s text path out : StdString}

theorem hexDigit_bounds (digit : hexDigit c = some n) : n < 16 ∧ 48 ≤ c.toNat := by
  have range {low high : Char} (within : byte low ≤ c ∧ c ≤ byte high) :
      (byte low).toNat ≤ c.toNat ∧ c.toNat ≤ (byte high).toNat :=
    ⟨UInt8.le_iff_toNat_le.mp within.1, UInt8.le_iff_toNat_le.mp within.2⟩
  unfold hexDigit at digit
  split_ifs at digit with decimal upper lower
  · have : 48 ≤ c.toNat ∧ c.toNat ≤ 57 := range decimal
    obtain rfl := Option.some.inj digit
    omega
  · have : 65 ≤ c.toNat ∧ c.toNat ≤ 70 := range upper
    obtain rfl := Option.some.inj digit
    omega
  · have : 97 ≤ c.toNat ∧ c.toNat ≤ 102 := range lower
    obtain rfl := Option.some.inj digit
    omega

/-- A digit is neither a blank nor a sign. -/
theorem hexDigit_apart (digit : hexDigit c = some n) :
    isSpace c = false ∧ c ≠ byte '-' ∧ c ≠ byte '+' := by
  have bounds := hexDigit_bounds digit
  refine ⟨?_, ?_, ?_⟩
  · simp [isSpace, byte, UInt8.le_iff_toNat_le, ← UInt8.toNat_inj]
    omega
  · rintro rfl
    exact absurd bounds.2 (by decide)
  · rintro rfl
    exact absurd bounds.2 (by decide)

theorem hexDigits_one (b : UInt8) : hexDigits [b] = hexDigit b := by
  cases digit : hexDigit b <;> simp [hexDigits, digit]

theorem hexDigits_two (a b : UInt8) :
    hexDigits [a, b] = (hexDigit a).map fun m => ((hexDigit b).map (16 * m + ·)).getD m := by
  cases first : hexDigit a with
  | none => simp [hexDigits, first]
  | some m => cases second : hexDigit b <;> simp [hexDigits, first, second]

theorem toChar_natCast (small : n < 256) : toChar n = n.toUInt8 := by
  have same : ((n : Int) % 256).toNat = n := by omega
  rw [toChar, same]

theorem toChar_neg (small : n < 16) : toChar (-(n : Int)) = (256 - n).toUInt8 := by
  by_cases zero : n = 0
  · subst zero
    rfl
  · have same : (-(n : Int) % 256).toNat = 256 - n := by omega
    rw [toChar, same]

/-- A blank in front of a character is nothing. -/
theorem scanHex_blank (blank : isSpace a = true) :
    scanHex [a, b] = (hexDigit b).map fun n : Nat => (n : Int) := by
  cases digit : hexDigit b with
  | none =>
      have nothing : hexNumber [b] = none := by
        simp [hexNumber, hexDigits_one, digit]
      have empty : hexNumber [] = none := rfl
      cases more : isSpace b with
      | true => simp [scanHex, blank, more]
      | false => simp [scanHex, blank, more, nothing, empty]
  | some n =>
      obtain ⟨solid, minus, plus⟩ := hexDigit_apart digit
      simp [scanHex, blank, solid, minus, plus, hexNumber, hexDigits_one, digit]

theorem scanHex_pair (a b : UInt8) : scanHex [a, b] =
    if isSpace a = true ∨ a = byte '+' then (hexDigit b).map fun n : Nat => (n : Int)
    else if a = byte '-' then (hexDigit b).map fun n : Nat => -(n : Int)
    else if a = byte '0' ∧ (b = byte 'x' ∨ b = byte 'X') then none
    else (hexDigits [a, b]).map fun n : Nat => (n : Int) := by
  cases blank : isSpace a with
  | true => simp [scanHex_blank blank]
  | false =>
      have one : hexNumber [b] = hexDigit b := hexDigits_one b
      have apart : byte '+' ≠ byte '-' := by decide
      by_cases plus : a = byte '+'
      · subst plus
        simp [scanHex, blank, one, apart]
      · by_cases minus : a = byte '-'
        · subst minus
          simp [scanHex, blank, one, apart.symm]
        · have empty : hexDigits [] = none := rfl
          simp [scanHex, blank, plus, minus, hexNumber]
          split
          · simp [empty]
          · rfl

theorem scanHex_range {v : Int} (found : scanHex [a, b] = some v) : -16 < v ∧ v < 256 := by
  rw [scanHex_pair] at found
  split_ifs at found with one minus
  · obtain ⟨n, digit, rfl⟩ := Option.map_eq_some_iff.mp found
    have := (hexDigit_bounds digit).1
    omega
  · obtain ⟨n, digit, rfl⟩ := Option.map_eq_some_iff.mp found
    have := (hexDigit_bounds digit).1
    omega
  · obtain ⟨n, digits, rfl⟩ := Option.map_eq_some_iff.mp found
    rw [hexDigits_two] at digits
    obtain ⟨m, high, rfl⟩ := Option.map_eq_some_iff.mp digits
    have := (hexDigit_bounds high).1
    cases low : hexDigit b with
    | none =>
        simp only [Option.map_none, Option.getD_none]
        omega
    | some n =>
        have := (hexDigit_bounds low).1
        simp only [Option.map_some, Option.getD_some]
        omega

/-- Two characters are in the range of an `int`. -/
theorem extractHex_eq (a b : UInt8) : extractHex [a, b] = scanHex [a, b] := by
  rw [extractHex]
  cases found : scanHex [a, b] with
  | none => rfl
  | some v =>
      have := scanHex_range found
      rw [Option.filter_some_pos]
      exact decide_eq_true ⟨by omega, by omega⟩

theorem Escape.scanned (taken : Escape a b c) : (scanHex [a, b]).map toChar = some c := by
  rw [scanHex_pair]
  cases taken with
  | @digits a m b n high low =>
      obtain ⟨solid, minus, plus⟩ := hexDigit_apart high
      have marks : ¬ (b = byte 'x' ∨ b = byte 'X') := by
        rintro (rfl | rfl) <;> cases low
      have small : 16 * m + n < 256 := by
        have := (hexDigit_bounds high).1
        have := (hexDigit_bounds low).1
        omega
      have char := toChar_natCast small
      simpa [solid, minus, plus, marks, hexDigits_two, high, low] using char
  | @first a m b digit other plain =>
      obtain ⟨solid, minus, plus⟩ := hexDigit_apart digit
      have small : m < 256 := by
        have := (hexDigit_bounds digit).1
        omega
      have char := toChar_natCast small
      simpa [solid, minus, plus, plain, hexDigits_two, digit, other] using char
  | @second a b n blank digit =>
      have := (hexDigit_bounds digit).1
      simp [blank, digit, toChar_natCast (show n < 256 by omega)]
  | @negative b n digit =>
      have := (hexDigit_bounds digit).1
      have blank : ¬ (isSpace (byte '-') = true ∨ byte '-' = byte '+') := by decide
      simp [blank, digit, toChar_neg this]

theorem extractHex_iff (a b c : UInt8) :
    (extractHex [a, b]).map toChar = some c ↔ Escape a b c := by
  rw [extractHex_eq]
  refine ⟨?_, Escape.scanned⟩
  intro char
  obtain ⟨v, found, rfl⟩ := Option.map_eq_some_iff.mp char
  rw [scanHex_pair] at found
  split_ifs at found with one minus zero
  · obtain ⟨n, digit, rfl⟩ := Option.map_eq_some_iff.mp found
    have := (hexDigit_bounds digit).1
    rw [toChar_natCast (by omega)]
    exact .second one digit
  · obtain ⟨n, digit, rfl⟩ := Option.map_eq_some_iff.mp found
    rw [toChar_neg (hexDigit_bounds digit).1, minus]
    exact .negative digit
  · obtain ⟨n, digits, rfl⟩ := Option.map_eq_some_iff.mp found
    rw [hexDigits_two] at digits
    obtain ⟨m, high, rfl⟩ := Option.map_eq_some_iff.mp digits
    have := (hexDigit_bounds high).1
    cases low : hexDigit b with
    | none =>
        rw [toChar_natCast (by simp; omega)]
        exact .first high low zero
    | some n =>
        have := (hexDigit_bounds low).1
        rw [toChar_natCast (by simp; omega)]
        exact .digits high low

/-- A spelled byte is decoded, whatever is behind it. -/
theorem Spelling.decoded {word : StdString} (here : Spelling word c) (out s : StdString) :
    urlDecode out (word ++ s) = urlDecode (out ++ [c]) s := by
  cases here with
  | plain unescaped other =>
      rw [urlDecode.eq_def]
      simp [unescaped, other]
  | plus =>
      have apart : byte '+' ≠ byte '%' := by decide
      rw [urlDecode.eq_def]
      simp [apart]
  | escape taken =>
      obtain ⟨value, found, same⟩ := Option.map_eq_some_iff.mp ((extractHex_iff _ _ _).mpr taken)
      rw [urlDecode.eq_def]
      simp [found, same]

theorem Spelled.decoded (spelled : Spelled text path) (out : StdString) :
    urlDecode out text = some (out ++ path) := by
  induction spelled generalizing out with
  | nil => simp [urlDecode]
  | cons here later ih => rw [here.decoded, ih, List.append_assoc, List.singleton_append]

theorem spelled_of_urlDecode (decoded : urlDecode out s = some t) :
    ∃ path, t = out ++ path ∧ Spelled s path := by
  fun_induction urlDecode out s with
  | case1 out =>
      obtain rfl := Option.some.inj decoded
      exact ⟨[], (List.append_nil _).symm, .nil⟩
  | case2 out a b s value found ih =>
      have taken := (extractHex_iff a b (toChar value)).mp (by rw [found, Option.map_some])
      obtain ⟨path, rfl, later⟩ := ih decoded
      exact ⟨toChar value :: path, List.append_assoc _ _ _, .cons (.escape taken) later⟩
  | case3 out a b s failed => cases decoded
  | case4 out s short => cases decoded
  | case5 out s apart ih =>
      obtain ⟨path, rfl, later⟩ := ih decoded
      exact ⟨byte ' ' :: path, List.append_assoc _ _ _, .cons .plus later⟩
  | case6 out c s unescaped other ih =>
      obtain ⟨path, rfl, later⟩ := ih decoded
      exact ⟨c :: path, List.append_assoc _ _ _, .cons (.plain unescaped other) later⟩

/-- What is decoded is what the text spells. -/
theorem urlDecode_iff (text path : StdString) :
    urlDecode [] text = some path ↔ Spelled text path := by
  constructor
  · intro decoded
    obtain ⟨same, rfl, spelled⟩ := spelled_of_urlDecode decoded
    exact spelled
  · exact fun spelled => spelled.decoded []

end Escapes

section Names

variable {s content file path : StdString}

theorem readLoop_eq (content file : StdString) : readLoop content file = content ++ file := by
  fun_induction readLoop content file with
  | case1 content => exact (List.append_nil _).symm
  | case2 content file some_ ih => rw [ih, List.append_assoc, List.take_append_drop]

theorem cStr_isPrefix (s : StdString) : cStr s <+: s := List.takeWhile_prefix _

/-- A document root without a zero is all of it in front of the path. -/
theorem cStr_append {root : StdString} (clear : 0 ∉ root) (path : StdString) :
    cStr (root ++ path) = root ++ cStr path := by
  rw [cStr, cStr, List.takeWhile_append_of_pos]
  intro c inside
  have : c ≠ 0 := fun zero => clear (zero ▸ inside)
  simpa using this

theorem withIndex_prefix (path : StdString) : path <+: withIndex path := by
  rw [withIndex]
  split
  · exact List.prefix_append _ _
  · exact List.prefix_rfl

/-- The name of the index does not bring two dots together. -/
theorem plain_withIndex (plain : ¬ ascii ".." <:+: path) : ¬ ascii ".." <:+: withIndex path := by
  rw [withIndex]
  split
  next last =>
    obtain ⟨before, rfl⟩ := List.getLast?_eq_some_iff.mp last
    have apart : byte '/' ≠ byte '.' := by decide
    intro inside
    have beside : ascii ".." <:+: before ∨ ascii ".." <:+: ascii "index.html" := by
      apply Path.dots_beside apart
      rw [List.append_assoc] at inside
      exact inside
    cases beside with
    | inl left => exact plain (left.trans (List.prefix_append _ _).isInfix)
    | inr right => exact absurd right (by decide)
  next => exact plain

theorem idxOf?_append {c : UInt8} {before after : StdString} (first : c ∉ before) :
    (before ++ c :: after).idxOf? c = some before.length := by
  induction before with
  | nil => simp [List.idxOf?_cons]
  | cons b before ih =>
      rw [List.mem_cons, not_or] at first
      simp [List.idxOf?_cons, Ne.symm first.1, ih first.2]

theorem findLastOf_append {c : UInt8} {before after : StdString} (last : c ∉ after) :
    findLastOf c (before ++ c :: after) = some before.length := by
  have index : (before ++ c :: after).reverse.idxOf? c = some after.reverse.length := by
    rw [List.reverse_append, List.reverse_cons, List.append_assoc]
    exact idxOf?_append (by simpa using last)
  rw [findLastOf, index, Option.map_some]
  simp

/-- The extension is behind the last dot, if no slash follows it. -/
theorem extensionOf_append {directory name ext : StdString} (noSlash : byte '/' ∉ name ++ ext)
    (noDot : byte '.' ∉ ext) :
    extensionOf (directory ++ byte '/' :: (name ++ byte '.' :: ext)) = ext := by
  have whole : directory ++ byte '/' :: (name ++ byte '.' :: ext) =
      (directory ++ byte '/' :: name) ++ byte '.' :: ext := by
    simp
  have apart : byte '/' ≠ byte '.' := by decide
  have dot : findLastOf (byte '.') (directory ++ byte '/' :: (name ++ byte '.' :: ext)) =
      some (directory ++ byte '/' :: name).length := by
    rw [whole]
    exact findLastOf_append noDot
  have slash : findLastOf (byte '/') (directory ++ byte '/' :: (name ++ byte '.' :: ext)) =
      some directory.length := by
    apply findLastOf_append
    simpa [apart] using noSlash
  have behind : directory.length < (directory ++ byte '/' :: name).length := by
    simp
  rw [extensionOf, dot, slash]
  simp only [behind, if_true]
  rw [whole, ← List.drop_drop, List.drop_left]
  rfl

/-- What is opened of a path that is not refused. -/
theorem opened_of_taken (taken : isRefused path = false) :
    ∃ name, cStr (withIndex path) = byte '/' :: name ∧ ¬ ascii ".." <:+: name := by
  simp only [isRefused, Bool.or_eq_false_iff, decide_eq_false_iff_not, not_not] at taken
  obtain ⟨⟨-, first⟩, plain⟩ := taken
  obtain ⟨rest, whole⟩ : ∃ rest, withIndex path = byte '/' :: rest := by
    obtain ⟨after, whole⟩ := withIndex_prefix path
    cases path with
    | nil => cases first
    | cons c path =>
        obtain rfl := Option.some.inj first
        exact ⟨path ++ after, whole.symm⟩
  have clear := plain_withIndex plain
  rw [whole] at clear ⊢
  refine ⟨cStr rest, rfl, ?_⟩
  intro inside
  have behind := inside.trans (cStr_isPrefix rest).isInfix
  exact clear (behind.trans (List.suffix_cons _ _).isInfix)

end Names

section Requests

variable {docRoot : StdString} {files files' : Files} {req : Request} {rep : Reply}

theorem handleRequest_undecoded (files : Files) (rep : Reply)
    (undecoded : urlDecode [] req.uri = none) :
    handleRequest docRoot files req rep = Reply.stockReply .badRequest (ascii "text/html") := by
  rw [handleRequest, undecoded]

theorem handleRequest_refused (files : Files) (rep : Reply)
    (decoded : urlDecode [] req.uri = some path) (refused : isRefused path = true) :
    handleRequest docRoot files req rep = Reply.stockReply .badRequest (ascii "text/html") := by
  simp only [handleRequest, decoded, refused, if_true]

theorem handleRequest_missing (rep : Reply) (decoded : urlDecode [] req.uri = some path)
    (taken : isRefused path = false) (missing : files (cStr (docRoot ++ withIndex path)) = none) :
    handleRequest docRoot files req rep = Reply.stockReply .notFound (ascii "text/html") := by
  simp [handleRequest, decoded, taken, missing]

theorem handleRequest_found (rep : Reply) (decoded : urlDecode [] req.uri = some path)
    (taken : isRefused path = false)
    (found : files (cStr (docRoot ++ withIndex path)) = some file) :
    handleRequest docRoot files req rep =
      { rep with content := rep.content ++ file }.flushImpl .ok (extensionOf (withIndex path)) := by
  simp [handleRequest, decoded, taken, found, readLoop_eq, Reply.flushImpl]

def oneFile : Files := fun path => if path = ascii "www/a.txt" then some (ascii "text") else none

/-- Where a path leads from the working directory. -/
def resolve (cwd : List StdString) (path : StdString) : List StdString :=
  Path.resolve (byte '/') (byte '.') cwd path

/-- Only what is below the document root has a part in a reply: where two file systems agree on
    that, whatever the request, the replies are the same. -/
theorem handleRequest_confined (cwd : List StdString) (clear : 0 ∉ docRoot)
    (agree : ∀ path, resolve cwd (docRoot ++ [byte '/']) <+: resolve cwd path →
      files path = files' path) (req : Request) (rep : Reply) :
    handleRequest docRoot files req rep = handleRequest docRoot files' req rep := by
  cases decoded : urlDecode [] req.uri with
  | none => rw [handleRequest_undecoded _ _ decoded, handleRequest_undecoded _ _ decoded]
  | some path =>
      cases taken : isRefused path with
      | true =>
          rw [handleRequest_refused _ _ decoded taken, handleRequest_refused _ _ decoded taken]
      | false =>
          obtain ⟨name, whole, plain⟩ := opened_of_taken taken
          have same : files (cStr (docRoot ++ withIndex path)) =
              files' (cStr (docRoot ++ withIndex path)) := by
            rw [cStr_append clear, whole]
            exact agree _ (Path.resolve_within cwd docRoot plain)
          cases found : files' (cStr (docRoot ++ withIndex path)) with
          | none =>
              rw [handleRequest_missing rep decoded taken found,
                handleRequest_missing rep decoded taken (same.trans found)]
          | some file =>
              rw [handleRequest_found rep decoded taken found,
                handleRequest_found rep decoded taken (same.trans found)]

/-- Another file outside of the document root. -/
def otherFile : Files := fun path =>
  if path = ascii "etc/passwd" then some (ascii "root") else oneFile path

theorem handleRequest_confined_outside :
    handleRequest (ascii "www") oneFile { uri := ascii "/../etc/passwd" } ⟨200, [], []⟩ =
      handleRequest (ascii "www") otherFile { uri := ascii "/../etc/passwd" } ⟨200, [], []⟩ := by
  refine handleRequest_confined [] (by decide) ?_ _ _
  intro path within
  rw [otherFile, if_neg]
  rintro rfl
  exact absurd within (by decide)

/-- What a request is answered by: a reply that a client reads as it is, with the bytes of the
    file behind what the reply had, or with a page that says that the request or the path is
    bad, or that there is no such file. -/
structure Answered (docRoot : StdString) (files : Files) (req : Request) (rep answer : Reply) :
    Prop where
  framed : Reply.WellFramed answer.doWrite
  found : answer.status = 200 ↔ ∃ path file, Spelled req.uri path ∧ isRefused path = false ∧
    files (cStr (docRoot ++ withIndex path)) = some file ∧ answer.content = rep.content ++ file
  missing : answer.status = 404 ↔ ∃ path, Spelled req.uri path ∧ isRefused path = false ∧
    files (cStr (docRoot ++ withIndex path)) = none
  refused : answer.status = 400 ↔ ∀ path, Spelled req.uri path → isRefused path = true

theorem stock_framed (status : StatusType) (some_ : status ≠ .noContent) :
    Reply.WellFramed (Reply.stockReply status (ascii "text/html")).doWrite := by
  rw [Reply.wellFramed_doWrite_iff, Reply.good_stock_iff]
  exact ⟨some_, by decide⟩

theorem handleRequest_answered (docRoot : StdString) (files : Files) (req : Request)
    (rep : Reply) : Answered docRoot files req rep (handleRequest docRoot files req rep) := by
  cases decoded : urlDecode [] req.uri with
  | none =>
      have unspelled (path : StdString) : ¬ Spelled req.uri path := by
        intro spelled
        exact absurd (decoded.symm.trans ((urlDecode_iff _ _).mpr spelled)) (by simp)
      rw [handleRequest_undecoded files rep decoded]
      refine ⟨stock_framed _ (by decide), ?_, ?_, ?_⟩
      · simp [unspelled, Reply.stockReply, StatusType.code]
      · simp [unspelled, Reply.stockReply, StatusType.code]
      · simp [unspelled, Reply.stockReply, StatusType.code]
  | some path =>
      have spelled := (urlDecode_iff _ _).mp decoded
      have only (other : StdString) : Spelled req.uri other ↔ other = path := by
        rw [← urlDecode_iff, decoded, Option.some.injEq]
        exact eq_comm
      cases taken : isRefused path with
      | true =>
          rw [handleRequest_refused files rep decoded taken]
          refine ⟨stock_framed _ (by decide), ?_, ?_, ?_⟩
          · simp [only, taken, Reply.stockReply, StatusType.code]
          · simp [only, taken, Reply.stockReply, StatusType.code]
          · simp [only, taken, Reply.stockReply, StatusType.code]
      | false =>
          cases found : files (cStr (docRoot ++ withIndex path)) with
          | none =>
              rw [handleRequest_missing rep decoded taken found]
              refine ⟨stock_framed _ (by decide), ?_, ?_, ?_⟩
              · simp [only, taken, found, Reply.stockReply, StatusType.code]
              · simp [only, taken, found, Reply.stockReply, StatusType.code]
              · simp [only, taken, Reply.stockReply, StatusType.code]
          | some file =>
              rw [handleRequest_found rep decoded taken found]
              refine ⟨(Reply.wellFramed_doWrite_iff _).mpr (Reply.good_flush _ _ _), ?_, ?_, ?_⟩
              · simp [only, taken, found, Reply.flushImpl, StatusType.code]
              · simp [only, taken, found, Reply.flushImpl, StatusType.code]
              · simp [only, taken, Reply.flushImpl, StatusType.code]

end Requests

end RequestHandler

end VanillaRtb.Http
