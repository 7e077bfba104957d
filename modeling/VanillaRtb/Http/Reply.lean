import VanillaRtb.Http.Connection
import VanillaRtb.Lib.FieldLines

/-! # Replies of a persistent connection

Handlers stream into the reply of their connection, flush it, replace it by a stock reply or
add headers of their own, one matching handler after the other, and the connection adds a
header of its own before it writes. A client that keeps the connection finds the end of a reply
by its Content-Length, which only a flush and most stock replies put there, and which they
put there for what has been streamed by then.
-/

namespace VanillaRtb.Http

open RequestParser
open Lib

inductive StatusType where
  | ok
  | created
  | accepted
  | noContent
  | multipleChoices
  | movedPermanently
  | movedTemporarily
  | notModified
  | badRequest
  | unauthorized
  | forbidden
  | notFound
  | internalServerError
  | notImplemented
  | badGateway
  | serviceUnavailable
  deriving DecidableEq

namespace StatusType

def code : StatusType → Nat
  | ok => 200
  | created => 201
  | accepted => 202
  | noContent => 204
  | multipleChoices => 300
  | movedPermanently => 301
  | movedTemporarily => 302
  | notModified => 304
  | badRequest => 400
  | unauthorized => 401
  | forbidden => 403
  | notFound => 404
  | internalServerError => 500
  | notImplemented => 501
  | badGateway => 502
  | serviceUnavailable => 503

/-- `status_strings`, without the line end. -/
def line : StatusType → StdString
  | ok => ascii "HTTP/1.0 200 OK"
  | created => ascii "HTTP/1.0 201 Created"
  | accepted => ascii "HTTP/1.0 202 Accepted"
  | noContent => ascii "HTTP/1.0 204 No Content"
  | multipleChoices => ascii "HTTP/1.0 300 Multiple Choices"
  | movedPermanently => ascii "HTTP/1.0 301 Moved Permanently"
  | movedTemporarily => ascii "HTTP/1.0 302 Moved Temporarily"
  | notModified => ascii "HTTP/1.0 304 Not Modified"
  | badRequest => ascii "HTTP/1.0 400 Bad Request"
  | unauthorized => ascii "HTTP/1.0 401 Unauthorized"
  | forbidden => ascii "HTTP/1.0 403 Forbidden"
  | notFound => ascii "HTTP/1.0 404 Not Found"
  | internalServerError => ascii "HTTP/1.0 500 Internal Server Error"
  | notImplemented => ascii "HTTP/1.0 501 Not Implemented"
  | badGateway => ascii "HTTP/1.0 502 Bad Gateway"
  | serviceUnavailable => ascii "HTTP/1.0 503 Service Unavailable"

def page (title heading : String) : StdString :=
  ascii "<html>" ++ ascii "<head><title>" ++ ascii title ++ ascii "</title></head>" ++
    ascii "<body><h1>" ++ ascii heading ++ ascii "</h1></body>" ++ ascii "</html>"

/-- `stock_replies`. -/
def stockContent : StatusType → StdString
  | ok => []
  | created => page "Created" "201 Created"
  | accepted => page "Accepted" "202 Accepted"
  | noContent => page "No Content" "204 Content"
  | multipleChoices => page "Multiple Choices" "300 Multiple Choices"
  | movedPermanently => page "Moved Permanently" "301 Moved Permanently"
  | movedTemporarily => page "Moved Temporarily" "302 Moved Temporarily"
  | notModified => page "Not Modified" "304 Not Modified"
  | badRequest => page "Bad Request" "400 Bad Request"
  | unauthorized => page "Unauthorized" "401 Unauthorized"
  | forbidden => page "Forbidden" "403 Forbidden"
  | notFound => page "Not Found" "404 Not Found"
  | internalServerError => page "Internal Server Error" "500 Internal Server Error"
  | notImplemented => page "Not Implemented" "501 Not Implemented"
  | badGateway => page "Bad Gateway" "502 Bad Gateway"
  | serviceUnavailable => page "Service Unavailable" "503 Service Unavailable"

def all : List StatusType :=
  [ok, created, accepted, noContent, multipleChoices, movedPermanently, movedTemporarily,
    notModified, badRequest, unauthorized, forbidden, notFound, internalServerError,
    notImplemented, badGateway, serviceUnavailable]

end StatusType

/-- The switch of `to_buffer`, on a status that need not be one of the enumeration's. -/
def toBuffer (status : Nat) : StdString :=
  ((StatusType.all.find? fun s => s.code = status).getD .internalServerError).line ++ crlf

def mappings : List (StdString × StdString) :=
  [(ascii "gif", ascii "image/gif"), (ascii "htm", ascii "text/html"),
    (ascii "html", ascii "text/html"), (ascii "jpg", ascii "image/jpeg"),
    (ascii "png", ascii "image/png"), (ascii "json", ascii "application/json"),
    (ascii "css", ascii "text/css")]

def extensionToType (extension : StdString) : StdString :=
  ((mappings.find? fun m => m.1 = extension).map Prod.snd).getD (ascii "text/plain")

/-- The status is not initialized before a handler or the connection sets it. -/
structure Reply where
  status : Nat
  headers : List Header := []
  content : StdString := []

namespace Reply

def lengthHeader (size : Nat) : Header := ⟨ascii "Content-Length", toString size⟩

def typeHeader (mime : StdString) : Header := ⟨ascii "Content-Type", mime⟩

def flushImpl (r : Reply) (status : StatusType) (extension : StdString) : Reply :=
  { r with
    status := status.code
    headers := [lengthHeader r.content.length, typeHeader (extensionToType extension)] }

/-- `stock_reply`, which leaves out the headers of a 204. -/
def stockReply (status : StatusType) (mime : StdString) : Reply :=
  if status = .noContent then { status := status.code }
  else
    { status := status.code
      headers := [lengthHeader status.stockContent.length, typeHeader mime]
      content := status.stockContent }

def headerLine (h : Header) : StdString := h.name ++ byte ':' :: byte ' ' :: h.value ++ crlf

def toBuffers (r : Reply) : StdString :=
  toBuffer r.status ++ (r.headers.flatMap headerLine ++ (crlf ++ r.content))

/-- How a client reads a reply: its status, its header lines up to an empty one, its body. -/
def parse (bytes : StdString) : Option (Nat × List Header × StdString) := do
  let (line, rest) ← splitPair (byte '\r') (byte '\n') bytes
  let status ← StatusType.all.find? fun s => s.line = line
  let (fields, body) ← fieldLines (byte '\r') (byte '\n') (byte ':') (byte ' ') rest.length rest
  some (status.code, fields.map fun f => ⟨f.1, f.2⟩, body)

/-- The bytes of a reply are read as the reply, and announce the length of its body. -/
structure WellFramed (r : Reply) : Prop where
  parses : parse r.toBuffers = some (r.status, r.headers, r.content)
  announced : lengthHeader r.content.length ∈ r.headers

def IsLegible (h : Header) : Prop :=
  Legible (byte '\r') (byte '\n') (byte ':') (byte ' ') (h.name, h.value)

end Reply

/-- What a handler may do to a reply. The length is left to flushes and stock replies. -/
inductive ReplyStep where
  | stream (value : StdString)
  | flush (status : StatusType) (extension : StdString)
  | stock (status : StatusType) (mime : StdString)
  | header (h : Header) (other : h.name ≠ ascii "Content-Length")

namespace ReplyStep

open Reply

def apply (r : Reply) : ReplyStep → Reply
  | stream value => { r with content := r.content ++ value }
  | flush status extension => r.flushImpl status extension
  | stock status mime => stockReply status mime
  | header h _ => { r with headers := r.headers ++ [h] }

/-- The step announces the length of what is there, over a content type of one line. -/
def Announces : ReplyStep → Prop
  | flush _ _ => True
  | stock status mime => status ≠ .noContent ∧ ¬ crlf <:+: mime
  | _ => False

/-- The step leaves the length and what can be read of the headers as they are. -/
def Keeps : ReplyStep → Prop
  | stream value => value = []
  | header h _ => IsLegible h
  | _ => False

/-- The last flush or stock reply announces the length, and nothing is streamed behind it. -/
def Framed (steps : List ReplyStep) : Prop :=
  ∃ before s after, steps = before ++ s :: after ∧ s.Announces ∧ ∀ t ∈ after, Keeps t

end ReplyStep

section Digits

theorem digit_bounds {c : Char} (digit : c.isDigit) : 48 ≤ c.toNat ∧ c.toNat ≤ 57 := by
  simpa [Char.isDigit, UInt32.le_iff_toNat_le] using digit

theorem digit_byte {c : Char} (digit : c.isDigit) : (c.toNat.toUInt8).toNat = c.toNat := by
  have bounds := digit_bounds digit
  rw [Nat.toUInt8, UInt8.toNat_ofNat']
  omega

theorem toString_digits (n : Nat) : ∀ c ∈ toString n, isDigit c = true := by
  intro c inside
  obtain ⟨d, there, rfl⟩ := List.mem_map.mp inside
  have digit := Nat.isDigit_of_mem_toDigits (by decide) (by decide) there
  simp only [isDigit, byte, Bool.and_eq_true, decide_eq_true_eq, UInt8.le_iff_toNat_le,
    digit_byte digit]
  exact digit_bounds digit

/-- The digits of a number are read as the number. -/
theorem decimal_toString (n : Nat) : decimal (toString n) = n := by
  have all : ∀ (cs : List Char) (m : Nat), (∀ c ∈ cs, c.isDigit) →
      (cs.map fun c => c.toNat.toUInt8).foldl appendDigit (m : Int) =
        (Nat.ofDigitChars 10 cs m : Nat) := by
    intro cs
    induction cs with
    | nil => exact fun m _ => rfl
    | cons c cs ih =>
        intro m digits
        have here := digits c List.mem_cons_self
        have bounds := digit_bounds here
        rw [List.map_cons, List.foldl_cons, Nat.ofDigitChars_cons,
          ← ih _ fun d inside => digits d (List.mem_cons_of_mem _ inside)]
        congr 1
        have zero : '0'.toNat = 48 := rfl
        rw [appendDigit, digit_byte here]
        omega
  have run := all (Nat.toDigits 10 n) 0 fun c inside =>
    Nat.isDigit_of_mem_toDigits (by decide) (by decide) inside
  rwa [Nat.ofDigitChars_ten_toDigits] at run

theorem toString_inj {m n : Nat} (same : toString m = toString n) : m = n := by
  have read := congrArg decimal same
  rw [decimal_toString, decimal_toString] at read
  exact_mod_cast read

end Digits

namespace Reply

section Bytes

variable {r : Reply} {h : Header}

theorem line_clear (s : StatusType) : ¬ [byte '\r', byte '\n'] <:+: s.line := by
  cases s <;> decide

theorem find_line (s : StatusType) :
    (StatusType.all.find? fun t => t.line = s.line) = some s := by
  cases s <;> rfl

/-- A name without blanks, and no line end anywhere. -/
theorem isLegible_of_not_mem {name value : StdString} (blank : byte ' ' ∉ name)
    (oneName : byte '\n' ∉ name) (oneValue : byte '\n' ∉ value) : IsLegible ⟨name, value⟩ := by
  constructor
  · intro inside
    have there : byte '\n' ∈ name ++ byte ':' :: byte ' ' :: value := inside.subset (by simp)
    rcases List.mem_append.mp there with early | late
    · exact oneName early
    · rcases List.mem_cons.mp late with colon | late
      · exact absurd colon (by decide)
      · rcases List.mem_cons.mp late with space | late
        · exact absurd space (by decide)
        · exact oneValue late
  · intro inside
    exact blank (inside.subset (by simp))

theorem lengthHeader_legible (size : Nat) : IsLegible (lengthHeader size) := by
  apply isLegible_of_not_mem (by decide) (by decide)
  intro there
  exact absurd (toString_digits size _ there) (by decide)

theorem extensionToType_clear (extension : StdString) :
    byte '\n' ∉ extensionToType extension := by
  rw [extensionToType]
  cases found : mappings.find? fun m => m.1 = extension with
  | none => decide
  | some m =>
      have all : ∀ m ∈ mappings, byte '\n' ∉ m.2 := by decide
      exact all m (List.mem_of_find?_eq_some found)

theorem typeHeader_legible (extension : StdString) :
    IsLegible (typeHeader (extensionToType extension)) :=
  isLegible_of_not_mem (by decide) (by decide) (extensionToType_clear extension)

/-- What `do_write` adds, whose name has a colon of its own. -/
def connectionHeader : Header := ⟨ascii "Connection:", ascii "keep-alive"⟩

theorem connectionHeader_legible : IsLegible connectionHeader :=
  isLegible_of_not_mem (by decide) (by decide) (by decide)

/-- The status that is written for a value of the enumeration's type. -/
def written (status : Nat) : StatusType :=
  (StatusType.all.find? fun s => s.code = status).getD .internalServerError

theorem written_code_iff (status : Nat) :
    (written status).code = status ↔ ∃ s : StatusType, s.code = status := by
  constructor
  · exact fun same => ⟨_, same⟩
  · rintro ⟨s, rfl⟩
    cases s <;> rfl

theorem parse_toBuffers (r : Reply) : parse r.toBuffers =
    (fieldLines (byte '\r') (byte '\n') (byte ':') (byte ' ')
      (r.headers.flatMap headerLine ++ (crlf ++ r.content)).length
      (r.headers.flatMap headerLine ++ (crlf ++ r.content))).bind fun p =>
        some ((written r.status).code, p.1.map fun f => ⟨f.1, f.2⟩, p.2) := by
  have whole : r.toBuffers = (written r.status).line ++ byte '\r' :: byte '\n' ::
      (r.headers.flatMap headerLine ++ (crlf ++ r.content)) :=
    List.append_assoc _ crlf _
  rw [parse, whole, splitPair_append (by decide) (line_clear _)]
  simp only [Option.bind_eq_bind, Option.bind_some, find_line]

theorem length_le_flatMap (headers : List Header) :
    headers.length ≤ (headers.flatMap headerLine).length := by
  induction headers with
  | nil => exact Nat.le_refl 0
  | cons h headers ih =>
      have some_line : 0 < (headerLine h).length := by simp [headerLine]
      rw [List.flatMap_cons, List.length_cons, List.length_append]
      omega

/-- A reply is read as it is exactly if its status is one of the known ones and its headers
    are legible. -/
theorem parses_iff (r : Reply) :
    parse r.toBuffers = some (r.status, r.headers, r.content) ↔
      (∃ s : StatusType, s.code = r.status) ∧ ∀ h ∈ r.headers, IsLegible h := by
  let fields := r.headers.map fun h => (h.name, h.value)
  have lines : r.headers.flatMap headerLine =
      fields.flatMap (fieldLine (byte '\r') (byte '\n') (byte ':') (byte ' ')) := by
    rw [List.flatMap_map]
    rfl
  have back : (fields.map fun f => (⟨f.1, f.2⟩ : Header)) = r.headers := by
    rw [List.map_map]
    exact List.map_id' r.headers
  have enough : fields.length < (r.headers.flatMap headerLine ++ (crlf ++ r.content)).length := by
    have fewer := length_le_flatMap r.headers
    rw [List.length_append, List.length_append, List.length_map]
    have two : crlf.length = 2 := rfl
    omega
  have legible : (∀ h ∈ r.headers, IsLegible h) ↔
      ∀ f ∈ fields, Legible (byte '\r') (byte '\n') (byte ':') (byte ' ') f := by
    simp only [fields, List.forall_mem_map, IsLegible]
  have read := fieldLines_iff (a := byte '\r') (b := byte '\n') (c := byte ':') (d := byte ' ')
    (by decide) (by decide) enough r.content
  rw [parse_toBuffers, ← written_code_iff, legible, ← read, ← lines]
  constructor
  · intro parsed
    obtain ⟨⟨found, body⟩, here, same⟩ := Option.bind_eq_some_iff.mp parsed
    simp only [Option.some.injEq, Prod.mk.injEq] at same
    obtain ⟨status, headers, rfl⟩ := same
    have fields_eq : found = fields := by
      simp only [fields, ← headers, List.map_map, Function.comp_def, List.map_id']
    exact ⟨status, fields_eq ▸ here⟩
  · rintro ⟨status, here⟩
    have read : fieldLines (byte '\r') (byte '\n') (byte ':') (byte ' ') _
        (r.headers.flatMap headerLine ++ (crlf ++ r.content)) = some (fields, r.content) := here
    rw [read, Option.bind_some, status, back]

/-- A line end falls behind the name. -/
theorem typeHeader_legible_iff (mime : StdString) :
    IsLegible (typeHeader mime) ↔ ¬ crlf <:+: mime := by
  have skip : ∀ name : StdString, byte '\r' ∉ name → (crlf <:+: name ++ mime ↔ crlf <:+: mime) := by
    intro name
    induction name with
    | nil => exact fun _ => Iff.rfl
    | cons c name ih =>
        intro absent
        obtain ⟨other, later⟩ := not_or.mp (mt List.mem_cons.mpr absent)
        rw [List.cons_append, List.infix_cons_iff, ← ih later, or_iff_right]
        intro start
        exact other (List.cons_prefix_cons.mp start).1
  have line := skip (ascii "Content-Type: ") (by decide)
  constructor
  · intro legible inside
    exact legible.oneLine (line.mpr inside)
  · intro clear
    have plain : byte ' ' ∉ ascii "Content-Type" := by decide
    refine ⟨fun inside => clear (line.mp inside), ?_⟩
    intro early
    exact plain (early.subset (List.mem_cons_of_mem _ List.mem_cons_self))

end Bytes

section Steps

open ReplyStep

variable {r : Reply}

/-- What is read of the reply is the reply, with a length that is right. -/
structure Good (r : Reply) : Prop where
  status : ∃ s : StatusType, s.code = r.status
  legible : ∀ h ∈ r.headers, IsLegible h
  announced : lengthHeader r.content.length ∈ r.headers

/-- No length is announced that exceeds what has been streamed. -/
def Bounded (r : Reply) : Prop :=
  ∀ h ∈ r.headers, h.name = ascii "Content-Length" →
    ∃ n ≤ r.content.length, h = lengthHeader n

theorem good_flush (r : Reply) (status : StatusType) (extension : StdString) :
    Good (r.flushImpl status extension) := by
  refine ⟨⟨status, rfl⟩, ?_, List.mem_cons_self⟩
  intro h inside
  rcases List.mem_cons.mp inside with rfl | second
  · exact lengthHeader_legible _
  · exact List.mem_singleton.mp second ▸ typeHeader_legible extension

theorem good_stock_iff (status : StatusType) (mime : StdString) :
    Good (stockReply status mime) ↔ status ≠ .noContent ∧ ¬ crlf <:+: mime := by
  unfold stockReply
  split
  · rename_i none
    exact iff_of_false (fun good => nomatch good.announced) fun both => both.1 none
  · rename_i some
    rw [and_iff_right some, ← typeHeader_legible_iff]
    constructor
    · exact fun good => good.legible _ (List.mem_cons_of_mem _ List.mem_cons_self)
    · intro legible
      refine ⟨⟨status, rfl⟩, ?_, List.mem_cons_self⟩
      intro h inside
      rcases List.mem_cons.mp inside with rfl | second
      · exact lengthHeader_legible _
      · exact List.mem_singleton.mp second ▸ legible

theorem bounded_apply (bounded : Bounded r) (s : ReplyStep) : Bounded (s.apply r) := by
  have typed : ascii "Content-Type" ≠ ascii "Content-Length" := by decide
  cases s with
  | stream value =>
      intro h inside named
      obtain ⟨n, le, same⟩ := bounded h inside named
      refine ⟨n, le.trans ?_, same⟩
      rw [apply, List.length_append]
      exact Nat.le_add_right _ _
  | flush status extension =>
      intro h inside named
      rcases List.mem_cons.mp inside with rfl | second
      · exact ⟨r.content.length, Nat.le_refl _, rfl⟩
      · obtain rfl := List.mem_singleton.mp second
        exact absurd named typed
  | stock status mime =>
      intro h inside named
      rw [apply, stockReply] at inside ⊢
      split at inside
      · cases inside
      · rename_i some
        rw [if_neg some]
        rcases List.mem_cons.mp inside with rfl | second
        · exact ⟨_, Nat.le_refl _, rfl⟩
        · obtain rfl := List.mem_singleton.mp second
          exact absurd named typed
  | header h other =>
      intro h' inside named
      rcases List.mem_append.mp inside with before | last
      · exact bounded h' before named
      · exact absurd (List.mem_singleton.mp last ▸ named) other

/-- One step: the reply is good if the step announces, or keeps what was good. -/
theorem good_apply_iff (bounded : Bounded r) (s : ReplyStep) :
    Good (s.apply r) ↔ s.Announces ∨ s.Keeps ∧ Good r := by
  cases s with
  | flush status extension => exact iff_of_true (good_flush r status extension) (.inl trivial)
  | stock status mime => exact (good_stock_iff status mime).trans (or_iff_left nofun).symm
  | stream value =>
      constructor
      · intro good
        obtain ⟨n, le, same⟩ := bounded _ good.announced rfl
        have length : (r.content ++ value).length = n := toString_inj (congrArg Header.value same)
        rw [List.length_append] at length
        have none : value = [] := List.eq_nil_of_length_eq_zero (by omega)
        subst none
        refine .inr ⟨rfl, good.status, good.legible, ?_⟩
        have announced := good.announced
        rwa [apply, List.append_nil] at announced
      · rintro (nothing | ⟨rfl, good⟩)
        · exact nothing.elim
        · rw [apply, List.append_nil]
          exact good
  | header h other =>
      constructor
      · intro good
        refine .inr ⟨good.legible h (List.mem_append_right _ (List.mem_singleton_self h)),
          good.status, fun h' inside => good.legible h' (List.mem_append_left _ inside), ?_⟩
        rcases List.mem_append.mp good.announced with before | last
        · exact before
        · exact absurd (congrArg Header.name (List.mem_singleton.mp last)).symm other
      · rintro (nothing | ⟨legible, good⟩)
        · exact nothing.elim
        · refine ⟨good.status, ?_, List.mem_append_left _ good.announced⟩
          intro h' inside
          rcases List.mem_append.mp inside with before | last
          · exact good.legible h' before
          · exact List.mem_singleton.mp last ▸ legible

theorem framed_concat (steps : List ReplyStep) (s : ReplyStep) :
    Framed (steps ++ [s]) ↔ s.Announces ∨ s.Keeps ∧ Framed steps := by
  constructor
  · rintro ⟨before, t, after, split, announces, keeps⟩
    rcases List.eq_nil_or_concat after with rfl | ⟨init, last, rfl⟩
    · obtain ⟨-, same⟩ := List.append_inj' split rfl
      exact .inl (List.singleton_inj.mp same ▸ announces)
    · rw [List.concat_eq_append, ← List.cons_append, ← List.append_assoc] at split
      obtain ⟨rfl, same⟩ := List.append_inj' split rfl
      obtain rfl := List.singleton_inj.mp same
      rw [List.concat_eq_append] at keeps
      refine .inr ⟨keeps s (by simp), before, t, init, rfl, announces, ?_⟩
      exact fun u inside => keeps u (List.mem_append_left _ inside)
  · rintro (announces | ⟨keep, before, t, after, rfl, announces, keeps⟩)
    · exact ⟨steps, s, [], rfl, announces, nofun⟩
    · refine ⟨before, t, after ++ [s], by simp, announces, ?_⟩
      intro u inside
      rcases List.mem_append.mp inside with early | last
      · exact keeps u early
      · exact List.mem_singleton.mp last ▸ keep

/-- What all handlers of a request together make of a reply without anything in it. -/
theorem good_foldl_iff (status : Nat) (steps : List ReplyStep) :
    Bounded (steps.foldl apply { status }) ∧
      (Good (steps.foldl apply { status }) ↔ Framed steps) := by
  induction steps using List.reverseRecOn with
  | nil =>
      refine ⟨nofun, iff_of_false (fun good => nomatch good.announced) ?_⟩
      rintro ⟨before, s, after, split, -⟩
      exact absurd split (by simp)
  | append_singleton steps s ih =>
      rw [List.foldl_append, List.foldl_cons, List.foldl_nil]
      refine ⟨bounded_apply ih.1 s, ?_⟩
      rw [good_apply_iff ih.1, framed_concat, ih.2]

end Steps

/-- `do_write` before the reply is written. -/
def doWrite (r : Reply) : Reply := { r with headers := r.headers ++ [connectionHeader] }

/-- The header of the connection is legible and does not announce a length. -/
theorem wellFramed_doWrite_iff (r : Reply) : WellFramed r.doWrite ↔ Good r := by
  have other : ∀ size, lengthHeader size ≠ connectionHeader := by
    intro size same
    have names : ascii "Content-Length" ≠ ascii "Connection:" := by decide
    exact names (congrArg Header.name same)
  constructor
  · intro framed
    obtain ⟨status, legible⟩ := (parses_iff _).mp framed.parses
    refine ⟨status, fun h inside => legible h (List.mem_append_left _ inside), ?_⟩
    rcases List.mem_append.mp framed.announced with before | last
    · exact before
    · exact absurd (List.mem_singleton.mp last) (other _)
  · intro good
    refine ⟨(parses_iff _).mpr ⟨good.status, ?_⟩, List.mem_append_left _ good.announced⟩
    intro h inside
    rcases List.mem_append.mp inside with before | last
    · exact good.legible h before
    · exact List.mem_singleton.mp last ▸ connectionHeader_legible

end Reply

end VanillaRtb.Http
