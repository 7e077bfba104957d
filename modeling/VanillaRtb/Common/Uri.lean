import VanillaRtb.Common.UriGrammar

/-! # What the grammar of URIs accepts

A URI is made of parts, each a word of its rule read as a plain grammar. The rendered parts
are what `parse` accepts, and it hands the same parts back, as long as the ordered choice
takes the whole host.
-/

namespace VanillaRtb.Common

open Lib Lib.Peg UriGrammar

structure Authority (octet : OctetParser) where
  userInfo : Option StdString
  host : StdString
  port : Option StdString
  userInfo_word : ∀ u, userInfo = some u → u ∈ userInfoText.language
  host_word : host ∈ (hostText octet).language
  port_word : ∀ p, port = some p → p ∈ portText.language

/-- Where there is an authority, the path is empty or begins with a slash. -/
structure Uri (octet : OctetParser) where
  scheme : StdString
  authority : Option (Authority octet)
  path : StdString
  query : Option StdString
  fragment : Option StdString
  scheme_word : scheme ∈ schemeText.language
  path_word : path ∈ if authority.isSome then segments.language else UriGrammar.path.language
  query_word : ∀ q, query = some q → q ∈ queryText.language
  fragment_word : ∀ f, fragment = some f → f ∈ queryText.language

variable {octet : OctetParser}

/-- A part that may be missing, with the delimiter in front of it. -/
def optional (delimiter : UInt8) (part : Option StdString) : StdString :=
  part.elim [] (delimiter :: ·)

/-- The user information with its at sign, if there is any. -/
def infoText (info : Option StdString) : StdString := info.elim [] (· ++ ascii "@")

def Authority.userInfoText (a : Authority octet) : StdString := infoText a.userInfo

namespace Uri

variable (u : Uri octet)

def tail : StdString := optional 63 u.query ++ optional 35 u.fragment

def afterHost (a : Authority octet) : StdString := optional 58 a.port ++ (u.path ++ u.tail)

def hier : StdString :=
  match u.authority with
  | some a => ascii "//" ++ (a.userInfoText ++ (a.host ++ u.afterHost a))
  | none => u.path ++ u.tail

def render : StdString := u.scheme ++ (ascii ":" ++ u.hier)

def parts : UriParts where
  scheme := .text u.scheme
  hierPart :=
    match u.authority with
    | some a => {
        userInfo := a.userInfo.map .text
        host := some (.text a.host)
        port := a.port.map .text
        path := some (.text u.path) }
    | none => {
        userInfo := some .unset
        host := some .unset
        port := some .unset
        path := some (.text u.path) }
  query := u.query.map .text
  fragment := u.fragment.map .text

/-- The ordered choice of the rule for hosts takes the host and no less. -/
def HostTaken : Prop :=
  ∀ a, u.authority = some a →
    Takes (hostText octet) (a.host ++ u.afterHost a) ⟨a.host, [], u.afterHost a⟩

end Uri

section Words

variable {e : Rule} {t rest s : StdString} {m : Match UInt8 Attribute} {follow : UInt8 → Bool}

theorem schemeText_ll1 : LL1 schemeText (ascii ":").contains := by decide +kernel

theorem userInfoText_ll1 : LL1 userInfoText (ascii "@").contains := by decide +kernel

theorem regName_ll1 : LL1 regName (ascii ":/?#").contains := by decide +kernel

theorem portText_ll1 : LL1 portText (ascii "/?#").contains := by decide +kernel

theorem segments_ll1 : LL1 segments (ascii "?#").contains := by decide +kernel

theorem path_ll1 : LL1 UriGrammar.path (ascii "?#").contains := by decide +kernel

theorem queryText_ll1 : LL1 queryText (ascii "#").contains := by decide +kernel

theorem takes_named (ll : LL1 e follow) (plain : unnamed e = true) (word : t ∈ e.language)
    (next : ∀ c, rest.head? = some c → follow c = true) :
    Takes (raw i e) (t ++ rest) ⟨t, [(i, t)], rest⟩ :=
  takes_raw.mpr ⟨_, ll.takes_unnamed plain word next, rfl⟩

/-- A part behind a delimiter, if there is the delimiter. -/
def optionalRule (delimiter : UInt8) (i : Attribute) (e : Rule) : Rule :=
  .opt (.seq (.lit [delimiter]) (.raw i e))

theorem takes_missing (other : rest.head? ≠ some d) :
    Takes (optionalRule d i e) rest ⟨[], [], rest⟩ := by
  have failed : Fails (.lit [d] : Rule) rest := by
    apply fails_lit.mpr
    intro front
    obtain ⟨more, rfl⟩ := front
    exact other rfl
  exact .alt_right failed.seq_left (takes_eps.mpr rfl)

theorem takes_optional {part : Option StdString} (ll : LL1 e follow) (plain : unnamed e = true)
    (word : ∀ w, part = some w → w ∈ e.language)
    (next : ∀ c, rest.head? = some c → follow c = true) (other : rest.head? ≠ some d) :
    Takes (optionalRule d i e) (optional d part ++ rest)
      ⟨optional d part, part.toList.map (i, ·), rest⟩ := by
  cases part with
  | none => exact takes_missing other
  | some w =>
      have front : Takes (.lit [d] : Rule) (d :: (w ++ rest))
          ⟨[d], [], w ++ rest⟩ := takes_lit.mpr ⟨_, rfl, rfl⟩
      exact (front.seq (takes_named ll plain (word w rfl) next)).alt_left

theorem optional_of_takes (taken : Takes (optionalRule d i e) s m) :
    ∃ part : Option StdString, m.text = optional d part ∧
      m.parts = part.toList.map (i, ·) ∧ ∀ w, part = some w → w ∈ e.language := by
  cases takes_alt.mp taken with
  | inl found =>
      obtain ⟨a, b, first, second, rfl⟩ := takes_seq.mp found
      obtain ⟨after, -, rfl⟩ := takes_lit.mp first
      obtain ⟨inner, word, rfl⟩ := takes_raw.mp second
      refine ⟨some inner.text, rfl, rfl, ?_⟩
      intro w same
      exact Option.some.inj same ▸ word.mem_language
  | inr missing =>
      cases takes_eps.mp missing.2
      refine ⟨none, rfl, rfl, ?_⟩
      intro w no
      cases no

theorem path_parts (taken : Takes UriGrammar.path s m) : m.parts = [(.path, m.text)] := by
  cases takes_alt.mp taken with
  | inl found =>
      obtain ⟨inner, -, rfl⟩ := takes_raw.mp found
      rfl
  | inr other =>
      cases takes_alt.mp other.2 with
      | inl found =>
          obtain ⟨inner, -, rfl⟩ := takes_raw.mp found
          rfl
      | inr found =>
          obtain ⟨inner, -, rfl⟩ := takes_raw.mp found.2
          rfl

/-- The text is empty or begins with one of the characters. -/
def Opens (chars : StdString) (s : StdString) : Prop := ∀ c, s.head? = some c → chars.contains c

theorem Opens.ne {chars : StdString} (opens : Opens chars s) (other : chars.contains c = false) :
    s.head? ≠ some c := by
  intro head
  have among := opens c head
  rw [other] at among
  cases among

theorem Opens.mono {chars more : StdString} (opens : Opens chars s) (sub : chars ⊆ more) :
    Opens more s := by
  intro c head
  simpa using sub (by simpa using opens c head)

theorem opens_optional {chars : StdString} (part : Option StdString) (next : Opens chars rest) :
    Opens (delimiter :: chars) (optional delimiter part ++ rest) := by
  cases part with
  | none => exact next.mono (List.subset_cons_self _ _)
  | some w =>
      intro c head
      cases head
      simp

theorem Opens.append_ne {chars : StdString} (opens : Opens chars s) (before : ∀ c ∈ t, c ≠ d)
    (other : chars.contains d = false) (apart : ∀ c ∈ w, c ∉ chars) : t ++ s ≠ w ++ d :: rest := by
  intro same
  rcases List.append_eq_append_iff.mp same with ⟨more, longer, after⟩ | ⟨more, longer, after⟩
  · cases more with
    | nil => exact opens.ne other (by rw [after]; rfl)
    | cons c more =>
        have head : c ∈ chars := by simpa using opens c (by rw [after]; rfl)
        exact apart c (by simp [longer]) head
  · cases more with
    | nil => exact opens.ne other (by simpa using (congrArg List.head? after).symm)
    | cons c more =>
        cases after
        exact before d (by simp [longer]) rfl

theorem opens_path {chars : StdString} (word : w ∈ segments.language) (next : Opens chars rest) :
    Opens (47 :: chars) (w ++ rest) := by
  intro c head
  have either := head_follows word next c head
  simp only [Bool.or_eq_true, Bool.and_eq_true] at either
  cases either with
  | inl slash =>
      have slash : (ascii "/").contains c = true := by
        simpa [segments, firsts, nullable, oneOf] using slash
      have same : c = 47 := by simpa [ascii] using slash
      simp [same]
  | inr after =>
      have among : c ∈ chars := by simpa using after.2
      simp [among]

end Words

section Rendering

variable (u : Uri octet)

theorem tail_opens : Opens (ascii "?#") u.tail := by
  have nothing : Opens [] ([] : StdString) := by
    intro c no
    cases no
  have fragment : Opens (ascii "#") (optional 35 u.fragment ++ []) := opens_optional _ nothing
  rw [List.append_nil] at fragment
  exact opens_optional _ fragment

theorem pathTail_opens {a : Authority octet} (here : u.authority = some a) :
    Opens (ascii "/?#") (u.path ++ u.tail) := by
  have word := u.path_word
  simp only [here, Option.isSome_some, if_true] at word
  exact opens_path word (tail_opens u)

theorem afterHost_opens {a : Authority octet} (here : u.authority = some a) :
    Opens (ascii ":/?#") (u.afterHost a) :=
  opens_optional _ (pathTail_opens u here)

theorem takes_tail : Takes (.seq queryPart fragmentPart) u.tail
    ⟨u.tail, u.query.toList.map (.query, ·) ++ u.fragment.toList.map (.fragment, ·), []⟩ := by
  have fragment : Takes fragmentPart (optional 35 u.fragment ++ []) ⟨_, _, []⟩ :=
    takes_optional queryText_ll1 rfl u.fragment_word (by intro c no; cases no) (by intro no; cases no)
  have opens : Opens (ascii "#") (optional 35 u.fragment) := by
    have nothing : Opens [] ([] : StdString) := by
      intro c no
      cases no
    have fragment : Opens (ascii "#") (optional 35 u.fragment ++ []) := opens_optional _ nothing
    rwa [List.append_nil] at fragment
  have query : Takes queryPart (optional 63 u.query ++ optional 35 u.fragment) ⟨_, _, _⟩ :=
    takes_optional queryText_ll1 rfl u.query_word opens (opens.ne (by decide))
  rw [List.append_nil] at fragment
  exact query.seq fragment

def isDotted (c : UInt8) : Bool := isDigit c || c == 46

theorem ipv4address_within : Within isDotted (ipv4address octet) := by
  have dot : ∀ c : UInt8, (c == 46) = true → isDotted c = true := by
    intro c same
    simp [isDotted, same]
  have octets : Within isDotted (decOctet octet) := by
    refine ⟨trivial, ?_⟩
    intro s n wide
    have digits := (octet.digits wide).2.2.2
    rw [List.all_eq_true] at digits ⊢
    intro c member
    simp [isDotted, digits c member]
  have dots : Within isDotted (.seq (literal ".") (decOctet octet)) := ⟨⟨dot, trivial⟩, octets⟩
  exact ⟨octets, dots, dots, dots, trivial⟩

theorem regName_of_dotted (dotted : t.all isDotted = true) : t ∈ regName.language := by
  have pieces : t = (t.map fun c => [c]).flatten := by
    rw [← List.flatMap_def, List.flatMap_singleton']
  refine Language.mem_kstar.mpr ⟨_, pieces, ?_⟩
  intro w member
  obtain ⟨c, among, rfl⟩ := List.mem_map.mp member
  have here := List.all_eq_true.mp dotted c among
  simp only [isDotted, Bool.or_eq_true] at here
  cases here with
  | inl digit =>
      have yes : (isAlpha c || isDigit c) = true := by simp [digit]
      exact .inl (.inl ⟨c, yes, rfl⟩)
  | inr dot =>
      cases eq_of_beq dot
      exact .inl (.inr ⟨46, by decide, rfl⟩)

/-- A host is in brackets or a word of the rule for names. -/
theorem host_cases (word : h ∈ (hostText octet).language) :
    h.head? = some 91 ∨ h ∈ regName.language := by
  cases word with
  | inl bracket =>
      left
      cases h with
      | nil =>
          have no := nullable_of_nil bracket
          cases no
      | cons c h =>
          have first := firsts_of_cons bracket
          simpa [ipLiteral, firsts, nullable, literal, lit, ascii] using first
  | inr other =>
      right
      cases other with
      | inl address => exact regName_of_dotted (ipv4address_within.word address)
      | inr name => exact name

theorem regName_plain (word : h ∈ regName.language) : h.all (· != 64) = true := by
  have within : Within (· != 64) regName := within_of_symbols (by decide +kernel)
  exact within.word word

theorem portText_plain (word : p ∈ portText.language) : p.all (· != 64) = true := by
  have within : Within (· != 64) portText := within_of_symbols (by decide +kernel)
  exact within.word word

theorem userInfoText_apart (word : w ∈ userInfoText.language) :
    w.all (!(ascii "/?#").contains ·) = true := by
  have within : Within (!(ascii "/?#").contains ·) userInfoText :=
    within_of_symbols (by decide +kernel)
  exact within.word word

theorem hostPort_plain {a : Authority octet} (word : a.host ∈ regName.language) :
    ∀ c ∈ a.host ++ optional 58 a.port, c ≠ 64 := by
  intro c member
  rw [List.mem_append] at member
  cases member with
  | inl inHost => simpa using List.all_eq_true.mp (regName_plain word) c inHost
  | inr inPort =>
      cases port : a.port with
      | none => simp [port, optional] at inPort
      | some p =>
          have digits := List.all_eq_true.mp (portText_plain (a.port_word p port))
          rw [port] at inPort
          cases inPort with
          | head => decide
          | tail _ later => simpa using digits c later

theorem takes_literal (w : String) (rest : StdString) :
    Takes (literal w) (ascii w ++ rest) ⟨ascii w, [], rest⟩ :=
  takes_lit.mpr ⟨rest, rfl, rfl⟩

/-- No user information begins with a bracket. -/
theorem fails_userInfo_bracket : Fails (.seq userInfo (literal "@")) (91 :: s) := by
  have other : ∀ c, (91 :: s).head? = some c → firsts userInfoText c = false := by
    intro c head
    cases head
    decide
  obtain ⟨parts, nothing⟩ : ∃ parts, Takes userInfoText (91 :: s) ⟨[], parts, 91 :: s⟩ :=
    userInfoText_ll1.elsewhere other
  have sign : Fails (literal "@") (91 :: s) := by
    apply fails_lit.mpr
    intro front
    obtain ⟨rest, same⟩ := front
    cases same
  exact Fails.seq_right (takes_raw.mpr ⟨_, nothing, rfl⟩) sign

/-- No text of user information ends at an at sign there. -/
theorem no_userInfo {a : Authority octet} (here : u.authority = some a) :
    Fails (.seq userInfo (literal "@")) (a.host ++ u.afterHost a) := by
  have ok : advances (.seq userInfo (literal "@")) = true := by rfl
  cases host_cases a.host_word with
  | inl bracket =>
      obtain ⟨h, same⟩ : ∃ h, a.host = 91 :: h := by
        simpa [List.head?_eq_some_iff] using bracket
      rw [same]
      exact fails_userInfo_bracket
  | inr word =>
      cases fails_or_takes ok (a.host ++ u.afterHost a) with
      | inl failed => exact failed
      | inr taken =>
          exfalso
          obtain ⟨m, taken⟩ := taken
          obtain ⟨x, y, first, second, -⟩ := takes_seq.mp taken
          obtain ⟨rest, after, -⟩ := takes_lit.mp second
          obtain ⟨inner, info, rfl⟩ := takes_raw.mp first
          have whole : a.host ++ u.afterHost a = inner.text ++ 64 :: rest := by
            rw [info.append]
            exact congrArg (inner.text ++ ·) after
          have apart : ∀ c ∈ inner.text, c ∉ ascii "/?#" := by
            intro c member
            simpa using List.all_eq_true.mp (userInfoText_apart info.mem_language) c member
          have opens := pathTail_opens u here
          apply opens.append_ne (hostPort_plain word) (by decide) apart
          rw [List.append_assoc]
          exact whole

def slashes : Rule := .alt (.seq (literal "//") (.seq userInfo (literal "@"))) (literal "//")

theorem takes_slashes {info : Option StdString}
    (word : ∀ w, info = some w → w ∈ userInfoText.language)
    (absent : info = none → Fails (.seq userInfo (literal "@")) rest) :
    Takes slashes (ascii "//" ++ (infoText info ++ rest))
      ⟨ascii "//" ++ infoText info, info.toList.map (.userInfo, ·), rest⟩ := by
  have front := takes_literal "//" (infoText info ++ rest)
  cases info with
  | none => exact .alt_right (Fails.seq_right front (absent rfl)) front
  | some w =>
      have opens : Opens (ascii "@") (ascii "@" ++ rest) := by
        intro c head
        cases head
        decide
      have named := takes_named (i := .userInfo) userInfoText_ll1 rfl (word w rfl) opens
      have both := named.seq (takes_literal "@" rest)
      rw [← List.append_assoc] at both
      exact (front.seq both).alt_left

def Authority.marks (a : Authority octet) : List (Attribute × StdString) :=
  a.userInfo.toList.map (.userInfo, ·) ++ (.host, a.host) :: a.port.toList.map (.port, ·)

theorem takes_authority {a : Authority octet} (here : u.authority = some a) (taken : u.HostTaken) :
    Takes (authority octet) (ascii "//" ++ (a.userInfoText ++ (a.host ++ u.afterHost a)))
      ⟨ascii "//" ++ (a.userInfoText ++ (a.host ++ optional 58 a.port)), a.marks,
        u.path ++ u.tail⟩ := by
  have host : Takes (host octet) (a.host ++ u.afterHost a) ⟨_, [(.host, a.host)], _⟩ :=
    takes_raw.mpr ⟨_, taken a here, rfl⟩
  have opens := pathTail_opens u here
  have port : Takes (.opt (.seq (literal ":") port)) (u.afterHost a)
      ⟨optional 58 a.port, _, u.path ++ u.tail⟩ :=
    takes_optional portText_ll1 rfl a.port_word opens (opens.ne (by decide))
  have user := takes_slashes a.userInfo_word fun _ => no_userInfo u here
  simpa [Match.then, Authority.marks, Authority.userInfoText, authority, slashes]
    using user.seq (host.seq port)

theorem path_not_slashes (word : w ∈ UriGrammar.path.language) (next : Opens (ascii "?#") rest) :
    ¬ ascii "//" <+: w ++ rest := by
  intro front
  obtain ⟨more, same⟩ := front
  have two : (w ++ rest).head? = some 47 := by rw [← same]; rfl
  cases word with
  | inl absolute =>
      obtain ⟨a, slash, b, after, rfl⟩ := Language.mem_mul.mp absolute
      obtain ⟨c, -, rfl⟩ := slash
      have second : (b ++ rest).head? = some 47 := by
        have tails := congrArg List.tail same
        rw [← show _ = b ++ rest by exact tails]
        rfl
      have either := head_follows after next 47 second
      revert either
      decide
  | inr other =>
      have either := head_follows other next 47 two
      revert either
      decide

def Uri.hierMarks : List (Attribute × StdString) :=
  match u.authority with
  | some a => a.marks ++ [(.path, u.path)]
  | none => [(.noUserInfo, []), (.noHost, []), (.noPort, []), (.path, u.path)]

theorem takes_hierPart (taken : u.HostTaken) :
    ∃ text, u.hier = text ++ u.tail ∧ Takes (hierPart octet) u.hier ⟨text, u.hierMarks, u.tail⟩ := by
  cases here : u.authority with
  | some a =>
      have word := u.path_word
      simp only [here, Option.isSome_some, if_true] at word
      have path := takes_named (i := .path) segments_ll1 rfl word (tail_opens u)
      have all := ((takes_authority u here taken).seq path).alt_left (f := .seq noAuthority UriGrammar.path)
      simp only [Uri.hier, Uri.hierMarks, here]
      exact ⟨_, by simp [Uri.afterHost], all⟩
  | none =>
      have word := u.path_word
      simp only [here, Option.isSome_none, Bool.false_eq_true, if_false] at word
      obtain ⟨parts, path⟩ := path_ll1.takes word (tail_opens u)
      have named : parts = [(.path, u.path)] := path_parts path
      subst named
      have missing : Fails (authority octet) (u.path ++ u.tail) := by
        have slashes : Fails (literal "//") (u.path ++ u.tail) :=
          fails_lit.mpr (path_not_slashes word (tail_opens u))
        exact (slashes.seq_left.alt slashes).seq_left
      have unset : Takes noAuthority (u.path ++ u.tail)
          ⟨[], [(.noUserInfo, []), (.noHost, []), (.noPort, [])], u.path ++ u.tail⟩ :=
        (takes_attr.mpr rfl).seq ((takes_attr.mpr rfl).seq (takes_attr.mpr rfl))
      simp only [Uri.hier, Uri.hierMarks, here]
      exact ⟨_, rfl, .alt_right missing.seq_left (unset.seq path)⟩

theorem takes_scheme (word : sch ∈ schemeText.language) (rest : StdString) :
    Takes (.seq scheme (literal ":")) (sch ++ (ascii ":" ++ rest))
      ⟨sch ++ ascii ":", [(.scheme, sch)], rest⟩ := by
  have opens : Opens (ascii ":") (ascii ":" ++ rest) := by
    intro c head
    cases head
    decide
  exact (takes_named (i := .scheme) schemeText_ll1 rfl word opens).seq (takes_literal ":" rest)

def Uri.marks : List (Attribute × StdString) :=
  (.scheme, u.scheme) :: u.hierMarks ++
    (u.query.toList.map (.query, ·) ++ u.fragment.toList.map (.fragment, ·))

theorem takes_start (taken : u.HostTaken) :
    Takes (start octet) u.render ⟨u.render, u.marks, []⟩ := by
  obtain ⟨text, whole, hier⟩ := takes_hierPart u taken
  have all := (takes_scheme u.scheme_word u.hier).seq (hier.seq (takes_tail u))
  simpa [Match.then, Uri.render, Uri.marks, whole, start] using all

theorem marks_assigned : u.marks.foldl assign {} = u.parts := by
  cases here : u.authority with
  | none =>
      cases query : u.query <;> cases fragment : u.fragment <;>
        simp [Uri.marks, Uri.hierMarks, Uri.parts, here, query, fragment, assign]
  | some a =>
      cases info : a.userInfo <;> cases port : a.port <;> cases query : u.query <;>
        cases fragment : u.fragment <;>
        simp [Uri.marks, Uri.hierMarks, Authority.marks, Uri.parts, here, info, port, query,
          fragment, assign]

end Rendering

section Parsing

variable {url : StdString} {p : UriParts}

theorem parses_iff : Parses octet url (true, p) ↔
    ∃ m, Takes (start octet) url m ∧ m.rest = [] ∧ p = m.parts.foldl assign {} := by
  constructor
  · intro parsed
    obtain ⟨fuel, done⟩ := parsed
    simp only [parse, Option.map_eq_some_iff, Prod.mk.injEq] at done
    obtain ⟨r, ran, whole, rfl⟩ := done
    cases r with
    | none => cases whole
    | some m => exact ⟨m, ⟨fuel, ran⟩, by simpa using whole, rfl⟩
  · intro taken
    obtain ⟨m, ⟨fuel, ran⟩, whole, rfl⟩ := taken
    refine ⟨fuel, ?_⟩
    simp [parse, ran, whole, parts]

theorem userInfo_of_takes (taken : Takes slashes url m) :
    ∃ info : Option StdString, m.text = ascii "//" ++ infoText info ∧
      m.parts = info.toList.map (.userInfo, ·) ∧ ∀ w, info = some w → w ∈ userInfoText.language := by
  cases takes_alt.mp taken with
  | inl found =>
      obtain ⟨front, back, first, second, rfl⟩ := takes_seq.mp found
      obtain ⟨after, -, rfl⟩ := takes_lit.mp first
      obtain ⟨named, sign, third, last, rfl⟩ := takes_seq.mp second
      obtain ⟨inner, word, rfl⟩ := takes_raw.mp third
      obtain ⟨rest, -, rfl⟩ := takes_lit.mp last
      refine ⟨some inner.text, by simp [Match.then, Match.hand, infoText], rfl, ?_⟩
      intro w same
      exact Option.some.inj same ▸ word.mem_language
  | inr missing =>
      obtain ⟨rest, -, rfl⟩ := takes_lit.mp missing.2
      refine ⟨none, by simp [infoText], rfl, ?_⟩
      intro w no
      cases no

theorem authority_of_takes (taken : Takes (authority octet) url m) :
    ∃ a : Authority octet,
      m.text = ascii "//" ++ (a.userInfoText ++ (a.host ++ optional 58 a.port)) ∧
      m.parts = a.marks ∧
      Takes (hostText octet) (a.host ++ (optional 58 a.port ++ m.rest))
        ⟨a.host, [], optional 58 a.port ++ m.rest⟩ := by
  obtain ⟨front, back, first, second, rfl⟩ := takes_seq.mp taken
  obtain ⟨info, infoText, infoParts, infoWord⟩ := userInfo_of_takes first
  obtain ⟨named, port, third, last, rfl⟩ := takes_seq.mp second
  obtain ⟨host, hostTaken, rfl⟩ := takes_raw.mp third
  obtain ⟨number, portText, portParts, portWord⟩ := optional_of_takes (d := 58) last
  let a : Authority octet := {
    userInfo := info
    host := host.text
    port := number
    userInfo_word := infoWord
    host_word := hostTaken.mem_language
    port_word := portWord }
  have after : host.rest = optional 58 number ++ port.rest := by
    rw [← portText]
    exact last.append
  have plain : host.parts = [] := hostTaken.parts_nil rfl
  have exactly : Takes (hostText octet) (host.text ++ (optional 58 number ++ port.rest))
      ⟨host.text, [], optional 58 number ++ port.rest⟩ := by
    rw [← after, ← hostTaken.append]
    simpa [← plain] using hostTaken
  refine ⟨a, ?_, ?_, exactly⟩
  · simp [a, Match.then, Match.hand, infoText, portText, Authority.userInfoText]
  · simp [a, Match.then, Match.hand, infoParts, portParts, Authority.marks]

/-- More fuel does not change what is returned. -/
theorem parse_unique (here : parse octet n url = some r) (there : parse octet k url = some r') :
    r = r' := by
  simp only [parse, Option.map_eq_some_iff] at here there
  obtain ⟨m, ran, rfl⟩ := here
  obtain ⟨m', again, rfl⟩ := there
  cases run_unique ran again
  cases m with
  | some m => rfl
  | none =>
      obtain ⟨x, first⟩ := run_seq_left ran
      obtain ⟨front, first⟩ := run_seq_left first
      obtain ⟨y, second⟩ := run_seq_left again
      obtain ⟨front', second⟩ := run_seq_left second
      simp [parts, first, second, run_unique first second]

theorem parses_render (u : Uri octet) (taken : u.HostTaken) :
    Parses octet u.render (true, u.parts) :=
  parses_iff.mpr ⟨_, takes_start u taken, rfl, (marks_assigned u).symm⟩

theorem uri_of_takes {m : Match UInt8 Attribute} (taken : Takes (start octet) url m)
    (whole : m.rest = []) : ∃ u : Uri octet, u.HostTaken ∧ url = u.render ∧ m.parts = u.marks := by
  obtain ⟨front, back, first, second, rfl⟩ := takes_seq.mp taken
  obtain ⟨sch, colon, named, between, rfl⟩ := takes_seq.mp first
  obtain ⟨afterColon, colonHere, rfl⟩ := takes_lit.mp between
  obtain ⟨scheme, schemeTaken, rfl⟩ := takes_raw.mp named
  obtain ⟨hier, ends, hierTaken, endsTaken, rfl⟩ := takes_seq.mp second
  obtain ⟨q, f, queryTaken, fragmentTaken, rfl⟩ := takes_seq.mp endsTaken
  obtain ⟨query, queryText, queryParts, queryWord⟩ := optional_of_takes (d := 63) queryTaken
  obtain ⟨fragment, fragmentText, fragmentParts, fragmentWord⟩ :=
    optional_of_takes (d := 35) fragmentTaken
  have nothing : f.rest = [] := whole
  have tail : hier.rest = optional 63 query ++ optional 35 fragment := by
    rw [queryTaken.append, queryText, fragmentTaken.append, fragmentText, nothing, List.append_nil]
  cases takes_alt.mp hierTaken with
  | inl found =>
      obtain ⟨authority, path, third, last, rfl⟩ := takes_seq.mp found
      obtain ⟨a, authorityText, authorityParts, hostTaken⟩ := authority_of_takes third
      obtain ⟨segments, segmentsTaken, rfl⟩ := takes_raw.mp last
      let u : Uri octet := {
        scheme := scheme.text
        authority := some a
        path := segments.text
        query := query
        fragment := fragment
        scheme_word := schemeTaken.mem_language
        path_word := segmentsTaken.mem_language
        query_word := queryWord
        fragment_word := fragmentWord }
      have rest : authority.rest = u.path ++ u.tail := by
        rw [segmentsTaken.append]
        exact congrArg (segments.text ++ ·) tail
      refine ⟨u, ?_, ?_, ?_⟩
      · intro b same
        cases same
        rw [rest] at hostTaken
        exact hostTaken
      · have colon : scheme.rest = ascii ":" ++ afterColon := colonHere
        have hier : afterColon = authority.text ++ authority.rest := third.append
        simp [u, Uri.render, Uri.hier, Uri.afterHost, schemeTaken.append, colon, hier,
          authorityText, rest]
      · simp [u, Match.then, Match.hand, Uri.marks, Uri.hierMarks, authorityParts, queryParts,
          fragmentParts]
  | inr found =>
      obtain ⟨unset, path, third, last, rfl⟩ := takes_seq.mp found.2
      obtain ⟨x, y, noUser, others, rfl⟩ := takes_seq.mp third
      obtain ⟨z, w, noHost, noPort, rfl⟩ := takes_seq.mp others
      cases takes_attr.mp noUser
      cases takes_attr.mp noHost
      cases takes_attr.mp noPort
      let u : Uri octet := {
        scheme := scheme.text
        authority := none
        path := path.text
        query := query
        fragment := fragment
        scheme_word := schemeTaken.mem_language
        path_word := last.mem_language
        query_word := queryWord
        fragment_word := fragmentWord }
      refine ⟨u, ?_, ?_, ?_⟩
      · intro b no
        cases no
      · have colon : scheme.rest = ascii ":" ++ afterColon := colonHere
        have hier : afterColon = path.text ++ path.rest := last.append
        have rest : path.rest = u.tail := tail
        simp [u, Uri.render, Uri.hier, schemeTaken.append, colon, hier, rest]
      · simp [u, Match.then, Match.hand, Uri.marks, Uri.hierMarks, path_parts last, queryParts,
          fragmentParts]

/-- Exactly the rendered URIs whose hosts are taken whole are accepted, with their own parts. -/
theorem parses_true_iff (octet : OctetParser) (url : StdString) (p : UriParts) :
    Parses octet url (true, p) ↔ ∃ u : Uri octet, u.HostTaken ∧ url = u.render ∧ p = u.parts := by
  constructor
  · intro accepted
    obtain ⟨m, taken, whole, rfl⟩ := parses_iff.mp accepted
    obtain ⟨u, hostTaken, rendered, marks⟩ := uri_of_takes taken whole
    exact ⟨u, hostTaken, rendered, by rw [marks, marks_assigned]⟩
  · intro rendered
    obtain ⟨u, hostTaken, rfl, rfl⟩ := rendered
    exact parses_render u hostTaken

end Parsing

end VanillaRtb.Common
