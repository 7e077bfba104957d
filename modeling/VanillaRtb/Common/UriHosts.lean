import VanillaRtb.Common.Uri

/-! # Hosts

The fourth form of an address in brackets repeats a repetition, and no input makes that end.
An address at the front of a name is taken for the whole host.
-/

namespace VanillaRtb.Common

open Lib Lib.Peg UriGrammar

variable {octet : OctetParser} {s url : StdString} {m : Match UInt8 Attribute}

/-- The forms of an address in brackets that are tried before the fourth. -/
def leadingForms (octet : OctetParser) : Rule :=
  .alt (.seq (.many 6 h16Colon) (ls32 octet)) <|
  .alt (.seq (literal "::") (.seq (.many 5 h16Colon) (ls32 octet))) <|
  .seq h16 (.seq (literal "::") (.seq (.many 4 h16Colon) (ls32 octet)))

section Returning

theorem not_returns_someGroups : ¬ Returns someGroups s := by
  intro done
  cases done.seq with
  | inl failed =>
      cases fails_seq.mp failed with
      | inl no => exact not_fails_star no
      | inr no =>
          obtain ⟨m, -, again⟩ := no
          exact not_fails_star again
  | inr first =>
      obtain ⟨m, taken, -⟩ := first
      obtain ⟨a, b, -, again, -⟩ := takes_seq.mp taken
      exact not_returns_star (fun _ => not_fails_star) (returns_iff.mpr (.inr ⟨b, again⟩))

/-- Past the third form the rule does not return. -/
theorem returns_ipv6address : Returns (ipv6address octet) s ↔ ∃ m, Takes (leadingForms octet) s m := by
  constructor
  · intro done
    cases done.alt with
    | inl first =>
        obtain ⟨m, first⟩ := first
        exact ⟨m, first.alt_left⟩
    | inr rest =>
        cases rest.2.alt with
        | inl second =>
            obtain ⟨m, second⟩ := second
            exact ⟨m, .alt_right rest.1 second.alt_left⟩
        | inr later =>
            cases later.2.alt with
            | inl third =>
                obtain ⟨m, third⟩ := third
                exact ⟨m, .alt_right rest.1 (.alt_right later.1 third)⟩
            | inr fourth =>
                exfalso
                cases fourth.2.alt with
                | inl groups =>
                    obtain ⟨m, groups⟩ := groups
                    obtain ⟨a, b, first, -, -⟩ := takes_seq.mp groups
                    exact not_returns_someGroups (returns_iff.mpr (.inr ⟨a, first⟩))
                | inr failed =>
                    cases fails_seq.mp failed.1 with
                    | inl first => exact not_returns_someGroups (returns_iff.mpr (.inl first))
                    | inr first =>
                        obtain ⟨m, first, -⟩ := first
                        exact not_returns_someGroups (returns_iff.mpr (.inr ⟨m, first⟩))
  · intro taken
    obtain ⟨m, taken⟩ := taken
    refine returns_iff.mpr (.inr ⟨m, ?_⟩)
    cases takes_alt.mp taken with
    | inl first => exact first.alt_left
    | inr other =>
        refine .alt_right other.1 ?_
        cases takes_alt.mp other.2 with
        | inl second => exact second.alt_left
        | inr third => exact .alt_right third.1 third.2.alt_left

theorem not_fails_ipv6address : ¬ Fails (ipv6address octet) s := by
  intro failed
  obtain ⟨m, taken⟩ := returns_ipv6address.mp (returns_iff.mpr (.inl failed))
  cases takes_alt.mp taken with
  | inl first => exact first.not_fails (fails_alt.mp failed).1
  | inr other =>
      have rest := (fails_alt.mp failed).2
      cases takes_alt.mp other.2 with
      | inl second => exact second.not_fails (fails_alt.mp rest).1
      | inr third => exact third.2.not_fails (fails_alt.mp (fails_alt.mp rest).2).1

theorem returns_host_bracket :
    Returns (host octet) (91 :: s) ↔ ∃ m, Takes (leadingForms octet) s m := by
  have opening : Takes (literal "[") (91 :: s) ⟨[91], [], s⟩ := takes_lit.mpr ⟨s, rfl, rfl⟩
  rw [host, returns_raw]
  constructor
  · intro done
    have literal : Returns (ipLiteral octet) (91 :: s) := by
      apply returns_iff.mpr
      cases done.alt with
      | inl taken => exact .inr taken
      | inr failed => exact .inl failed.1
    cases literal.seq with
    | inl no => exact absurd no opening.not_fails
    | inr inside =>
        obtain ⟨m, again, inside⟩ := inside
        cases again.unique opening
        rw [← returns_ipv6address, returns_iff]
        cases inside.seq with
        | inl failed => exact .inl (fails_alt.mp failed).1
        | inr both =>
            obtain ⟨m, taken, -⟩ := both
            cases takes_alt.mp taken with
            | inl six => exact .inr ⟨m, six⟩
            | inr future => exact .inl future.1
  · intro taken
    have six := returns_ipv6address.mpr taken
    apply returns_alt
    · apply returns_seq (returns_of_advances rfl _)
      intro m again
      cases again.unique opening
      apply returns_seq
      · exact returns_alt six fun failed => absurd failed not_fails_ipv6address
      · intro m _
        exact returns_of_advances rfl _
    · intro _
      exact returns_of_advances rfl _

theorem returns_host_other (other : s.head? ≠ some 91) : Returns (host octet) s := by
  have failed : Fails (literal "[") s := by
    apply fails_lit.mpr
    intro front
    obtain ⟨more, rfl⟩ := front
    exact other rfl
  rw [host, returns_raw]
  exact returns_alt (returns_iff.mpr (.inl failed.seq_left)) fun _ => returns_of_advances rfl _

theorem parses_of_returns (done : Returns (start octet) url) : ∃ r, Parses octet url r := by
  obtain ⟨fuel, done⟩ := done
  have parsed : (parse octet fuel url).isSome = true := by simp [parse, done]
  obtain ⟨r, same⟩ := Option.isSome_iff_exists.mp parsed
  exact ⟨r, fuel, same⟩

theorem returns_of_parses (parsed : Parses octet url r) : Returns (start octet) url := by
  obtain ⟨fuel, done⟩ := parsed
  simp only [parse, Option.map_eq_some_iff] at done
  obtain ⟨r, ran, -⟩ := done
  exact ⟨fuel, by simp [ran]⟩

/-- The text before a host: the scheme, the slashes and any user information. -/
structure BeforeHost where
  scheme : StdString
  userInfo : Option StdString
  scheme_word : scheme ∈ schemeText.language
  userInfo_word : ∀ w, userInfo = some w → w ∈ userInfoText.language

def BeforeHost.render (b : BeforeHost) : StdString :=
  b.scheme ++ (ascii ":" ++ (ascii "//" ++ infoText b.userInfo))

theorem returns_hierPart (rest : StdString)
    (hosts : ∀ m, Takes slashes rest m → Returns (host octet) m.rest) :
    Returns (hierPart octet) rest := by
  refine returns_alt (returns_seq (returns_seq ?_ ?_) ?_) fun _ => returns_of_advances rfl _
  · exact returns_of_advances rfl _
  · intro m taken
    exact returns_seq (hosts m taken) fun _ _ => returns_of_advances rfl _
  · intro m _
    exact returns_of_advances rfl _

theorem returns_host_of_hierPart (done : Returns (hierPart octet) rest)
    (taken : Takes slashes rest m) : Returns (host octet) m.rest := by
  have authority : Returns (authority octet) rest := by
    rw [returns_iff]
    cases done.alt with
    | inl both =>
        obtain ⟨m, both⟩ := both
        obtain ⟨a, b, first, -, -⟩ := takes_seq.mp both
        exact .inr ⟨a, first⟩
    | inr failed =>
        cases fails_seq.mp failed.1 with
        | inl first => exact .inl first
        | inr first =>
            obtain ⟨m, first, -⟩ := first
            exact .inr ⟨m, first⟩
  cases authority.seq with
  | inl no => exact absurd no taken.not_fails
  | inr after =>
      obtain ⟨m', again, after⟩ := after
      cases taken.unique again
      rw [returns_iff]
      cases after.seq with
      | inl failed => exact .inl failed
      | inr first =>
          obtain ⟨a, first, -⟩ := first
          exact .inr ⟨a, first⟩

/-- `parse` does not return exactly where a host opens a bracket and none of the leading forms
    follows. -/
theorem parse_returns_iff (octet : OctetParser) (url : StdString) :
    (∃ r, Parses octet url r) ↔ ∀ (b : BeforeHost) (s : StdString),
      url = b.render ++ ascii "[" ++ s → ∃ m, Takes (leadingForms octet) s m := by
  constructor
  · intro returned b s whole
    obtain ⟨r, parsed⟩ := returned
    have done := returns_of_parses parsed
    have split : url = b.scheme ++ (ascii ":" ++ (ascii "//" ++ (infoText b.userInfo ++ 91 :: s))) := by
      simp [whole, BeforeHost.render, ascii]
    subst split
    have front := takes_scheme b.scheme_word (ascii "//" ++ (infoText b.userInfo ++ 91 :: s))
    cases done.seq with
    | inl no => exact absurd no front.not_fails
    | inr after =>
        obtain ⟨m, again, after⟩ := after
        cases front.unique again
        have hier : Returns (hierPart octet) (ascii "//" ++ (infoText b.userInfo ++ 91 :: s)) := by
          rw [returns_iff]
          cases after.seq with
          | inl failed => exact .inl failed
          | inr first =>
              obtain ⟨m, first, -⟩ := first
              exact .inr ⟨m, first⟩
        have user := takes_slashes b.userInfo_word fun _ => fails_userInfo_bracket (s := s)
        exact returns_host_bracket.mp (returns_host_of_hierPart hier user)
  · intro forms
    apply parses_of_returns
    apply returns_seq (returns_of_advances rfl _)
    intro front taken
    apply returns_seq
    · apply returns_hierPart
      intro m user
      obtain ⟨sch, colon, named, between, rfl⟩ := takes_seq.mp taken
      obtain ⟨scheme, word, rfl⟩ := takes_raw.mp named
      obtain ⟨rest, after, rfl⟩ := takes_lit.mp between
      obtain ⟨info, text, -, infoWord⟩ := userInfo_of_takes user
      by_cases bracket : m.rest.head? = some 91
      · obtain ⟨s, same⟩ := List.head?_eq_some_iff.mp bracket
        rw [same]
        apply returns_host_bracket.mpr
        let b : BeforeHost := {
          scheme := scheme.text
          userInfo := info
          scheme_word := word.mem_language
          userInfo_word := infoWord }
        apply forms b s
        have front : scheme.rest = ascii ":" ++ rest := after
        have hier : rest = m.text ++ m.rest := user.append
        simp [b, BeforeHost.render, word.append, front, hier, text, same, ascii]
      · exact returns_host_other bracket
    · intro m _
      exact returns_of_advances rfl _

end Returning

section Names

variable {u : Uri octet} {a : Authority octet}

theorem regName_apart (word : h ∈ regName.language) : h.all (!(ascii ":/?#[").contains ·) = true := by
  have within : Within (!(ascii ":/?#[").contains ·) regName :=
    within_of_symbols (by decide +kernel)
  exact within.word word

theorem isDotted_apart : ∀ c, (ascii ":/?#").contains c = true → isDotted c = false := by
  decide +kernel

theorem ipv4address_stops (octet : OctetParser) (opens : Opens (ascii ":/?#") tail) : Stops (ipv4address octet) tail := by
  have apart (p : UInt8 → Bool) (dotted : ∀ c, p c = true → isDotted c = true) (c : UInt8)
      (head : tail.head? = some c) : p c = false := by
    have no := isDotted_apart c (opens c head)
    cases here : p c with
    | false => rfl
    | true =>
        rw [dotted c here] at no
        cases no
  have digits : ∀ c, tail.head? = some c → isDigit c = false :=
    apart isDigit fun c here => by simp [isDotted, here]
  have zero : ∀ c, tail.head? = some c → (c == 48) = false :=
    apart (· == 48) fun c here => by rw [eq_of_beq here]; decide
  have dot : ∀ c, tail.head? = some c → (c == 46) = false :=
    apart (· == 46) fun c here => by rw [eq_of_beq here]; decide
  have octets : Stops (decOctet octet) tail := by
    refine ⟨⟨⟨zero, trivial⟩, digits⟩, ?_⟩
    intro s
    exact ⟨octet.before digits s, fun n wide => (octet.digits wide).2.2.1⟩
  have dots : Stops (.seq (literal ".") (decOctet octet)) tail := ⟨⟨dot, trivial⟩, octets⟩
  exact ⟨octets, dots, dots, dots, trivial⟩

/-- At a name the choice is between an address and the whole name. -/
theorem takes_host_name (octet : OctetParser) (name : h ∈ regName.language) (opens : Opens (ascii ":/?#") tail) :
    (∀ m, Takes (ipv4address octet) h m → Takes (hostText octet) (h ++ tail) (m.extend tail)) ∧
      (Fails (ipv4address octet) h → Takes (hostText octet) (h ++ tail) ⟨h, [], tail⟩) := by
  have apart := List.all_eq_true.mp (regName_apart name)
  have noBracket : Fails (ipLiteral octet) (h ++ tail) := by
    apply Fails.seq_left
    apply fails_lit.mpr
    intro front
    obtain ⟨more, same⟩ := front
    cases h with
    | nil =>
        have among := opens 91 (by rw [List.nil_append] at same; rw [← same]; rfl)
        revert among
        decide
    | cons c h =>
        obtain ⟨rfl, -⟩ := List.cons.inj same
        have no := apart 91 List.mem_cons_self
        revert no
        decide
  have stops := ipv4address_stops octet opens
  constructor
  · intro m taken
    exact .alt_right noBracket ((takes_append stops).mpr ⟨m, taken, rfl⟩).alt_left
  · intro failed
    exact .alt_right noBracket (.alt_right ((fails_append stops).mpr failed)
      (regName_ll1.takes_unnamed rfl name opens))

theorem hostTaken_of_name (here : u.authority = some a) (name : a.host ∈ regName.language)
    (whole : ∀ m, Takes (ipv4address octet) a.host m → m.rest = []) : u.HostTaken := by
  intro b same
  rw [here] at same
  cases same
  obtain ⟨address, other⟩ := takes_host_name octet name (afterHost_opens u here)
  cases fails_or_takes (e := ipv4address octet) rfl a.host with
  | inl failed => exact other failed
  | inr taken =>
      obtain ⟨m, taken⟩ := taken
      have nothing := whole m taken
      have text : a.host = m.text := by simpa [nothing] using taken.append
      have plain : m.parts = [] := taken.parts_nil rfl
      have both := address m taken
      simpa [Match.extend, nothing, plain, ← text] using both

/-- What is handed over where only the front of the host is taken. -/
def partsAt (u : Uri octet) (a : Authority octet) (front : StdString) : UriParts where
  scheme := .text u.scheme
  hierPart := {
    userInfo := a.userInfo.map .text
    host := some (.text front)
    path := some (.text []) }

/-- Nothing behind the host is taken where none of the delimiters comes next. -/
theorem takes_nothing (other : ∀ d, (ascii ":/?#").contains d = true → s.head? ≠ some d) :
    Takes (.opt (.seq (literal ":") port)) s ⟨[], [], s⟩ ∧
      Takes pathAbempty s ⟨[], [(.path, [])], s⟩ ∧
      Takes (.seq queryPart fragmentPart) s ⟨[], [], s⟩ := by
  have query : Takes queryPart s ⟨[], [], s⟩ := takes_missing (other 63 (by decide))
  have fragment : Takes fragmentPart s ⟨[], [], s⟩ := takes_missing (other 35 (by decide))
  have slash : Fails (oneOf "/") s := by
    apply fails_sat.mpr
    intro c head
    have apart : c ≠ 47 := by
      intro same
      exact other 47 (by decide) (same ▸ head)
    simpa [ascii] using apart
  have path : Takes segments s ⟨[], [], s⟩ := .star_stop slash.seq_left
  exact ⟨takes_missing (other 58 (by decide)), takes_raw.mpr ⟨_, path, rfl⟩, query.seq fragment⟩

theorem parses_front (here : u.authority = some a) (name : a.host ∈ regName.language)
    (taken : Takes (ipv4address octet) a.host m) (more : m.rest ≠ []) :
    Parses octet u.render (false, partsAt u a m.text) := by
  have found := (takes_host_name octet name (afterHost_opens u here)).1 m taken
  obtain ⟨c, x, split⟩ := List.exists_cons_of_ne_nil more
  have apart := List.all_eq_true.mp (regName_apart name) c (by simp [taken.append, split])
  have other (d : UInt8) (among : (ascii ":/?#").contains d = true) :
      (m.extend (u.afterHost a)).rest.head? ≠ some d := by
    intro same
    have first : c = d := by simpa [Match.extend, split] using same
    have bracket : (ascii ":/?#[").contains d = true := by
      simp only [List.contains_iff_mem] at among ⊢
      exact List.mem_append_left (ascii "[") among
    rw [first, bracket] at apart
    cases apart
  obtain ⟨port, path, ends⟩ := takes_nothing other
  have host : Takes (host octet) (a.host ++ u.afterHost a) _ := takes_raw.mpr ⟨_, found, rfl⟩
  have user := takes_slashes a.userInfo_word fun _ => no_userInfo u here
  have hier := ((user.seq (host.seq port)).seq path).alt_left (f := .seq noAuthority UriGrammar.path)
  have whole : u.render = u.scheme ++ (ascii ":" ++
      (ascii "//" ++ (infoText a.userInfo ++ (a.host ++ u.afterHost a)))) := by
    rw [Uri.render, Uri.hier, here]
    rfl
  obtain ⟨fuel, ran⟩ := (takes_scheme u.scheme_word _).seq (hier.seq ends)
  rw [← whole] at ran
  have ran : run fuel (start octet) u.render = some (some _) := ran
  refine ⟨fuel, ?_⟩
  rw [parse, ran]
  cases info : a.userInfo <;>
    simp [Match.then, Match.hand, Match.extend, more, parts, partsAt, assign, info]

/-- A name is handed over whole unless it begins with an address: then the address is handed over
    as the host, and the URI is refused. -/
theorem parse_name_host (u : Uri octet) (a : Authority octet) (here : u.authority = some a)
    (name : a.host ∈ regName.language) :
    (Fails (ipv4address octet) a.host → Parses octet u.render (true, u.parts)) ∧
      ∀ m, Takes (ipv4address octet) a.host m →
        if m.rest = [] then Parses octet u.render (true, u.parts)
        else Parses octet u.render (false, partsAt u a m.text) := by
  have accepted (whole : ∀ m, Takes (ipv4address octet) a.host m → m.rest = []) :
      Parses octet u.render (true, u.parts) :=
    parses_render u (hostTaken_of_name here name whole)
  constructor
  · intro failed
    apply accepted
    intro m taken
    exact absurd failed taken.not_fails
  · intro m taken
    split
    · case isTrue whole =>
        apply accepted
        intro m' again
        rwa [← taken.unique again]
    · case isFalse more => exact parses_front here name taken more

/-- `http://` in front of a name, and a slash behind it. -/
def nameUri (octet : OctetParser) (host : StdString) (word : host ∈ regName.language) : Uri octet where
  scheme := ascii "http"
  authority := some {
    userInfo := none
    host := host
    port := none
    userInfo_word := by
      intro w no
      cases no
    host_word := .inr (.inr word)
    port_word := by
      intro w no
      cases no }
  path := ascii "/"
  query := none
  fragment := none
  scheme_word := mem_language_of_run 20 (by decide +kernel)
  path_word := mem_language_of_run (e := segments) 20 (by decide +kernel)
  query_word := by
    intro w no
    cases no
  fragment_word := by
    intro w no
    cases no

theorem dottedName_word : ascii "1.2.3.4.com" ∈ regName.language :=
  mem_language_of_run 20 (by decide +kernel)

def dottedUri : Uri uint8Parser := nameUri uint8Parser _ dottedName_word

theorem dottedUri_refused : dottedUri.render = ascii "http://1.2.3.4.com/" ∧
    ∃ a, Parses uint8Parser dottedUri.render (false, partsAt dottedUri a (ascii "1.2.3.4")) := by
  have front : Takes (ipv4address uint8Parser) (ascii "1.2.3.4.com")
      ⟨ascii "1.2.3.4", [], ascii ".com"⟩ := ⟨20, by decide +kernel⟩
  have refused := (parse_name_host dottedUri _ rfl dottedName_word).2 _ front
  exact ⟨by decide, _, refused⟩

end Names

end VanillaRtb.Common
