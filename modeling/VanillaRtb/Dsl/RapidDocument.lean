import VanillaRtb.Dsl.Denotation
import VanillaRtb.Dsl.RapidExtractors

/-! # One document in two trees

rapidjson unescapes strings and names and keeps every member; jsmn and `encode` keep the
bytes between the quotes and the first member of a name. What each tree has under a name
is said here in terms of the document.
-/

namespace VanillaRtb.Dsl

open Lib Lib.JsonText Encoders

section Tree

variable (rapidDouble : StdString → Option Float)

/-- Whether an integer fits one of the two types of 64 bits. -/
def FitsRapid (n : Number) : Prop :=
  n.fraction = none ∧ n.exponent = none ∧
    magnitude n.integral.digits < if n.minus then 2 ^ 63 + 1 else 2 ^ 64

instance (n : Number) : Decidable (FitsRapid n) :=
  decidable_of_iff (n.fraction.isNone = true ∧ n.exponent.isNone = true ∧
    magnitude n.integral.digits < if n.minus then 2 ^ 63 + 1 else 2 ^ 64)
    (by simp [FitsRapid])

def integralValue (n : Number) : Int :=
  if n.minus then -magnitude n.integral.digits else magnitude n.integral.digits

/-- `ParseNumber`: everything that is no integer of 64 bits is a double, if it is not too big. -/
def rapidNumber (n : Number) : Option RapidNumber :=
  if FitsRapid n then some (.integer (integralValue n))
  else (rapidDouble n.text).map .double

mutual

/-- The tree that rapidjson makes of a document, if it makes one. -/
def rapidTree : Json → Option RapidValue
  | .null => some .null
  | .boolean b => some (.boolean b)
  | .number n => (rapidNumber rapidDouble n).map .number
  | .string s => (contents s).map .string
  | .array es _ => (rapidElements es).map .array
  | .object ms _ => (rapidMembers ms).map .object

def rapidElements : List (Element Json) → Option (List RapidValue)
  | [] => some []
  | ⟨_, v, _⟩ :: es => do
      let x ← rapidTree v
      let xs ← rapidElements es
      pure (x :: xs)

def rapidMembers : List (Member Json) → Option (List (StdString × RapidValue))
  | [] => some []
  | ⟨_, name, _, _, v, _⟩ :: ms => do
      let key ← contents name
      let x ← rapidTree v
      let ps ← rapidMembers ms
      pure ((key, x) :: ps)

end

end Tree

section Names

/-- The value of the first member whose name is spelled so, without an escape. -/
def written (name : StdString) (ms : List (Member Json)) : Option Json :=
  (ms.find? fun m => stringText m.name == name).map Member.value

/-- The value of the first member whose name says so. -/
def named (name : StdString) (ms : List (Member Json)) : Option Json :=
  (ms.find? fun m => contents m.name == some name).map Member.value

/-- The name as `strcmp` sees it. -/
def cName (m : Member Json) : Option StdString := (contents m.name).map (List.takeWhile (· ≠ 0))

def Distinct (ms : List (Member Json)) : Prop := (ms.map cName).Nodup

instance (ms : List (Member Json)) : Decidable (Distinct ms) :=
  inferInstanceAs (Decidable (List.Nodup _))

theorem plain_of_noBackslash {s : List Character} (h : 92 ∉ stringText s) :
    ∀ c ∈ s, c.isPlain = true := by
  intro c mem
  cases c with
  | plain c valid => rfl
  | escape e => exact absurd (List.mem_flatMap.2 ⟨_, mem, by simp [Character.text]⟩) h
  | unicode a b c d => exact absurd (List.mem_flatMap.2 ⟨_, mem, by simp [Character.text]⟩) h

theorem contents_written {s : List Character} {name : StdString} (noBackslash : 92 ∉ name)
    (h : stringText s = name) : contents s = some name := by
  subst h
  exact contents_plain (plain_of_noBackslash noBackslash)

theorem named_mem {name : StdString} {ms : List (Member Json)} {v : Json}
    (h : named name ms = some v) : ∃ m ∈ ms, contents m.name = some name ∧ m.value = v := by
  rw [named, Option.map_eq_some_iff] at h
  obtain ⟨m, found, rfl⟩ := h
  exact ⟨m, List.mem_of_find?_eq_some found, by simpa using List.find?_some found, rfl⟩

theorem written_mem {name : StdString} {ms : List (Member Json)} {v : Json}
    (h : written name ms = some v) : ∃ m ∈ ms, stringText m.name = name ∧ m.value = v := by
  rw [written, Option.map_eq_some_iff] at h
  obtain ⟨m, found, rfl⟩ := h
  exact ⟨m, List.mem_of_find?_eq_some found, by simpa using List.find?_some found, rfl⟩

/-- Where no name comes twice, what is spelled so is what says so. -/
theorem written_named {name : StdString} {ms : List (Member Json)} (distinct : Distinct ms)
    (noBackslash : 92 ∉ name) {v : Json} (h : written name ms = some v) :
    named name ms = some v := by
  induction ms with
  | nil => cases h
  | cons m ms ih =>
      rw [Distinct, List.map_cons, List.nodup_cons] at distinct
      rw [written, List.find?_cons] at h
      rw [named, List.find?_cons]
      split at h
      · next same =>
          have here : (contents m.name == some name) = true := by
            simpa using contents_written noBackslash (by simpa using same)
          rw [here]
          exact h
      · next other =>
          have later : written name ms = some v := h
          obtain ⟨m', mem, spelled, -⟩ := written_mem later
          have differs : (contents m.name == some name) = false := by
            rw [beq_eq_false_iff_ne]
            intro same
            refine distinct.1 (List.mem_map.2 ⟨m', mem, ?_⟩)
            rw [cName, cName, same, contents_written noBackslash spelled]
          rw [differs]
          exact ih distinct.2 later

end Names

section RapidMembers

variable {rapidDouble : StdString → Option Float}

/-- The first member of an object that parses, and the others. -/
theorem rapidMembers_cons {m : Member Json} {ms : List (Member Json)}
    {rms : List (StdString × RapidValue)} (parsed : rapidMembers rapidDouble (m :: ms) = some rms) :
    ∃ key x rest, contents m.name = some key ∧ rapidTree rapidDouble m.value = some x ∧
      rapidMembers rapidDouble ms = some rest ∧ rms = (key, x) :: rest := by
  obtain ⟨before, name, colonBefore, colonAfter, v, after⟩ := m
  simp only [rapidMembers, Option.bind_eq_bind, Option.bind_eq_some_iff, Option.pure_def,
    Option.some.injEq] at parsed
  obtain ⟨key, hkey, x, hx, rest, hrest, rfl⟩ := parsed
  exact ⟨key, x, rest, hkey, hx, hrest, rfl⟩

theorem rapidElements_cons {e : Element Json} {es : List (Element Json)} {xs : List RapidValue}
    (parsed : rapidElements rapidDouble (e :: es) = some xs) :
    ∃ x xs', rapidTree rapidDouble e.value = some x ∧ rapidElements rapidDouble es = some xs' ∧
      xs = x :: xs' := by
  obtain ⟨before, v, after⟩ := e
  simp only [rapidElements, Option.bind_eq_bind, Option.bind_eq_some_iff, Option.pure_def,
    Option.some.injEq] at parsed
  obtain ⟨x, tree, xs', trees, rfl⟩ := parsed
  exact ⟨x, xs', tree, trees, rfl⟩

/-- `operator[]` of the object that is parsed. -/
theorem index_named {ms : List (Member Json)} {rms : List (StdString × RapidValue)}
    (parsed : rapidMembers rapidDouble ms = some rms) (name : StdString) :
    RapidValue.index rms name = (named name ms).bind (rapidTree rapidDouble) := by
  induction ms generalizing rms with
  | nil => cases parsed; rfl
  | cons m ms ih =>
      obtain ⟨key, x, rest, hkey, hx, hrest, rfl⟩ := rapidMembers_cons parsed
      rw [RapidValue.index, named, List.find?_cons, List.find?_cons, hkey]
      by_cases same : key = name
      · subst same
        simp [hx]
      · have differs : (some key == some name) = false := by simpa using same
        have differs' : (key == name) = false := by simpa using same
        rw [differs, differs']
        exact ih hrest

theorem named_parsed {ms : List (Member Json)} {rms : List (StdString × RapidValue)}
    (parsed : rapidMembers rapidDouble ms = some rms) {name : StdString} {v : Json}
    (h : named name ms = some v) : ∃ x, rapidTree rapidDouble v = some x ∧ (name, x) ∈ rms := by
  obtain ⟨m, mem, name_, rfl⟩ := named_mem h
  clear h
  induction ms generalizing rms with
  | nil => cases mem
  | cons m' ms ih =>
      obtain ⟨key, x, rest, hkey, hx, hrest, rfl⟩ := rapidMembers_cons parsed
      obtain rfl | later := List.mem_cons.1 mem
      · rw [name_] at hkey
        cases hkey
        exact ⟨x, hx, List.mem_cons_self⟩
      · obtain ⟨x, hx, there⟩ := ih hrest later
        exact ⟨x, hx, List.mem_cons_of_mem _ there⟩

theorem parsed_names {ms : List (Member Json)} {rms : List (StdString × RapidValue)}
    (parsed : rapidMembers rapidDouble ms = some rms) :
    (rms.map fun m => some (m.1.takeWhile (· ≠ 0))) = ms.map cName := by
  induction ms generalizing rms with
  | nil => cases parsed; rfl
  | cons m ms ih =>
      obtain ⟨key, x, rest, hkey, hx, hrest, rfl⟩ := rapidMembers_cons parsed
      rw [List.map_cons, List.map_cons, ih hrest, cName, hkey]
      rfl

theorem takeWhile_noNul {name : StdString} (noNul : 0 ∉ name) :
    name.takeWhile (· ≠ 0) = name := by
  rw [List.takeWhile_eq_self_iff]
  intro c here
  have nonzero : c ≠ 0 := fun zero => noNul (zero ▸ here)
  simpa using nonzero

/-- A member that `strcmp` takes for the name is the one that has it. -/
theorem strcmp_named {ms : List (Member Json)} {rms : List (StdString × RapidValue)}
    (parsed : rapidMembers rapidDouble ms = some rms) (distinct : Distinct ms) {name : StdString}
    (noNul : 0 ∉ name) {v : Json} (h : named name ms = some v) {m : StdString × RapidValue}
    (mem : m ∈ rms) (same : strcmp m.1 name = true) :
    m.1 = name ∧ rapidTree rapidDouble v = some m.2 := by
  obtain ⟨x, hx, there⟩ := named_parsed parsed h
  have nodup : (rms.map fun m => some (m.1.takeWhile (· ≠ 0))).Nodup := by
    rw [parsed_names parsed]
    exact distinct
  have one : m = (name, x) := by
    refine List.inj_on_of_nodup_map nodup mem there ?_
    rw [takeWhile_noNul noNul, eq_of_beq same]
  rw [one]
  exact ⟨rfl, hx⟩

end RapidMembers

section EncodedMembers

variable {lexicalDouble : StdString → Option Float}

theorem lookup_append (ms ps : List (StdString × JsonValue)) (name : StdString) :
    JsonValue.lookup name (ms ++ ps) = (JsonValue.lookup name ms).or (JsonValue.lookup name ps) := by
  simp only [JsonValue.lookup, List.find?_append, Option.map_or]

theorem lookup_insert (ms : List (StdString × JsonValue)) (p : StdString × JsonValue)
    (name : StdString) : JsonValue.lookup name (Encoders.insert ms p.1 p.2) =
      JsonValue.lookup name (ms ++ [p]) := by
  rw [Encoders.insert]
  split
  · next here =>
      rw [lookup_append]
      by_cases same : p.1 = name
      · subst same
        obtain ⟨v, found⟩ := Option.isSome_iff_exists.1 here
        rw [found]
        rfl
      · have none_ : JsonValue.lookup name [p] = none := by simp [JsonValue.lookup, same]
        rw [none_, Option.or_none]
  · rfl

/-- Of the members of one name, the first counts. -/
theorem lookup_insertAll (ps ms : List (StdString × JsonValue)) (name : StdString) :
    JsonValue.lookup name (insertAll ps ms) = JsonValue.lookup name (ms ++ ps) := by
  induction ps generalizing ms with
  | nil => rw [List.append_nil]; rfl
  | cons p ps ih =>
      rw [insertAll, List.foldl_cons, ← insertAll, ih, lookup_append, lookup_insert, ← lookup_append,
        List.append_assoc, List.singleton_append]

theorem lookup_written {ms : List (Member Json)} {ps : List (StdString × JsonValue)}
    (taken : encodedMembers lexicalDouble ms = .ok ps) (name : StdString) :
    JsonValue.lookup name ps = (written name ms).bind fun v => (encoded lexicalDouble v).toOption := by
  induction ms generalizing ps with
  | nil => cases taken; rfl
  | cons m ms ih =>
      obtain ⟨x, ps', value, more, rfl⟩ := encodedMembers_cons taken
      rw [JsonValue.lookup, written, List.find?_cons, List.find?_cons]
      by_cases same : stringText m.name = name
      · simp [same, value, Except.toOption]
      · have differs : (stringText m.name == name) = false := by simpa using same
        rw [differs]
        exact ih more

/-- What `operator[]` of the map finds. -/
theorem item_written {ms : List (Member Json)} {ps : List (StdString × JsonValue)}
    (taken : encodedMembers lexicalDouble ms = .ok ps) (name : StdString) :
    JsonValue.lookup name (insertAll ps []) =
      (written name ms).bind fun v => (encoded lexicalDouble v).toOption := by
  rw [lookup_insertAll, List.nil_append, lookup_written taken]

end EncodedMembers

section Fields

/-! What a request or an impression has after all members. -/

open OpenRtb RapidExtractors

/-- A part of the result that members of one kind alone decide, and each of them anew. -/
theorem foldlM_field {f : S → M → Option S} {field : S → A} (P : M → Bool) (get : M → Option A)
    (step : ∀ s m s', f s m = some s' →
      if P m then get m = some (field s') else field s' = field s)
    {ms : List M} {m : M} (mem : m ∈ ms) (here : P m = true) (only : ∀ m' ∈ ms, P m' = true → m' = m)
    {s s' : S} (run : ms.foldlM f s = some s') : get m = some (field s') := by
  -- the field is right from the member on
  have kept : ∀ (ms : List M) (s s' : S), (∀ m' ∈ ms, P m' = true → m' = m) →
      get m = some (field s) → ms.foldlM f s = some s' → get m = some (field s') := by
    intro ms
    induction ms with
    | nil =>
        intro s s' _ right run
        cases run
        exact right
    | cons m' ms ih =>
        intro s s' only right run
        rw [List.foldlM_cons, Option.bind_eq_bind, Option.bind_eq_some_iff] at run
        obtain ⟨next, one, run⟩ := run
        rw [List.forall_mem_cons] at only
        refine ih next s' only.2 ?_ run
        have change := step _ _ _ one
        cases named : P m' with
        | true =>
            rw [named, if_pos rfl, only.1 named] at change
            exact change
        | false =>
            rw [named, if_neg Bool.false_ne_true] at change
            rwa [change]
  induction ms generalizing s with
  | nil => cases mem
  | cons m' ms ih =>
      rw [List.foldlM_cons, Option.bind_eq_bind, Option.bind_eq_some_iff] at run
      obtain ⟨next, one, run⟩ := run
      rw [List.forall_mem_cons] at only
      obtain rfl | later := List.mem_cons.1 mem
      · have change := step _ _ _ one
        rw [here, if_pos rfl] at change
        exact kept ms next s' only.2 change run
      · exact ih later only.2 run

theorem strcmp_apart {name literal literal' : StdString} (here : strcmp name literal = true)
    (apart : literal ≠ literal') : strcmp name literal' = false := by
  rw [← Bool.not_eq_true]
  exact fun there => apart (strcmp_unique here there)

/-- What one member does to an impression. -/
theorem impressionMember_cases {imp imp' : Impression StdString} {m : StdString × RapidValue}
    (h : impressionMember imp m = some imp') :
    (strcmp m.1 (ascii "id") = true ∧ ∃ id, m.2.getString = some id ∧ imp' = { imp with id }) ∨
    (strcmp m.1 (ascii "banner") = true ∧ ∃ banner, RapidExtractors.banner m.2 = some banner ∧
      imp' = { imp with banner }) ∨
    (strcmp m.1 (ascii "bidfloor") = true ∧ ∃ bidfloor, m.2.getDouble = some bidfloor ∧
      imp' = { imp with bidfloor }) ∨
    (strcmp m.1 (ascii "bidfloorcur") = true ∧ ∃ bidfloorcur, m.2.getString = some bidfloorcur ∧
      imp' = { imp with bidfloorcur }) ∨
    (strcmp m.1 (ascii "id") = false ∧ strcmp m.1 (ascii "banner") = false ∧
      strcmp m.1 (ascii "bidfloor") = false ∧ strcmp m.1 (ascii "bidfloorcur") = false ∧
      imp' = imp) := by
  rw [impressionMember] at h
  split_ifs at h with id banner bidfloor bidfloorcur
  · rw [Option.map_eq_some_iff] at h
    obtain ⟨a, got, rfl⟩ := h
    exact .inl ⟨id, a, got, rfl⟩
  · rw [Option.map_eq_some_iff] at h
    obtain ⟨a, got, rfl⟩ := h
    exact .inr (.inl ⟨banner, a, got, rfl⟩)
  · rw [Option.map_eq_some_iff] at h
    obtain ⟨a, got, rfl⟩ := h
    exact .inr (.inr (.inl ⟨bidfloor, a, got, rfl⟩))
  · rw [Option.map_eq_some_iff] at h
    obtain ⟨a, got, rfl⟩ := h
    exact .inr (.inr (.inr (.inl ⟨bidfloorcur, a, got, rfl⟩)))
  · cases h
    exact .inr (.inr (.inr (.inr (by simp_all))))

/-- What one member does to a request. -/
theorem requestMember_cases {r r' : BidRequest StdString} {m : StdString × RapidValue}
    (h : requestMember r m = some r') :
    (m.1 = ascii "id" ∧ ∃ id, m.2.getString = some id ∧ r' = { r with id }) ∨
    (strcmp m.1 (ascii "imp") = true ∧ ∃ imp, vector impression m.2 = some imp ∧
      r' = { r with imp }) ∨
    (strcmp m.1 (ascii "user") = true ∧ ∃ user, RapidExtractors.user m.2 = some user ∧
      r' = { r with user }) ∨
    (strcmp m.1 (ascii "site") = true ∧ ∃ site, RapidExtractors.site m.2 = some site ∧
      r' = { r with site }) ∨
    (m.1 ≠ ascii "id" ∧ strcmp m.1 (ascii "imp") = false ∧ strcmp m.1 (ascii "user") = false ∧
      strcmp m.1 (ascii "site") = false ∧ r' = r) := by
  rw [requestMember] at h
  split_ifs at h with id imp user site
  · rw [Option.map_eq_some_iff] at h
    obtain ⟨a, got, rfl⟩ := h
    exact .inl ⟨(named_id m.1).1 id, a, got, rfl⟩
  · rw [Option.map_eq_some_iff] at h
    obtain ⟨a, got, rfl⟩ := h
    exact .inr (.inl ⟨imp, a, got, rfl⟩)
  · rw [Option.map_eq_some_iff] at h
    obtain ⟨a, got, rfl⟩ := h
    exact .inr (.inr (.inl ⟨user, a, got, rfl⟩))
  · rw [Option.map_eq_some_iff] at h
    obtain ⟨a, got, rfl⟩ := h
    exact .inr (.inr (.inr (.inl ⟨site, a, got, rfl⟩)))
  · cases h
    exact .inr (.inr (.inr (.inr ⟨mt (named_id m.1).2 id, by simp_all⟩)))

/-- A member decides what its name is for. -/
theorem decided {name literal : StdString} {P Q : Prop} (here : strcmp name literal = true)
    (holds : P) : if strcmp name literal then P else Q := by
  rwa [here, if_pos rfl]

/-- And leaves what another name is for. -/
theorem untouched {name literal : StdString} {P Q : Prop} (elsewhere : strcmp name literal = false)
    (holds : Q) : if strcmp name literal then P else Q := by
  rwa [elsewhere, if_neg Bool.false_ne_true]

/-- Each part of an impression is decided by the members of one name. -/
theorem impressionMember_fields {imp imp' : Impression StdString} {m : StdString × RapidValue}
    (h : impressionMember imp m = some imp') :
    (if strcmp m.1 (ascii "id") then m.2.getString = some imp'.id else imp'.id = imp.id) ∧
    (if strcmp m.1 (ascii "banner") then RapidExtractors.banner m.2 = some imp'.banner
      else imp'.banner = imp.banner) ∧
    (if strcmp m.1 (ascii "bidfloor") then m.2.getDouble = some imp'.bidfloor
      else imp'.bidfloor = imp.bidfloor) ∧
    (if strcmp m.1 (ascii "bidfloorcur") then m.2.getString = some imp'.bidfloorcur
      else imp'.bidfloorcur = imp.bidfloorcur) := by
  obtain ⟨here, a, got, rfl⟩ | ⟨here, a, got, rfl⟩ | ⟨here, a, got, rfl⟩ | ⟨here, a, got, rfl⟩ |
    ⟨id, banner, bidfloor, bidfloorcur, rfl⟩ := impressionMember_cases h
  · exact ⟨decided here got, untouched (strcmp_apart here (by decide)) rfl,
      untouched (strcmp_apart here (by decide)) rfl, untouched (strcmp_apart here (by decide)) rfl⟩
  · exact ⟨untouched (strcmp_apart here (by decide)) rfl, decided here got,
      untouched (strcmp_apart here (by decide)) rfl, untouched (strcmp_apart here (by decide)) rfl⟩
  · exact ⟨untouched (strcmp_apart here (by decide)) rfl,
      untouched (strcmp_apart here (by decide)) rfl, decided here got,
      untouched (strcmp_apart here (by decide)) rfl⟩
  · exact ⟨untouched (strcmp_apart here (by decide)) rfl,
      untouched (strcmp_apart here (by decide)) rfl, untouched (strcmp_apart here (by decide)) rfl,
      decided here got⟩
  · exact ⟨untouched id rfl, untouched banner rfl, untouched bidfloor rfl,
      untouched bidfloorcur rfl⟩

/-- The one member that is asked for by name with `strcmp`. -/
theorem member_field {rapidDouble : StdString → Option Float}
    {f : S → StdString × RapidValue → Option S} {field : S → A} {get : RapidValue → Option A}
    {name : StdString}
    (step : ∀ s m s', f s m = some s' →
      if strcmp m.1 name then get m.2 = some (field s') else field s' = field s)
    {ms : List (Member Json)} {rms : List (StdString × RapidValue)}
    (parsed : rapidMembers rapidDouble ms = some rms) (distinct : Distinct ms) (noNul : 0 ∉ name)
    {v : Json} (h : named name ms = some v) {s s' : S} (run : rms.foldlM f s = some s') :
    (rapidTree rapidDouble v).bind get = some (field s') := by
  obtain ⟨x, hx, there⟩ := named_parsed parsed h
  have same : strcmp name name = true := by
    rw [strcmp, takeWhile_noNul noNul]
    exact beq_self_eq_true name
  rw [hx, Option.bind_some]
  refine foldlM_field (fun m => strcmp m.1 name) (fun m => get m.2) step there same ?_ run
  intro m' mem' named'
  obtain ⟨key, tree⟩ := strcmp_named parsed distinct noNul h mem' named'
  rw [hx] at tree
  exact Prod.ext key (Option.some.inj tree).symm

/-- And so is each part of a request, where an identifier has to have its own length as well. -/
theorem requestMember_fields {r r' : BidRequest StdString} {m : StdString × RapidValue}
    (h : requestMember r m = some r') :
    (if m.1 == ascii "id" then m.2.getString = some r'.id else r'.id = r.id) ∧
    (if strcmp m.1 (ascii "imp") then vector impression m.2 = some r'.imp else r'.imp = r.imp) ∧
    (if strcmp m.1 (ascii "user") then RapidExtractors.user m.2 = some r'.user
      else r'.user = r.user) ∧
    (if strcmp m.1 (ascii "site") then RapidExtractors.site m.2 = some r'.site
      else r'.site = r.site) := by
  have unnamed {P Q : Prop} (other : m.1 ≠ ascii "id") (holds : Q) :
      if m.1 == ascii "id" then P else Q := by
    rwa [beq_eq_false_iff_ne.2 other, if_neg Bool.false_ne_true]
  have id_apart {literal : StdString} (here : strcmp m.1 literal = true)
      (apart : strcmp (ascii "id") literal = false) : m.1 ≠ ascii "id" := by
    intro same
    rw [same, apart] at here
    cases here
  obtain ⟨here, a, got, rfl⟩ | ⟨here, a, got, rfl⟩ | ⟨here, a, got, rfl⟩ | ⟨here, a, got, rfl⟩ |
    ⟨id, imp, user, site, rfl⟩ := requestMember_cases h
  · rw [here, beq_self_eq_true, if_pos rfl]
    exact ⟨got, untouched (by decide) rfl, untouched (by decide) rfl, untouched (by decide) rfl⟩
  · exact ⟨unnamed (id_apart here (by decide)) rfl, decided here got,
      untouched (strcmp_apart here (by decide)) rfl, untouched (strcmp_apart here (by decide)) rfl⟩
  · exact ⟨unnamed (id_apart here (by decide)) rfl, untouched (strcmp_apart here (by decide)) rfl,
      decided here got, untouched (strcmp_apart here (by decide)) rfl⟩
  · exact ⟨unnamed (id_apart here (by decide)) rfl, untouched (strcmp_apart here (by decide)) rfl,
      untouched (strcmp_apart here (by decide)) rfl, decided here got⟩
  · exact ⟨unnamed id rfl, untouched imp rfl, untouched user rfl, untouched site rfl⟩

end Fields

end VanillaRtb.Dsl
