import VanillaRtb.Dsl.Impressions

/-! # One bid request through two mappers

Both mappers come to one request where the body is spelled for both, and hardly anywhere
else: a user or a site that one of them does not find is another request.
-/

namespace VanillaRtb.Dsl

open Lib Lib.JsonText Parsers OpenRtb Encoders

section Places

variable {lexicalDouble rapidDouble : StdString → Option Float} {ms : List (Member Json)}
  {m : List (StdString × JsonValue)} {rms : List (StdString × RapidValue)}

theorem any_optional (extract : List (StdString × JsonValue) → Option T)
    (m : List (StdString × JsonValue)) :
    AnyExtractors.optional extract (.object m) = (extract m).map some := rfl

theorem any_geo_iff (city country : StdString) :
    (∃ a, AnyExtractors.geo (.object m) = some (some a) ∧ place a = (city, country)) ↔
      AnyExtractors.asString (AnyExtractors.item m (ascii "city")) = some city ∧
        AnyExtractors.asString (AnyExtractors.item m (ascii "country")) = some country := by
  rw [AnyExtractors.geo, any_optional]
  cases AnyExtractors.asString (AnyExtractors.item m (ascii "city")) with
  | none => simp
  | some a =>
      cases AnyExtractors.asString (AnyExtractors.item m (ascii "country")) with
      | none => simp
      | some b => simp [place]

section

variable (both : InBoth lexicalDouble rapidDouble ms m rms)
include both

/-- A string is read by rapidjson, whatever its spelling. -/
theorem InBoth.string_read {name : StdString} {s : List Character}
    (h : named name ms = some (.string s)) :
    ∃ t, contents s = some t ∧ RapidValue.access RapidValue.getString rms name = some t := by
  obtain ⟨x, tree, -⟩ := named_parsed both.parsed h
  rw [rapidTree, Option.map_eq_some_iff] at tree
  obtain ⟨t, reads, -⟩ := tree
  exact ⟨t, reads, by rw [both.access_named h, getString_tree, reads]⟩

theorem InBoth.geo_agree (geo : IsGeo ms) :
    ∃ g, RapidExtractors.geo (.object rms) = some (some g) ∧
      ((∃ a, AnyExtractors.geo (.object m) = some (some a) ∧ place a = place g) ↔ GeoPlain ms) := by
  obtain ⟨s, hasCity⟩ := geo.city
  obtain ⟨s', hasCountry⟩ := geo.country
  obtain ⟨city, readsCity, accessCity⟩ := both.string_read hasCity
  obtain ⟨country, readsCountry, accessCountry⟩ := both.string_read hasCountry
  refine ⟨{ city, country }, ?_, ?_⟩
  · rw [RapidExtractors.geo, RapidExtractors.optional, accessCity, accessCountry]
    rfl
  · have plain : GeoPlain ms ↔ PlainString (ascii "city") ms ∧ PlainString (ascii "country") ms :=
      ⟨fun plain => ⟨plain.city, plain.country⟩, fun both => ⟨both.1, both.2⟩⟩
    rw [place, any_geo_iff, both.plainString_iff (by decide) hasCity readsCity,
      both.plainString_iff (by decide) hasCountry readsCountry, plain]

theorem InBoth.user_agree (user : IsUser ms) :
    ∃ u, RapidExtractors.user (.object rms) = some (some u) ∧
      ((∃ a, AnyExtractors.user (.object m) = some (some a) ∧ locationView a = locationView u) ↔
        PlainObject (ascii "geo") GeoPlain ms) := by
  obtain ⟨_, hasGeo, ms', space, rfl, isGeo⟩ := user.geo
  obtain ⟨m', rms', both', tree, inner⟩ := both.inner (by decide) hasGeo isGeo.distinct
  obtain ⟨g, read, agree⟩ := both'.geo_agree isGeo
  refine ⟨{ geo := some g }, ?_, ?_⟩
  · rw [RapidExtractors.user, RapidExtractors.optional, both.access_named hasGeo, tree,
      Option.bind_some, read]
    rfl
  · rw [AnyExtractors.user, any_optional]
    obtain ⟨unwritten, null⟩ | ⟨here, object⟩ := inner
    · rw [null]
      refine iff_of_false ?_ (plainObject_unwritten unwritten)
      rintro ⟨a, none_, same⟩
      cases none_
      cases same
    · rw [object, plainObject_iff here, ← agree]
      simp [locationView]

theorem InBoth.site_agree (site : IsSite ms) :
    ∃ s, RapidExtractors.site (.object rms) = some (some s) ∧
      ((∃ a, AnyExtractors.site (.object m) = some (some a) ∧ a.id = s.id) ↔
        PlainString (ascii "id") ms) := by
  obtain ⟨s, hasId⟩ := site.id
  obtain ⟨s', hasRef⟩ := site.ref
  obtain ⟨id, readsId, accessId⟩ := both.string_read hasId
  obtain ⟨ref, -, accessRef⟩ := both.string_read hasRef
  refine ⟨{ id, ref }, ?_, ?_⟩
  · rw [RapidExtractors.site, RapidExtractors.optional, accessId, accessRef]
    rfl
  · rw [AnyExtractors.site, any_optional, ← both.plainString_iff (by decide) hasId readsId]
    simp

end

end Places

section Elements

variable {lexicalDouble rapidDouble : StdString → Option Float}

theorem ofObject_iff {P : List (Member Json) → Prop} {ms : List (Member Json)} {space : Space} :
    OfObject P (.object ms space) ↔ P ms := by
  constructor
  · rintro ⟨_, _, same, holds⟩
    cases same
    exact holds
  · exact fun holds => ⟨ms, space, rfl, holds⟩

theorem impressionOf_agree_iff {v : Json} (imp : OfObject IsImpression v)
    {y : JsonValue} (taken : encoded lexicalDouble v = .ok y) {x : RapidValue}
    (parsed : rapidTree rapidDouble v = some x) :
    ImpressionsAgree y x ↔ OfObject (ImpressionPlain lexicalDouble rapidDouble) v := by
  obtain ⟨ms, space, rfl, imp⟩ := imp
  rw [rapidTree, Option.map_eq_some_iff] at parsed
  obtain ⟨rms, members, rfl⟩ := parsed
  obtain ⟨ps, pairs, rfl⟩ := map_eq_ok.mp taken
  rw [ofObject_iff]
  exact impression_agree_iff ⟨⟨imp.distinct, ps, pairs, rfl⟩, members⟩ imp

/-- What both make of the impressions is the same, one by one. -/
theorem elements_agree_iff {es : List (Element Json)}
    (each : ∀ e ∈ es, OfObject IsImpression e.value) {ys : List JsonValue}
    (taken : encodedElements lexicalDouble es = .ok ys) {xs : List RapidValue}
    (parsed : rapidElements rapidDouble es = some xs) :
    (∃ imps, xs.mapM RapidExtractors.impression = some imps ∧ ∀ indeterminate,
      (ys.map (AnyExtractors.impression indeterminate)).map impressionView =
        imps.map impressionView) ↔
      ∀ e ∈ es, OfObject (ImpressionPlain lexicalDouble rapidDouble) e.value := by
  induction es generalizing ys xs with
  | nil =>
      cases taken
      cases parsed
      exact iff_of_true ⟨[], rfl, fun _ => rfl⟩ nofun
  | cons e es ih =>
      obtain ⟨y, ys', value, more, rfl⟩ := encodedElements_cons taken
      obtain ⟨x, xs', tree, trees, rfl⟩ := rapidElements_cons parsed
      rw [List.forall_mem_cons] at each ⊢
      rw [← impressionOf_agree_iff each.1 value tree, ← ih each.2 more trees, ImpressionsAgree]
      simp only [List.mapM_cons, Option.bind_eq_bind, Option.bind_eq_some_iff, Option.pure_def,
        Option.some.injEq, List.map_cons]
      constructor
      · rintro ⟨_, ⟨imp, read, imps, reads, rfl⟩, agree⟩
        simp only [List.map_cons, List.cons.injEq] at agree
        exact ⟨⟨imp, read, fun i => (agree i).1⟩, imps, reads, fun i => (agree i).2⟩
      · rintro ⟨⟨imp, read, agree⟩, imps, reads, agrees⟩
        refine ⟨imp :: imps, ⟨imp, read, imps, reads, rfl⟩, fun i => ?_⟩
        rw [List.map_cons, agree i, agrees i]

end Elements

section Requests

variable {lexicalDouble rapidDouble : StdString → Option Float} {ms : List (Member Json)}
  {m : List (StdString × JsonValue)} {rms : List (StdString × RapidValue)}

theorem any_request_unnamed (indeterminate : AdPosition)
    (unnamed : AnyExtractors.asString (AnyExtractors.item m (ascii "id")) = none) :
    AnyExtractors.bidRequest indeterminate (.object m) = {} := by
  simp [AnyExtractors.bidRequest, AnyExtractors.asMap, AnyExtractors.attempt, unnamed]

/-- A site is read after a user only. -/
theorem any_request {id : StdString} {imps : List (Impression StdString)}
    (indeterminate : AdPosition)
    (hasId : AnyExtractors.asString (AnyExtractors.item m (ascii "id")) = some id)
    (imp : AnyExtractors.vector (AnyExtractors.impression indeterminate)
      (AnyExtractors.item m (ascii "imp")) = some imps) :
    AnyExtractors.bidRequest indeterminate (.object m) =
      { id
        imp := imps
        user := (AnyExtractors.user (AnyExtractors.item m (ascii "user"))).getD none
        site := ((AnyExtractors.user (AnyExtractors.item m (ascii "user"))).bind fun _ =>
          AnyExtractors.site (AnyExtractors.item m (ascii "site"))).getD none } := by
  simp only [AnyExtractors.bidRequest, AnyExtractors.asMap, AnyExtractors.attempt, hasId, imp,
    Option.map_some]
  cases AnyExtractors.user (AnyExtractors.item m (ascii "user")) with
  | none => rfl
  | some user => cases AnyExtractors.site (AnyExtractors.item m (ascii "site")) <;> rfl

theorem any_request_iff {id : StdString} {imps : List (Impression StdString)}
    (indeterminate : AdPosition)
    (hasId : AnyExtractors.asString (AnyExtractors.item m (ascii "id")) = some id)
    (imp : AnyExtractors.vector (AnyExtractors.impression indeterminate)
      (AnyExtractors.item m (ascii "imp")) = some imps) (r : BidRequest StdString) :
    requestView (AnyExtractors.bidRequest indeterminate (.object m)) = requestView r ↔
      id = r.id ∧ imps.map impressionView = r.imp.map impressionView ∧
        ((AnyExtractors.user (AnyExtractors.item m (ascii "user"))).getD none).map locationView =
          r.user.map locationView ∧
        (((AnyExtractors.user (AnyExtractors.item m (ascii "user"))).bind fun _ =>
          AnyExtractors.site (AnyExtractors.item m (ascii "site"))).getD none).map Site.id =
            r.site.map Site.id := by
  rw [any_request indeterminate hasId imp, requestView, requestView, RequestView.mk.injEq]

/-- What both make of a request is the same, whatever was there before. -/
def RequestsAgree (y : JsonValue) (x : RapidValue) : Prop :=
  ∃ r, RapidExtractors.bidRequest x = some r ∧ ∀ indeterminate,
    requestView (AnyExtractors.bidRequest indeterminate y) = requestView r

/-- An optional object that is missing in one tree. -/
theorem optional_agree_iff {extract : JsonValue → Option (Option T)} {view : T → V} {w : V}
    {name : StdString} {P : List (Member Json) → Prop} {ms' : List (Member Json)} {space : Space}
    {m' : List (StdString × JsonValue)} (empty : extract .null = some none)
    (inner : written name ms = none ∧ AnyExtractors.item m name = .null ∨
      written name ms = some (.object ms' space) ∧ AnyExtractors.item m name = .object m')
    (agree : (∃ a, extract (.object m') = some (some a) ∧ view a = w) ↔ P ms') :
    ((extract (AnyExtractors.item m name)).getD none).map view = some w ↔
      PlainObject name P ms := by
  obtain ⟨unwritten, null⟩ | ⟨here, object⟩ := inner
  · rw [null, empty]
    exact iff_of_false nofun (plainObject_unwritten unwritten)
  · rw [object, plainObject_iff here, ← agree]
    cases extract (.object m') with
    | none => simp
    | some a => simp

theorem after_some {first : Option (Option T)} {view : T → V} {w : V}
    (h : (first.getD none).map view = some w) (second : Option A) :
    (first.bind fun _ => second) = second := by
  cases first with
  | none => cases h
  | some a => rfl

/-- The impressions that are taken out of the map. -/
theorem InMap.imp_cases (map : InMap lexicalDouble ms m) {es : List (Element Json)} {space : Space}
    (hasImp : named (ascii "imp") ms = some (.array es space)) :
    (written (ascii "imp") ms = none ∧ ∀ indeterminate,
      AnyExtractors.vector (AnyExtractors.impression indeterminate)
        (AnyExtractors.item m (ascii "imp")) = some []) ∨
    (written (ascii "imp") ms = some (.array es space) ∧ ∃ ys,
      encodedElements lexicalDouble es = .ok ys ∧ ∀ indeterminate,
        AnyExtractors.vector (AnyExtractors.impression indeterminate)
          (AnyExtractors.item m (ascii "imp")) =
            some (ys.map (AnyExtractors.impression indeterminate))) := by
  obtain ⟨unwritten, null⟩ | ⟨here, value⟩ := map.item_cases (by decide) hasImp
  · rw [null]
    exact .inl ⟨unwritten, fun _ => rfl⟩
  · obtain ⟨ys, taken, array⟩ := map_eq_ok.mp value
    rw [← array]
    exact .inr ⟨here, ys, taken, fun _ => rfl⟩

theorem InMap.any_imp (map : InMap lexicalDouble ms m) {es : List (Element Json)} {space : Space}
    (hasImp : named (ascii "imp") ms = some (.array es space)) (indeterminate : AdPosition) :
    ∃ imps, AnyExtractors.vector (AnyExtractors.impression indeterminate)
      (AnyExtractors.item m (ascii "imp")) = some imps := by
  obtain ⟨-, none_⟩ | ⟨-, ys, -, some_⟩ := map.imp_cases hasImp
  · exact ⟨[], none_ indeterminate⟩
  · exact ⟨_, some_ indeterminate⟩

variable (both : InBoth lexicalDouble rapidDouble ms m rms)
include both

/-- What rapidjson reads of a request. -/
theorem InBoth.rapid_request {s : List Character} {imps user site : Json}
    (hasId : named (ascii "id") ms = some (.string s))
    (hasImp : named (ascii "imp") ms = some imps) (hasUser : named (ascii "user") ms = some user)
    (hasSite : named (ascii "site") ms = some site)
    {r : BidRequest StdString} (read : RapidExtractors.bidRequest (.object rms) = some r) :
    contents s = some r.id ∧
      (rapidTree rapidDouble imps).bind (RapidExtractors.vector RapidExtractors.impression) =
        some r.imp ∧
      (rapidTree rapidDouble user).bind RapidExtractors.user = some r.user ∧
      (rapidTree rapidDouble site).bind RapidExtractors.site = some r.site := by
  refine ⟨?_, ?_, ?_, ?_⟩
  · obtain ⟨x, tree, there⟩ := named_parsed both.parsed hasId
    rw [← getString_tree rapidDouble s, tree]
    refine foldlM_field (fun m => m.1 == ascii "id") (fun m => m.2.getString)
      (fun _ _ _ h => (requestMember_fields h).1) there (beq_self_eq_true _) ?_ read
    intro m' mem' same
    have same' : strcmp m'.1 (ascii "id") = true := by
      rw [eq_of_beq same]
      decide
    obtain ⟨key, tree'⟩ := strcmp_named both.parsed both.distinct (by decide) hasId mem' same'
    rw [tree] at tree'
    exact Prod.ext key (Option.some.inj tree').symm
  · exact member_field (fun _ _ _ h => (requestMember_fields h).2.1) both.parsed both.distinct
      (by decide) hasImp read
  · exact member_field (fun _ _ _ h => (requestMember_fields h).2.2.1) both.parsed both.distinct
      (by decide) hasUser read
  · exact member_field (fun _ _ _ h => (requestMember_fields h).2.2.2) both.parsed both.distinct
      (by decide) hasSite read

/-- It reads a request of which it can read the impressions, the user and the site. -/
theorem InBoth.rapid_request_isSome {s : List Character} {imps user site : Json}
    (hasId : named (ascii "id") ms = some (.string s))
    (hasImp : named (ascii "imp") ms = some imps) (hasUser : named (ascii "user") ms = some user)
    (hasSite : named (ascii "site") ms = some site)
    (readImp : ((rapidTree rapidDouble imps).bind
      (RapidExtractors.vector RapidExtractors.impression)).isSome = true)
    (readUser : ((rapidTree rapidDouble user).bind RapidExtractors.user).isSome = true)
    (readSite : ((rapidTree rapidDouble site).bind RapidExtractors.site).isSome = true) :
    (RapidExtractors.bidRequest (.object rms)).isSome = true := by
  refine (foldlM_isSome_iff requestMember_isSome {} rms).2 fun member mem => ?_
  refine ⟨fun same => ?_, fun same => ?_, fun same => ?_, fun same => ?_⟩
  · have same' : strcmp member.1 (ascii "id") = true := by
      rw [same]
      decide
    obtain ⟨-, tree⟩ := strcmp_named both.parsed both.distinct (by decide) hasId mem same'
    exact isString_tree tree
  · obtain ⟨-, tree⟩ := strcmp_named both.parsed both.distinct (by decide) hasImp mem same
    rwa [tree, Option.bind_some, vector_isSome impression_isSome] at readImp
  · obtain ⟨-, tree⟩ := strcmp_named both.parsed both.distinct (by decide) hasUser mem same
    rwa [tree, Option.bind_some, user_isSome] at readUser
  · obtain ⟨-, tree⟩ := strcmp_named both.parsed both.distinct (by decide) hasSite mem same
    rwa [tree, Option.bind_some, site_isSome] at readSite

/-- Impressions that only rapidjson finds are the same where there are none. -/
theorem InBoth.imp_unwritten_iff {es : List (Element Json)} {space : Space}
    (hasImp : named (ascii "imp") ms = some (.array es space)) :
    (∃ imps, (rapidTree rapidDouble (.array es space)).bind
        (RapidExtractors.vector RapidExtractors.impression) = some imps ∧
      [] = imps.map impressionView) ↔
      ∃ space, named (ascii "imp") ms = some (.array [] space) := by
  obtain ⟨x, tree, -⟩ := named_parsed both.parsed hasImp
  have elements := tree
  rw [rapidTree, Option.map_eq_some_iff] at elements
  obtain ⟨xs, parsed, rfl⟩ := elements
  rw [tree, Option.bind_some, RapidExtractors.vector]
  cases es with
  | nil =>
      cases parsed
      exact iff_of_true ⟨[], rfl, rfl⟩ ⟨space, hasImp⟩
  | cons e es =>
      obtain ⟨x, xs', -, -, rfl⟩ := rapidElements_cons parsed
      refine iff_of_false ?_ ?_
      · rintro ⟨imps, reads, nothing⟩
        simp only [List.mapM_cons, Option.bind_eq_bind, Option.bind_eq_some_iff, Option.pure_def,
          Option.some.injEq] at reads
        obtain ⟨imp, -, imps', -, rfl⟩ := reads
        cases nothing
      · rintro ⟨space', empty⟩
        rw [hasImp] at empty
        cases empty

theorem imp_agree_iff {es : List (Element Json)} {space : Space}
    (hasImp : named (ascii "imp") ms = some (.array es space))
    (each : ∀ e ∈ es, OfObject IsImpression e.value) :
    (∃ imps, (rapidTree rapidDouble (.array es space)).bind
        (RapidExtractors.vector RapidExtractors.impression) = some imps ∧
      ∀ indeterminate, ∃ imps', AnyExtractors.vector (AnyExtractors.impression indeterminate)
        (AnyExtractors.item m (ascii "imp")) = some imps' ∧
          imps'.map impressionView = imps.map impressionView) ↔
      (∃ es space, written (ascii "imp") ms = some (.array es space) ∧
        ∀ e ∈ es, OfObject (ImpressionPlain lexicalDouble rapidDouble) e.value) ∨
      ∃ space, named (ascii "imp") ms = some (.array [] space) := by
  obtain ⟨unwritten, none_⟩ | ⟨here, ys, taken, some_⟩ := both.toInMap.imp_cases hasImp
  · have something : Nonempty AdPosition := ⟨{}⟩
    rw [← both.imp_unwritten_iff hasImp, unwritten]
    simp [none_]
  · have plain : ((∃ es space, written (ascii "imp") ms = some (.array es space) ∧
          ∀ e ∈ es, OfObject (ImpressionPlain lexicalDouble rapidDouble) e.value) ∨
        ∃ space, named (ascii "imp") ms = some (.array [] space)) ↔
          ∀ e ∈ es, OfObject (ImpressionPlain lexicalDouble rapidDouble) e.value := by
      constructor
      · rintro (⟨_, _, here', plain⟩ | ⟨_, empty⟩)
        · rw [here] at here'
          cases here'
          exact plain
        · rw [hasImp] at empty
          cases empty
          exact fun e mem => absurd mem List.not_mem_nil
      · exact fun plain => .inl ⟨es, space, here, plain⟩
    obtain ⟨x, tree, -⟩ := named_parsed both.parsed hasImp
    have elements := tree
    rw [rapidTree, Option.map_eq_some_iff] at elements
    obtain ⟨xs, parsed, rfl⟩ := elements
    rw [plain, tree, Option.bind_some, RapidExtractors.vector, ← elements_agree_iff each taken parsed]
    simp only [some_, Option.some.injEq, exists_eq_left']

/-- The user and the site that rapidjson reads, and when the other one reads the same. -/
theorem InBoth.parties_agree (request : IsRequest ms) :
    ∃ user site,
      RapidValue.access RapidExtractors.user rms (ascii "user") = some (some user) ∧
      RapidValue.access RapidExtractors.site rms (ascii "site") = some (some site) ∧
      (((AnyExtractors.user (AnyExtractors.item m (ascii "user"))).getD none).map locationView =
        some (locationView user) ↔
          PlainObject (ascii "user") (PlainObject (ascii "geo") GeoPlain) ms) ∧
      (((AnyExtractors.site (AnyExtractors.item m (ascii "site"))).getD none).map Site.id =
        some site.id ↔ PlainObject (ascii "site") (PlainString (ascii "id")) ms) := by
  obtain ⟨_, hasUser, ums, uspace, rfl, isUser⟩ := request.user
  obtain ⟨_, hasSite, sms, sspace, rfl, isSite⟩ := request.site
  obtain ⟨um, urms, bothUser, treeUser, innerUser⟩ :=
    both.inner (by decide) hasUser isUser.distinct
  obtain ⟨sm, srms, bothSite, treeSite, innerSite⟩ :=
    both.inner (by decide) hasSite isSite.distinct
  obtain ⟨user, readUser, agreeUser⟩ := bothUser.user_agree isUser
  obtain ⟨site, readSite, agreeSite⟩ := bothSite.site_agree isSite
  refine ⟨user, site, ?_, ?_, optional_agree_iff rfl innerUser agreeUser,
    optional_agree_iff rfl innerSite agreeSite⟩
  · rwa [both.access_named hasUser, treeUser, Option.bind_some]
  · rwa [both.access_named hasSite, treeSite, Option.bind_some]

/-- The other one reads the same request exactly when it is spelled for both. -/
theorem request_views_iff (request : IsRequest ms) {r : BidRequest StdString}
    (read : RapidExtractors.bidRequest (.object rms) = some r) :
    (∀ indeterminate, requestView (AnyExtractors.bidRequest indeterminate (.object m)) =
      requestView r) ↔ RequestPlain lexicalDouble rapidDouble ms := by
  obtain ⟨s, hasId⟩ := request.id
  obtain ⟨es, space, hasImp, each⟩ := request.imp
  obtain ⟨_, hasUser, -⟩ := request.user
  obtain ⟨_, hasSite, -⟩ := request.site
  obtain ⟨user, site, userRead, siteRead, userPlain, sitePlain⟩ := both.parties_agree request
  obtain ⟨id, imps, sameUser, sameSite⟩ := both.rapid_request hasId hasImp hasUser hasSite read
  rw [← both.access_named hasUser, userRead, Option.some.injEq] at sameUser
  rw [← both.access_named hasSite, siteRead, Option.some.injEq] at sameSite
  have plainId := both.plainString_iff (by decide) hasId id
  have plainImp := imp_agree_iff both hasImp each
  constructor
  · intro agree
    cases named' : AnyExtractors.asString (AnyExtractors.item m (ascii "id")) with
    | none =>
        -- a request without a user is another one
        have same := congrArg RequestView.user (agree {})
        rw [any_request_unnamed {} named', requestView, requestView, ← sameUser] at same
        cases same
    | some i =>
        have views (indeterminate : AdPosition) {imps' : List (Impression StdString)}
            (taken : AnyExtractors.vector (AnyExtractors.impression indeterminate)
              (AnyExtractors.item m (ascii "imp")) = some imps') :=
          (any_request_iff indeterminate named' taken r).1 (agree indeterminate)
        obtain ⟨first, taken⟩ := both.toInMap.any_imp hasImp {}
        obtain ⟨sameId, -, users, sites⟩ := views {} taken
        rw [← sameUser, Option.map_some] at users
        rw [after_some users, ← sameSite, Option.map_some] at sites
        refine ⟨plainId.1 (by rw [named', sameId]), plainImp.1 ⟨r.imp, imps, ?_⟩,
          userPlain.1 users, sitePlain.1 sites⟩
        intro indeterminate
        obtain ⟨imps', taken⟩ := both.toInMap.any_imp hasImp indeterminate
        exact ⟨imps', taken, (views indeterminate taken).2.1⟩
  · intro plain indeterminate
    obtain ⟨imps', readImp, agreeImp⟩ := plainImp.2 plain.imp
    rw [imps, Option.some.injEq] at readImp
    obtain ⟨_, taken, sameImps⟩ := agreeImp indeterminate
    have users := userPlain.2 plain.user
    rw [any_request_iff indeterminate (plainId.2 plain.id) taken, ← sameUser, ← sameSite]
    refine ⟨rfl, by rw [sameImps, readImp], users, ?_⟩
    rw [after_some users]
    exact sitePlain.2 plain.site

theorem request_agree_iff (request : IsRequest ms) :
    RequestsAgree (.object m) (.object rms) ↔ RequestPlain lexicalDouble rapidDouble ms := by
  constructor
  · rintro ⟨r, read, agree⟩
    exact (request_views_iff both request read).1 agree
  · intro plain
    obtain ⟨s, hasId⟩ := request.id
    obtain ⟨es, space, hasImp, each⟩ := request.imp
    obtain ⟨_, hasUser, -⟩ := request.user
    obtain ⟨_, hasSite, -⟩ := request.site
    obtain ⟨user, site, userRead, siteRead, -⟩ := both.parties_agree request
    rw [both.access_named hasUser] at userRead
    rw [both.access_named hasSite] at siteRead
    obtain ⟨imps, readImp, -⟩ := (imp_agree_iff both hasImp each).2 plain.imp
    have some_ := both.rapid_request_isSome hasId hasImp hasUser hasSite (by rw [readImp]; rfl)
      (by rw [userRead]; rfl) (by rw [siteRead]; rfl)
    obtain ⟨r, read⟩ := Option.isSome_iff_exists.1 some_
    exact ⟨r, read, (request_views_iff both request read).2 plain⟩

end Requests

section Unread

/-! rapidjson makes an empty request of a text that it does not parse. -/

theorem optional_thrown_iff (extract : List (StdString × JsonValue) → Option T)
    (m : List (StdString × JsonValue)) :
    (AnyExtractors.optional extract (.object m)).getD none = none ↔
      AnyExtractors.optional extract (.object m) = none := by
  rw [any_optional]
  cases extract m <;> simp

variable {lexicalDouble : StdString → Option Float} {ms : List (Member Json)}
  {m : List (StdString × JsonValue)} (map : InMap lexicalDouble ms m)
include map

theorem InMap.imp_unread_iff {es : List (Element Json)} {space : Space}
    (hasImp : named (ascii "imp") ms = some (.array es space)) (indeterminate : AdPosition) :
    AnyExtractors.vector (AnyExtractors.impression indeterminate)
        (AnyExtractors.item m (ascii "imp")) = some [] ↔
      (written (ascii "imp") ms = none ∨ ∃ space, written (ascii "imp") ms = some (.array [] space)) := by
  obtain ⟨unwritten, none_⟩ | ⟨here, ys, taken, some_⟩ := map.imp_cases hasImp
  · exact iff_of_true (none_ indeterminate) (.inl unwritten)
  · rw [some_ indeterminate, here, Option.some.injEq, List.map_eq_nil_iff]
    cases es with
    | nil =>
        cases taken
        exact iff_of_true rfl (.inr ⟨space, rfl⟩)
    | cons e es =>
        refine iff_of_false ?_ (by simp)
        rintro rfl
        obtain ⟨y, ys, -, -, more⟩ := encodedElements_cons taken
        cases more

/-- An exception on the way to a location. -/
theorem InMap.user_thrown_iff (user : IsUser ms) :
    AnyExtractors.user (.object m) = none ↔
      PlainObject (ascii "geo") (fun geo =>
        written (ascii "city") geo = none ∨ written (ascii "country") geo = none) ms := by
  obtain ⟨_, hasGeo, ms', space, rfl, isGeo⟩ := user.geo
  obtain ⟨m', map', inner⟩ := map.inner (by decide) hasGeo isGeo.distinct
  obtain ⟨s, hasCity⟩ := isGeo.city
  obtain ⟨s', hasCountry⟩ := isGeo.country
  rw [AnyExtractors.user, any_optional, Option.map_eq_none_iff, Option.map_eq_none_iff]
  obtain ⟨unwritten, null⟩ | ⟨here, object⟩ := inner
  · rw [null]
    exact iff_of_false nofun (plainObject_unwritten unwritten)
  · rw [object, plainObject_iff here, AnyExtractors.geo, any_optional, Option.map_eq_none_iff]
    obtain ⟨city, none_⟩ | ⟨city, some_⟩ := map'.string_cases (by decide) hasCity
    · simp [city, none_]
    · obtain ⟨country, none'⟩ | ⟨country, some'⟩ := map'.string_cases (by decide) hasCountry
      · simp [city, country, some_, none']
      · simp [city, country, some_, some']

theorem InMap.site_thrown_iff (site : IsSite ms) :
    AnyExtractors.site (.object m) = none ↔ written (ascii "id") ms = none := by
  obtain ⟨s, hasId⟩ := site.id
  rw [AnyExtractors.site, any_optional, Option.map_eq_none_iff, Option.map_eq_none_iff]
  obtain ⟨unwritten, none_⟩ | ⟨here, some_⟩ := map.string_cases (by decide) hasId
  · exact iff_of_true none_ unwritten
  · rw [some_, here]
    exact iff_of_false nofun nofun

/-- After an exception on the way to the user the site is not looked at. -/
theorem InMap.user_unread_iff (request : IsRequest ms) :
    ((AnyExtractors.user (AnyExtractors.item m (ascii "user"))).getD none = none ∧
      ((AnyExtractors.user (AnyExtractors.item m (ascii "user"))).bind fun _ =>
        AnyExtractors.site (AnyExtractors.item m (ascii "site"))).getD none = none) ↔
      (PlainObject (ascii "user") (PlainObject (ascii "geo") fun geo =>
          written (ascii "city") geo = none ∨ written (ascii "country") geo = none) ms ∨
        written (ascii "user") ms = none ∧ (written (ascii "site") ms = none ∨
          PlainObject (ascii "site") (fun site => written (ascii "id") site = none) ms)) := by
  obtain ⟨_, hasUser, ums, uspace, rfl, isUser⟩ := request.user
  obtain ⟨_, hasSite, sms, sspace, rfl, isSite⟩ := request.site
  obtain ⟨um, userMap, innerUser⟩ := map.inner (by decide) hasUser isUser.distinct
  obtain ⟨sm, siteMap, innerSite⟩ := map.inner (by decide) hasSite isSite.distinct
  obtain ⟨noUser, null⟩ | ⟨user, object⟩ := innerUser
  · have empty : AnyExtractors.user .null = some none := rfl
    rw [null, empty, Option.bind_some, or_iff_right (plainObject_unwritten noUser),
      and_iff_right noUser, Option.getD_some, and_iff_right rfl]
    obtain ⟨noSite, null⟩ | ⟨site, object⟩ := innerSite
    · rw [null]
      exact iff_of_true rfl (.inl noSite)
    · have there : written (ascii "site") ms ≠ none := by simp [site]
      rw [object, or_iff_right there, plainObject_iff site, ← siteMap.site_thrown_iff isSite]
      exact optional_thrown_iff _ sm
  · have there : written (ascii "user") ms ≠ none := by simp [user]
    rw [object, or_iff_left (there ·.1), plainObject_iff user, ← userMap.user_thrown_iff isUser]
    constructor
    · exact fun unread => (optional_thrown_iff _ um).1 unread.1
    · intro thrown
      rw [thrown]
      exact ⟨rfl, rfl⟩

theorem request_unread_iff (request : IsRequest ms) :
    (∀ indeterminate, requestView (AnyExtractors.bidRequest indeterminate (.object m)) =
      requestView {}) ↔ RequestUnread ms := by
  obtain ⟨s, hasId⟩ := request.id
  obtain ⟨es, space, hasImp, each⟩ := request.imp
  obtain ⟨unwritten, none_⟩ | ⟨here, some_⟩ := map.string_cases (by decide) hasId
  · exact iff_of_true (fun i => by rw [any_request_unnamed i none_]) (.inl unwritten)
  · have there : written (ascii "id") ms ≠ none := by simp [here]
    rw [RequestUnread, or_iff_right there, here, ← map.user_unread_iff request, Option.some.injEq,
      Json.string.injEq, ← stringText_nil_iff]
    constructor
    · intro agree
      obtain ⟨imps, taken⟩ := map.any_imp hasImp {}
      obtain ⟨id, noImp, user, site⟩ := (any_request_iff {} some_ taken {}).1 (agree {})
      rw [List.map_eq_nil_iff.1 noImp, map.imp_unread_iff hasImp] at taken
      exact ⟨id, taken, Option.map_eq_none_iff.1 user, Option.map_eq_none_iff.1 site⟩
    · rintro ⟨id, imp, user, site⟩ indeterminate
      rw [← map.imp_unread_iff hasImp indeterminate] at imp
      rw [any_request_iff indeterminate some_ imp {}, user, site]
      exact ⟨id, rfl, rfl, rfl⟩

end Unread

section Documents

variable (lexicalDouble : StdString → Option Float) (rapidParse : StdString → Option RapidValue)

/-- Both mappers extract a request, and the same one, whatever was there before. -/
def ExtractionsAgree (body : StdString) : Prop :=
  ∃ r, rapidMapper rapidParse body = .request r ∧ ∀ indeterminate,
    ∃ a, anyMapper lexicalDouble indeterminate body = .request a ∧ requestView a = requestView r

variable {lexicalDouble rapidParse} {rapidDouble : StdString → Option Float}

theorem anyMapper_document (indeterminate : AdPosition) (d : JsonDocument)
    (a : BidRequest StdString) :
    anyMapper lexicalDouble indeterminate d.text = .request a ↔
      (documentTokens d).length ≤ 128 ∧ ∃ y, encoded lexicalDouble d.value = .ok y ∧
        AnyExtractors.bidRequest indeterminate y = a := by
  rw [anyMapper, decodeBody]
  by_cases room : (documentTokens d).length ≤ 128
  · rw [jsmnParse_text d room, and_iff_right room]
    dsimp only
    rw [encode_document]
    cases encoded lexicalDouble d.value with
    | error f => cases f <;> simp [Except.map, Extracted.ofFault]
    | ok y => simp [Except.map]
  · refine iff_of_false ?_ (fun h => room h.1)
    cases parse : jsmnParse 128 d.text with
    | error e => simp
    | ok ts => exact absurd ((jsmnParse_text_iff d 128).1 ⟨ts, parse⟩) room

theorem rapidMapper_document {d : JsonDocument}
    (parses : rapidParse d.text = rapidTree rapidDouble d.value) (r : BidRequest StdString) :
    rapidMapper rapidParse d.text = .request r ↔
      RapidExtractors.bidRequest ((rapidTree rapidDouble d.value).getD .null) = some r := by
  rw [rapidMapper, takeWhile_noNul d.text_noNul, parses]
  cases RapidExtractors.bidRequest ((rapidTree rapidDouble d.value).getD .null) <;> simp

/-- What both make of a document, of nothing where rapidjson does not parse it. -/
theorem document_agree_iff {v : Json} (request : IsBidRequest v) {y : JsonValue}
    (taken : encoded lexicalDouble v = .ok y) :
    RequestsAgree y ((rapidTree rapidDouble v).getD .null) ↔
      (rapidTree rapidDouble v ≠ none → OfObject (RequestPlain lexicalDouble rapidDouble) v) ∧
        (rapidTree rapidDouble v = none → OfObject RequestUnread v) := by
  obtain ⟨ms, space, rfl, request⟩ := request
  obtain ⟨ps, members, rfl⟩ := map_eq_ok.mp taken
  have map : InMap lexicalDouble ms (insertAll ps []) := ⟨request.distinct, ps, members, rfl⟩
  rw [ofObject_iff, ofObject_iff]
  cases tree : rapidTree rapidDouble (.object ms space) with
  | none =>
      rw [← request_unread_iff map request, Option.getD_none]
      constructor
      · rintro ⟨_, ⟨⟩, agree⟩
        exact ⟨fun parsed => absurd rfl parsed, fun _ => agree⟩
      · exact fun unread => ⟨{}, rfl, unread.2 rfl⟩
  | some x =>
      rw [rapidTree, Option.map_eq_some_iff] at tree
      obtain ⟨rms, parsed, rfl⟩ := tree
      rw [← request_agree_iff ⟨map, parsed⟩ request, Option.getD_some]
      have parsed' : some (RapidValue.object rms) ≠ none := Option.some_ne_none _
      exact ⟨fun agree => ⟨fun _ => agree, fun none_ => absurd none_ parsed'⟩,
        fun plain => plain.1 parsed'⟩

end Documents

section Offers

namespace Offer

def letters (s : StdString) : List Character :=
  s.filterMap fun c => if valid : 32 ≤ c ∧ c ≠ 34 ∧ c ≠ 92 then some (.plain c valid) else none

def text (s : String) : Json := .string (letters (ascii s))

def member (name : String) (v : Json) : Member Json :=
  ⟨noSpace, letters (ascii name), noSpace, noSpace, v, noSpace⟩

def whole (first : Fin 9) : Number := ⟨false, .positive first [], none, none⟩

end Offer

open Offer

/-- A bid request with all that is compared, and with some price. -/
def offer (bidfloor : Number) : JsonDocument where
  before := noSpace
  value := .object
    [member "id" (text "1"),
      member "imp" (.array [⟨noSpace, .object
        [member "id" (text "2"),
          member "banner" (.object
            [member "h" (.number (whole 4)), member "w" (.number (whole 2)),
              member "pos" (.number (whole 0))] noSpace),
          member "bidfloor" (.number bidfloor), member "bidfloorcur" (text "USD")] noSpace,
        noSpace⟩] noSpace),
      member "user" (.object [member "geo" (.object
        [member "city" (text "New York"), member "country" (text "USA")] noSpace)] noSpace),
      member "site" (.object [member "id" (text "3"), member "ref" (text "")] noSpace)] noSpace
  after := noSpace

theorem offer_isBidRequest (bidfloor : Number) : IsBidRequest (offer bidfloor).value := by
  have names : Distinct
      [member "id" .null, member "imp" .null, member "user" .null, member "site" .null] := by decide
  have names' : Distinct [member "id" .null, member "banner" .null, member "bidfloor" .null,
      member "bidfloorcur" .null] := by decide
  refine ⟨_, _, rfl, names, ⟨_, rfl⟩, ⟨_, _, rfl, ?_⟩, ⟨_, rfl, _, _, rfl, ?_⟩,
    ⟨_, rfl, _, _, rfl, ?_⟩⟩
  · rw [List.forall_mem_singleton]
    refine ⟨_, _, rfl, names', ⟨_, rfl⟩, ⟨_, rfl, _, _, rfl, ?_⟩, ⟨_, rfl⟩, ⟨_, rfl⟩⟩
    exact ⟨by decide, ⟨_, rfl⟩, ⟨_, rfl⟩, ⟨_, rfl⟩⟩
  · exact ⟨by decide, ⟨_, rfl, _, _, rfl, by decide, ⟨_, rfl⟩, ⟨_, rfl⟩⟩⟩
  · exact ⟨by decide, ⟨_, rfl⟩, ⟨_, rfl⟩⟩

/-- The two extract the same request exactly when the body is spelled for both of them. -/
theorem spelled_alike_iff {lexicalDouble rapidDouble : StdString → Option Float}
    {rapidParse : StdString → Option RapidValue} (d : JsonDocument) (request : IsBidRequest d.value)
    (parses : rapidParse d.text = rapidTree rapidDouble d.value) :
    ExtractionsAgree lexicalDouble rapidParse d.text ↔ SpelledAlike lexicalDouble rapidDouble d := by
  constructor
  · rintro ⟨r, read, agree⟩
    rw [rapidMapper_document parses] at read
    simp only [anyMapper_document] at agree
    obtain ⟨_, ⟨room, y, taken, -⟩, -⟩ := agree {}
    have views : ∀ indeterminate,
        requestView (AnyExtractors.bidRequest indeterminate y) = requestView r := by
      intro indeterminate
      obtain ⟨_, ⟨-, y', taken', rfl⟩, same⟩ := agree indeterminate
      rw [taken] at taken'
      cases taken'
      exact same
    have alike := (document_agree_iff request taken).1 ⟨r, read, views⟩
    exact ⟨room, (encoded_iff d.value).1 ⟨y, taken⟩, alike.1, alike.2⟩
  · intro alike
    obtain ⟨y, taken⟩ := (encoded_iff d.value).2 alike.castable
    obtain ⟨r, read, agree⟩ := (document_agree_iff request taken).2 ⟨alike.plain, alike.unread⟩
    refine ⟨r, (rapidMapper_document parses r).2 read, fun indeterminate => ?_⟩
    have extracted := (anyMapper_document indeterminate d _).2 ⟨alike.room, y, taken, rfl⟩
    exact ⟨_, extracted, agree indeterminate⟩

/-- A price of 1.5 dollars, of which both casts make the same double. -/
theorem decimal_price_agrees :
    ExtractionsAgree (fun _ => some 1.5)
      (fun _ => rapidTree (fun _ => some 1.5)
        (offer ⟨false, .positive 0 [], some ⟨5, []⟩, none⟩).value)
      (offer ⟨false, .positive 0 [], some ⟨5, []⟩, none⟩).text := by
  rw [spelled_alike_iff _ (offer_isBidRequest _) rfl]
  have castable : Castable (fun _ => some 1.5)
      (offer ⟨false, .positive 0 [], some ⟨5, []⟩, none⟩).value :=
    (encoded_iff _).1 ⟨_, rfl⟩
  refine ⟨by decide, castable, fun _ => ?_, nofun⟩
  refine ⟨_, _, rfl, ⟨_, rfl, by decide⟩, .inl ⟨_, _, rfl, ?_⟩, ⟨_, rfl, _, _, rfl, ?_⟩,
    ⟨_, rfl, _, _, rfl, _, rfl, by decide⟩⟩
  · rw [List.forall_mem_singleton]
    refine ⟨_, _, rfl, ⟨_, rfl, by decide⟩, ⟨_, rfl, _, _, rfl, ?_⟩,
      .inl ⟨⟨_, rfl, rfl, rfl⟩, .inl ⟨_, rfl, by decide⟩⟩⟩
    exact ⟨⟨_, rfl, rfl, rfl, by decide, by decide⟩, ⟨_, rfl, rfl, rfl, by decide, by decide⟩,
      ⟨_, rfl, rfl, rfl, by decide, by decide⟩⟩
  · exact ⟨_, rfl, _, _, rfl, ⟨_, rfl, by decide⟩, ⟨_, rfl, by decide⟩⟩

/-- A price of 1 dollar, which one of them takes for a double and the other stops at. -/
theorem whole_price_disagrees :
    IsBidRequest (offer (whole 0)).value ∧ ∀ lexicalDouble rapidDouble,
      ¬ ExtractionsAgree lexicalDouble (fun _ => rapidTree rapidDouble (offer (whole 0)).value)
        (offer (whole 0)).text := by
  refine ⟨offer_isBidRequest _, fun lexicalDouble rapidDouble => ?_⟩
  rintro ⟨r, read, agree⟩
  rw [rapidMapper_document rfl] at read
  obtain ⟨a, extracted, same⟩ := agree {}
  rw [anyMapper_document] at extracted
  obtain ⟨-, y, taken, rfl⟩ := extracted
  cases taken
  cases read
  have currencies := congrArg (fun view => view.imp.map ImpressionView.bidfloorcur) same
  exact absurd currencies (by decide)

end Offers

end VanillaRtb.Dsl
