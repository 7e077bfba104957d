import VanillaRtb.Dsl.Mappers
import VanillaRtb.Lib.JsonText

/-! # Bodies that an exchange turns away

A POST that the mapper throws on is logged as an error and gets an empty reply; any other
goes to the decision handler or to an auction. Each mapper throws on bodies of its own
kind, and none of them on every body that is not a JSON object.
-/

namespace VanillaRtb.Exchange

open Lib Parsers Dsl Dsl.Encoders OpenRtb

/-- What happens during a `handle_post`. -/
inductive PostEvent (Req : Type) where
  | logged (body : StdString)
  | errorLogged
  /-- `flush("")` on a reply with nothing in it. -/
  | flushed
  | decided (bidRequest : Req)
  | auctionedAsync (bidRequest : Req)
  | auctioned (bidRequest : Req)

/-- Which handlers an `exchange_handler` has. -/
structure PostHandlers where
  log : Bool
  errorLog : Bool
  decision : Bool
  auctionAsync : Bool
  auction : Bool

section

variable {Req : Type} (h : PostHandlers) (body : StdString)

/-- What `handle_post_common` does, with the request if there is one. -/
def handlePostCommon : Extracted Req → Option (List (PostEvent Req) × Option Req)
  | .request bidRequest => some (if h.log then [.logged body] else [], some bidRequest)
  | .thrown =>
      some ((if h.log then [.logged body] else []) ++
        (if h.errorLog then [.errorLogged] else []) ++ [.flushed], none)
  | .undefined => none

/-- What happens where all is defined. -/
def handlePost (extracted : Extracted Req) : Option (List (PostEvent Req)) := do
  let (events, bidRequest) ← handlePostCommon h body extracted
  match bidRequest with
  | none => pure events
  | some bidRequest =>
      if h.decision then pure (events ++ [.decided bidRequest])
      else if h.auctionAsync then pure (events ++ [.auctionedAsync bidRequest])
      else if h.auction then pure (events ++ [.auctioned bidRequest])
      else pure events

/-- An error in the log, an empty reply, and no handler that sees a request. -/
def TurnsAway (extracted : Extracted Req) : Prop :=
  handlePost h body extracted = some ((if h.log then [.logged body] else []) ++
    (if h.errorLog then [.errorLogged] else []) ++ [.flushed])

theorem turnsAway_iff (extracted : Extracted Req) :
    TurnsAway h body extracted ↔ extracted = .thrown := by
  cases extracted with
  | thrown => exact iff_of_true rfl rfl
  | undefined => exact iff_of_false nofun nofun
  | request r =>
      refine iff_of_false ?_ nofun
      intro same
      -- nothing is flushed on the way to a handler
      have noFlush : ∀ events, handlePost h body (.request r) = some events →
          ¬ (.flushed : PostEvent Req) ∈ events := by
        intro events run
        simp only [handlePost, handlePostCommon, Option.bind_eq_bind, Option.bind_some] at run
        split_ifs at run <;> cases run <;> simp
      exact noFlush _ same (by simp)

end

section

variable (lexicalDouble : StdString → Option Float)

/-- Tokens that the encoder gives up on before it is through with them. -/
theorem encode_thrown_iff (version : Version) (js : StdString) (ts : List JsmnToken) :
    encode lexicalDouble version js ts = .error .thrown ↔
      ts ≠ [] ∧ ¬ Cut lexicalDouble version js .value ts ∧
        ∀ rest, ¬ Whole lexicalDouble version js .value ts rest := by
  by_cases some_ : ts = []
  · subst some_
    exact iff_of_false nofun fun h => h.1 rfl
  · constructor
    · intro thrown
      refine ⟨some_, fun cut => ?_, fun rest whole => ?_⟩
      · rw [encode_cut lexicalDouble version js some_ cut] at thrown
        cases thrown
      · obtain ⟨v, d, ok, -⟩ := whole.outcome (ts.length + 1) ts.length (Nat.lt_succ_self _) le_rfl
          (List.length_pos_iff.2 some_)
        rw [encode, ok] at thrown
        cases thrown
    · rintro ⟨-, notCut, notWhole⟩
      have sound := encode_sound lexicalDouble version js some_
      cases run : encode lexicalDouble version js ts with
      | error f =>
          rw [run] at sound
          rw [sound.resolve_right fun ⟨_, cut⟩ => notCut cut]
      | ok r =>
          rw [run] at sound
          exact absurd sound.2.2.1 (notWhole _)

/-- No tokens come of the body, or tokens that stand neither for a value nor for the beginning
of one. -/
def Garbled (version : Version) (body : StdString) : Prop :=
  (∃ e, jsmnParse 128 body = .error e) ∨
    ∃ ts, jsmnParse 128 body = .ok ts ∧ ts ≠ [] ∧ ¬ Cut lexicalDouble version body .value ts ∧
      ∀ rest, ¬ Whole lexicalDouble version body .value ts rest

/-- The tree of the body is not an object with members of the types that a request asks for. -/
def Mistyped (body : StdString) : Prop :=
  ∃ ts v d, jsmnParse 128 body = .ok ts ∧ encode lexicalDouble .jsonv body ts = .ok (v, d) ∧
    ¬ RequestTyped v

/-- A well-formed text of one JSON object. -/
def IsJsonObject (body : StdString) : Prop :=
  ∃ d : JsonDocument, d.text = body ∧ ∃ ms space, d.value = .object ms space

variable (rapidParse : StdString → Option RapidValue) (indeterminate : AdPosition)

theorem decodeBody_thrown {T : Type} (version : Version) (body : StdString)
    (extract : JsonValue → Extracted T) :
    decodeBody lexicalDouble version body extract = .thrown ↔
      Garbled lexicalDouble version body ∨ ∃ ts v d, jsmnParse 128 body = .ok ts ∧
        encode lexicalDouble version body ts = .ok (v, d) ∧ extract v = .thrown := by
  rw [decodeBody, Garbled]
  cases jsmnParse 128 body with
  | error e => simp
  | ok ts =>
      simp only [Except.ok.injEq, exists_and_left, exists_eq_left', reduceCtorEq, exists_false,
        false_or, ← encode_thrown_iff]
      cases encode lexicalDouble version body ts with
      | error f => cases f <;> simp [Extracted.ofFault]
      | ok r => simp [Prod.ext_iff]

/-- The bodies on which a mapper throws. -/
def ThrownBy (mapper : Mapper) (body : StdString) : Prop :=
  match mapper with
  | .dsl => Garbled lexicalDouble .jsonv body ∨ Mistyped lexicalDouble body
  | .any => Garbled lexicalDouble .any body
  | .rapid => False

theorem extractRequest_thrown (mapper : Mapper) (body : StdString) :
    extractRequest lexicalDouble rapidParse indeterminate mapper body = .thrown ↔
      ThrownBy lexicalDouble mapper body := by
  cases mapper with
  | dsl =>
      have extract (v : JsonValue) : Extracted.orThrown (JsonvExtractors.bidRequest indeterminate v) =
          .thrown ↔ ¬ RequestTyped v := by
        rw [← request_typed indeterminate]
        cases JsonvExtractors.bidRequest indeterminate v <;> simp [Extracted.orThrown]
      rw [extractRequest, dslMapper, decodeBody_thrown, ThrownBy, Mistyped]
      simp only [extract]
  | any =>
      rw [extractRequest, anyMapper, decodeBody_thrown, ThrownBy]
      simp
  | rapid =>
      rw [extractRequest, rapidMapper, ThrownBy]
      cases RapidExtractors.bidRequest _ <;> simp

/-- A body that is not a JSON object is turned away where the mapper throws on it, and the
mapper with rapidjson never does. -/
theorem turned_away_iff (mapper : Mapper) (h : PostHandlers) (body : StdString)
    (_ : ¬ IsJsonObject body) :
    TurnsAway h body (extractRequest lexicalDouble rapidParse indeterminate mapper body) ↔
      ThrownBy lexicalDouble mapper body := by
  rw [turnsAway_iff, extractRequest_thrown]

end

theorem empty_notObject : ¬ IsJsonObject [] := by
  rintro ⟨d, empty, ms, space, object⟩
  rw [JsonDocument.text, object, Json.text] at empty
  simp at empty

/-- The formats want an object where there is no token. -/
theorem empty_turned_away : TurnsAway ⟨true, true, true, true, true⟩ []
    (extractRequest (fun _ => none) (fun _ => none) {} .dsl []) := by
  have mistyped : Mistyped (fun _ => none) [] := ⟨[], .null, 0, rfl, rfl, id⟩
  exact (turned_away_iff (fun _ => none) (fun _ => none) {} .dsl ⟨true, true, true, true, true⟩ []
    empty_notObject).2 (.inr mistyped)

/-- An empty body reaches the decision handler as a request with nothing in it. -/
theorem empty_decided : ¬ IsJsonObject [] ∧ ∀ lexicalDouble indeterminate,
    handlePost ⟨false, true, true, false, false⟩ []
      (extractRequest lexicalDouble (fun _ => none) indeterminate .any []) = some [.decided {}] ∧
    handlePost ⟨false, true, true, false, false⟩ []
      (extractRequest lexicalDouble (fun _ => none) indeterminate .rapid []) = some [.decided {}] :=
  ⟨empty_notObject, fun _ _ => ⟨rfl, rfl⟩⟩

end VanillaRtb.Exchange
