import VanillaRtb.Campaign.Commands
import VanillaRtb.Datacache.Retrieving
import VanillaRtb.Http.Dispatcher
import VanillaRtb.Http.RequestHandler

/-! # The campaign manager

The service writes, deletes and lists the records of the cache that the other processes share,
by commands in the URL. Its replies are those of a table from campaign ids to records, whatever
the others do in between. A write is answered by the reply as it was made, a record is listed
without its overdraft, and a number behind the command for all records asks for the first.
-/

namespace VanillaRtb.Campaign

open Lib Datacache Http
open Http.RequestParser (byte)
open Dsl hiding Fault

namespace CampaignBudgetMapper

def metricValue : MetricType → Int64
  | .undefined => 0
  | .cpm => 1
  | .cpc => 2
  | .cpa => 3

/-- `jsonv::to_json`. Members are in the order of their names, and the overdraft is none. -/
def toJson (budget : CampaignBudget) : JsonValue :=
  .object
    [(ascii "budget", .integer budget.dayBudgetLimit.toInt64),
      (ascii "id", .integer budget.campaignId.toUInt64.toInt64),
      (ascii "metric", .object
        [(ascii "id", .integer (metricValue budget.metric.type)),
          (ascii "value", .integer budget.metric.value.toInt64)]),
      (ascii "spent", .integer budget.dayBudgetSpent.toInt64)]

end CampaignBudgetMapper

/-- `std::make_shared<CampaignBudget>()` -/
instance : Inhabited CampaignBudget := ⟨{}⟩

/-- The service with the texts of its JSON library, and the files of its root. -/
structure CampaignManager where
  parse : StdString → Option JsonValue
  toString : JsonValue → StdString
  root : StdString
  files : RequestHandler.Files

namespace CampaignManager

/-- The expressions of the dispatcher, in the order of its map. -/
inductive Expression where
  /-- `/campaign/([A-Za-z/]+)(\d*)` -/
  | reading
  /-- `/campaign/([A-Za-z/]+)(\d+)` -/
  | writing
  /-- `/campaign/.*(\.js|\.html|\.css|\.jpg)` -/
  | page

/-- `boost::cmatch`, with what the groups match. -/
structure Matched where
  all : StdString
  first : StdString
  second : StdString := []
  deriving DecidableEq

/-- `[A-Za-z/]` -/
def inCommand (c : UInt8) : Bool :=
  byte 'A' ≤ c && c ≤ byte 'Z' || byte 'a' ≤ c && c ≤ byte 'z' || c = byte '/'

def pageExtensions : List StdString :=
  [ascii ".js", ascii ".html", ascii ".css", ascii ".jpg"]

/-- `boost::regex_match` of a C string. -/
def regexMatch (expression : Expression) (uri : StdString) : Option Matched :=
  let uri := RequestHandler.cStr uri
  if ascii "/campaign/" <+: uri then
    let rest := uri.drop (ascii "/campaign/").length
    let command := rest.takeWhile inCommand
    let digits := rest.dropWhile inCommand
    match expression with
    | .reading =>
        if command ≠ [] ∧ digits.all Encoders.isDigit then some ⟨uri, command, digits⟩ else none
    | .writing =>
        if command ≠ [] ∧ digits ≠ [] ∧ digits.all Encoders.isDigit then
          some ⟨uri, command, digits⟩
        else none
    | .page => (pageExtensions.find? fun e => e <:+ rest).map fun e => ⟨uri, e, []⟩
  else none

abbrev ManagerHandler := EffectHandler BudgetCache Datacache.Fault Matched

variable (m : CampaignManager)

def campaignMatch (what : Matched) (data : StdString) : CampaignMatch where
  command := what.first
  digits := what.second
  data := m.parse data

def create (fails : Bool) : ManagerHandler := fun cache what data r => do
  let cache ← cache.perform (.put (m.campaignMatch what data) fails)
  pure (cache, r)

def update : ManagerHandler := fun cache what data r => do
  let cache ← cache.perform (.post (m.campaignMatch what data))
  pure (cache, r)

def delete : ManagerHandler := fun cache what data r => do
  let cache ← cache.perform (.delete (m.campaignMatch what data))
  pure (cache, r)

/-- The number behind a command, if any; nothing where `lexical_cast` throws. -/
def optionalId (what : Matched) : Option (Option UInt32) :=
  if what.second = [] then some none
  else (CampaignMatch.campaignId { command := what.first, digits := what.second }).map some

/-- `read_commands`; any other key is an empty function, which throws. -/
def readCommand (key : StdString) :
    Option (BudgetCache → UInt32 → Except Datacache.Fault (List CampaignBudget)) :=
  if key = ascii "budget/id/" then some fun cache campaignId => cache.retrieve campaignId
  else if key = ascii "budget" then
    some fun cache _ => (EntityCache.retrieveWhole cache (fun e _ => e.data) []).map Prod.snd
  else none

/-- The object of one record where a number was given and there is one, else an array. -/
def response (campaignId : Option UInt32) (data : List CampaignBudget) : JsonValue :=
  match campaignId, data with
  | some _, budget :: _ => CampaignBudgetMapper.toJson budget
  | _, data => .array (data.map CampaignBudgetMapper.toJson)

def responseSteps (value : JsonValue) : List ReplyStep :=
  [.stream (m.toString value), .flush .ok (ascii "json"),
    .header ⟨ascii "Access-Control-Allow-Origin", ascii "*"⟩ (by decide)]

def read : ManagerHandler := fun cache what _ r =>
  match optionalId what, readCommand what.first with
  | some campaignId, some command => do
      let data ← command cache (campaignId.getD 0)
      pure (cache, (m.responseSteps (response campaignId data)).foldl ReplyStep.apply r)
  | _, _ => .ok (cache, r)

def readPage : ManagerHandler := fun cache what _ r =>
  .ok (cache, RequestHandler.handleRequest m.root m.files { uri := what.all } r)

def crudMatchers (fails : Bool) : List (Expression × (StdString → Option ManagerHandler)) :=
  [(.reading, fun method => if method = ascii "GET" then some m.read else none),
    (.writing, fun method =>
      if method = ascii "PUT" then some (m.create fails)
      else if method = ascii "POST" then some m.update
      else if method = ascii "DELETE" then some m.delete
      else none),
    (.page, fun method => if method = ascii "GET" then some m.readPage else none)]

/-- `fails` tells whether an insertion runs out of memory at first. -/
def handleRequest (fails : Bool) (request : Request) (cache : BudgetCache) (r : Reply) :
    Except Datacache.Fault (BudgetCache × Reply) :=
  dispatch regexMatch request (m.crudMatchers fails) cache r

/-- A request, over what the memory of its reply has for a status, or a call of another
    process. -/
inductive Event where
  | request (request : Request) (status : Nat) (fails : Bool)
  | other (command : Command)

/-- The cache and the replies after the events. -/
def run : BudgetCache → List Event → Except Datacache.Fault (BudgetCache × List Reply)
  | cache, [] => .ok (cache, [])
  | cache, .request request status fails :: events => do
      let (cache, r) ← m.handleRequest fails request cache (fresh status)
      let (cache, replies) ← run cache events
      pure (cache, r :: replies)
  | cache, .other command :: events => do
      let cache ← cache.perform command
      run cache events

/-- Every campaign id, in order. -/
def campaignIds : List UInt32 := (List.range (2 ^ 32)).map UInt32.ofNat

/-- What a request to read asks for. -/
structure Reading where
  byId : Bool
  campaignId : Option UInt32

/-- What is asked for, nothing if the number or the command is refused. -/
def readingOf (what : Matched) : Option Reading :=
  (optionalId what).bind fun campaignId =>
    if what.first = ascii "budget/id/" then some ⟨true, campaignId⟩
    else if what.first = ascii "budget" then some ⟨false, campaignId⟩
    else none

/-- The records that are asked for; without a number it is the campaign 0. -/
def Reading.found (reading : Reading) (t : Table UInt32 CampaignBudget) : List CampaignBudget :=
  if reading.byId then (t (reading.campaignId.getD 0)).toList else t.values campaignIds

/-- The command that a request is. -/
def commandOf (fails : Bool) (request : Request) : Option Command :=
  (regexMatch .writing request.uri).bind fun what =>
    let asked := m.campaignMatch what request.data
    if request.method = ascii "PUT" then some (.put asked fails)
    else if request.method = ascii "POST" then some (.post asked)
    else if request.method = ascii "DELETE" then some (.delete asked)
    else none

/-- The reply to a request while the table is what is stored. -/
def replyTo (t : Table UInt32 CampaignBudget) (request : Request) (r : Reply) : Reply :=
  if request.method = ascii "GET" then
    match (regexMatch .reading request.uri).bind readingOf, regexMatch .page request.uri with
    | some reading, _ =>
        (m.responseSteps (response reading.campaignId (reading.found t))).foldl ReplyStep.apply r
    | none, some what => RequestHandler.handleRequest m.root m.files { uri := what.all } r
    | none, none => r
  else r

/-- What the events make of the table, and the replies. -/
def outcomes : Table UInt32 CampaignBudget → List Event →
    Table UInt32 CampaignBudget × List Reply
  | t, [] => (t, [])
  | t, .request request status fails :: events =>
      let (u, replies) := outcomes ((m.commandOf fails request).elim t (effect t)) events
      (u, m.replyTo t request (fresh status) :: replies)
  | t, .other command :: events => outcomes (effect t command) events

section Urls

variable {uri : StdString} {what : Matched}

/-- A page has a dot behind `/campaign/`, a command and its number have none. -/
theorem page_not_reading (found : regexMatch .page uri = some what) :
    regexMatch .reading uri = none := by
  simp only [regexMatch] at found ⊢
  split_ifs at found with start
  generalize List.drop _ _ = rest at found
  rw [if_pos start, if_neg]
  intro digits
  obtain ⟨e, first, -⟩ := Option.map_eq_some_iff.mp found
  have dots : ∀ e ∈ pageExtensions, byte '.' ∈ e := by decide
  have suffix : e <:+ rest := by simpa using List.find?_some first
  have dot := suffix.subset (dots e (List.mem_of_find?_eq_some first))
  rw [← @List.takeWhile_append_dropWhile _ inCommand rest, List.mem_append] at dot
  cases dot with
  | inl inside => exact absurd (List.mem_takeWhile_imp inside) (by decide)
  | inr behind => exact absurd (List.all_eq_true.mp digits.2 _ behind) (by decide)

theorem reading_of_writing (found : regexMatch .writing uri = some what) :
    regexMatch .reading uri = some what := by
  simp only [regexMatch] at found ⊢
  split_ifs at found with start both
  rw [if_pos start, if_pos ⟨both.1, both.2.2⟩]
  exact found

end Urls

section Json

variable (budget : CampaignBudget)

theorem metricType_metricValue (type : MetricType) :
    CampaignBudgetMapper.metricType (.integer (CampaignBudgetMapper.metricValue type)) =
      some type := by
  cases type <;> rfl

/-- The numbers are stored in 64 bits and read back from them. -/
theorem campaignBudget_toJson : CampaignBudgetMapper.campaignBudget
    (CampaignBudgetMapper.toJson budget) = some { budget with dayBudgetOverdraft := 0 } := by
  have type : CampaignBudgetMapper.metric (.object
      [(ascii "id", .integer (CampaignBudgetMapper.metricValue budget.metric.type)),
        (ascii "value", .integer budget.metric.value.toInt64)]) = some budget.metric := by
    change (CampaignBudgetMapper.metricType (.integer _)).bind _ = _
    rw [metricType_metricValue]
    change some (CampaignBudget.Metric.mk _ budget.metric.value.toInt64.toUInt64) = _
    rw [UInt64.toUInt64_toInt64]
  change (CampaignBudgetMapper.metric _).bind _ = _
  rw [type]
  change some (CampaignBudget.mk budget.campaignId.toUInt64.toInt64.toUInt64.toUInt32
    budget.dayBudgetLimit.toInt64.toUInt64 budget.dayBudgetSpent.toInt64.toUInt64 0
    budget.metric) = _
  simp

end Json

section Records

variable {cache : BudgetCache} {t : Table UInt32 CampaignBudget}

theorem mem_campaignIds (campaignId : UInt32) : campaignId ∈ campaignIds :=
  List.mem_map.mpr ⟨campaignId.toNat, List.mem_range.mpr campaignId.toNat_lt, UInt32.ofNat_toNat⟩

theorem campaignIds_ordered : campaignIds.Pairwise (· < ·) := by
  rw [campaignIds, List.pairwise_map]
  apply List.pairwise_lt_range.imp_of_mem
  intro i j first second below
  rw [UInt32.lt_iff_toNat_lt, UInt32.toNat_ofNat_of_lt' (List.mem_range.mp first),
    UInt32.toNat_ofNat_of_lt' (List.mem_range.mp second)]
  exact below

/-- The container has its elements in the order of their ids. -/
theorem entries_ordered
    (container : MultiIndex (Entity.key : Entity UInt32 CampaignBudget → UInt32) campaignPart) :
    (container.entries.map Entity.key).Pairwise (· < ·) := by
  rw [List.pairwise_map]
  have apart : container.entries.Pairwise fun a b => a.key ≠ b.key :=
    List.pairwise_map.mp (container.unique ())
  apply ((container.sorted ()).and apart).imp
  rintro a b ⟨below, other⟩
  have most : a.key.toNat ≤ b.key.toNat := by
    by_contra above
    exact absurd below (not_le.mpr (List.Lex.rel (lt_of_not_ge above)))
  rw [UInt32.lt_iff_toNat_lt]
  have different := mt UInt32.toNat_inj.mp other
  omega

theorem entries_data
    (container : MultiIndex (Entity.key : Entity UInt32 CampaignBudget → UInt32) campaignPart) :
    container.entries.map Entity.data = (lookup container.entries).values campaignIds := by
  have there (k : UInt32) : k ∈ container.entries.map Entity.key ↔
      (lookup container.entries k).isSome := lookup_isSome.symm
  rw [Table.values_eq campaignIds_ordered (entries_ordered container) mem_campaignIds there,
    Table.values, List.filterMap_map]
  have unique : UniqueBy Entity.key container.entries := container.unique ()
  rw [← List.filterMap_eq_map]
  apply List.filterMap_congr
  intro e inside
  exact ((lookup_eq_some unique).mpr inside).symm

/-- Every record, in the order of the ids. -/
theorem retrieveWhole_holds (holds : cache.Holds t) :
    EntityCache.retrieveWhole cache (fun e (_ : CampaignBudget) => e.data) [] =
      .ok (!(t.values campaignIds).isEmpty, t.values campaignIds) := by
  obtain ⟨index, live⟩ := Option.isSome_iff_exists.mp holds.mapped
  have contents := holds.contents
  rw [EntityCache.retrieveWhole, EntityCache.deref_live live]
  change Except.ok (wholeRetriever _ _ _) = _
  rw [wholeRetriever_eq]
  change Except.ok (!(cache.container.entries.map Entity.data).isEmpty,
    cache.container.entries.map Entity.data) = _
  rw [entries_data, ← contents]
  rfl

/-- No call of another process fails. -/
theorem perform_holds (holds : cache.Holds t) (command : Command) :
    ∃ d, cache.perform command = .ok d ∧ d.Holds (effect t command) := by
  obtain ⟨d, taken, after⟩ := step_holds holds command
  rw [BudgetCache.step] at taken
  cases performed : cache.perform command with
  | error fault =>
      rw [performed] at taken
      cases taken
  | ok e =>
      rw [performed] at taken
      cases taken
      exact ⟨d, rfl, after⟩

end Records

section Requests

variable {cache : BudgetCache} {t : Table UInt32 CampaignBudget}

/-- What is read is what the table has. -/
theorem read_holds (holds : cache.Holds t) (what : Matched) (data : StdString) (r : Reply) :
    m.read cache what data r = .ok (cache, (readingOf what).elim r fun reading =>
      (m.responseSteps (response reading.campaignId (reading.found t))).foldl
        ReplyStep.apply r) := by
  unfold read readingOf
  cases optionalId what with
  | none => rfl
  | some campaignId =>
      unfold readCommand
      by_cases byId : what.first = ascii "budget/id/"
      · simp only [byId, if_true, Option.bind_some]
        rw [CampaignCache.retrieve_holds holds]
        rfl
      · by_cases all : what.first = ascii "budget"
        · simp only [if_neg byId, if_pos all, Option.bind_some]
          rw [retrieveWhole_holds holds]
          simp [Reading.found, Except.map, bind, Except.bind, pure, Except.pure]
        · simp only [byId, all, if_false, Option.bind_some]
          rfl

theorem write_holds (holds : cache.Holds t) (command : Command) (r : Reply) :
    ∃ d, (do
      let cache ← cache.perform command
      pure (cache, r) : Except Datacache.Fault (BudgetCache × Reply)) = .ok (d, r) ∧
        d.Holds (effect t command) := by
  obtain ⟨d, performed, after⟩ := perform_holds holds command
  exact ⟨d, by rw [performed]; rfl, after⟩

/-- A request reaches at most one handler, which does what the table does. -/
theorem handleRequest_holds (holds : cache.Holds t) (fails : Bool) (request : Request)
    (r : Reply) : ∃ d, m.handleRequest fails request cache r = .ok (d, m.replyTo t request r) ∧
      d.Holds ((m.commandOf fails request).elim t (effect t)) := by
  unfold handleRequest crudMatchers replyTo commandOf
  by_cases get : request.method = ascii "GET"
  · have put : request.method ≠ ascii "PUT" := get ▸ by decide
    have post : request.method ≠ ascii "POST" := get ▸ by decide
    have del : request.method ≠ ascii "DELETE" := get ▸ by decide
    refine ⟨cache, ?_, ?_⟩
    · simp only [dispatch, if_pos get, if_neg put, if_neg post, if_neg del]
      cases reading : regexMatch .reading request.uri with
      | some what =>
          have page : regexMatch .page request.uri = none := by
            cases found : regexMatch .page request.uri with
            | none => rfl
            | some other =>
                rw [page_not_reading found] at reading
                cases reading
          have read := m.read_holds holds what request.data r
          simp only [page, read, Option.bind_some]
          cases regexMatch .writing request.uri <;> cases readingOf what <;> rfl
      | none =>
          cases writing : regexMatch .writing request.uri with
          | some what =>
              rw [reading_of_writing writing] at reading
              cases reading
          | none => cases regexMatch .page request.uri <;> rfl
    · cases regexMatch .writing request.uri with
      | none => exact holds
      | some what => simpa [put, post, del] using holds
  · simp only [dispatch, if_neg get]
    cases regexMatch .writing request.uri with
    | none =>
        refine ⟨cache, ?_, holds⟩
        cases regexMatch .reading request.uri <;> cases regexMatch .page request.uri <;> rfl
    | some what =>
        have written (command : Command) := write_holds holds command r
        simp only [Option.bind_some]
        by_cases put : request.method = ascii "PUT"
        · obtain ⟨d, run, after⟩ := written (.put (m.campaignMatch what request.data) fails)
          have done : m.create fails cache what request.data r = .ok (d, r) := run
          simp only [if_pos put, Option.elim_some]
          refine ⟨d, ?_, after⟩
          cases regexMatch .reading request.uri <;> cases regexMatch .page request.uri <;>
            simp only [bind, Except.bind, done]
        by_cases post : request.method = ascii "POST"
        · obtain ⟨d, run, after⟩ := written (.post (m.campaignMatch what request.data))
          have done : m.update cache what request.data r = .ok (d, r) := run
          simp only [if_neg put, if_pos post, Option.elim_some]
          refine ⟨d, ?_, after⟩
          cases regexMatch .reading request.uri <;> cases regexMatch .page request.uri <;>
            simp only [bind, Except.bind, done]
        by_cases del : request.method = ascii "DELETE"
        · obtain ⟨d, run, after⟩ := written (.delete (m.campaignMatch what request.data))
          have done : m.delete cache what request.data r = .ok (d, r) := run
          simp only [if_neg put, if_neg post, if_pos del, Option.elim_some]
          refine ⟨d, ?_, after⟩
          cases regexMatch .reading request.uri <;> cases regexMatch .page request.uri <;>
            simp only [bind, Except.bind, done]
        · simp only [if_neg put, if_neg post, if_neg del, Option.elim_none]
          refine ⟨cache, ?_, holds⟩
          cases regexMatch .reading request.uri <;> cases regexMatch .page request.uri <;>
            simp only [bind, Except.bind]

/-- Whatever the requests are and the other processes do in between, nothing fails, and the
    replies are those of the table. -/
theorem run_holds (holds : cache.Holds t) (events : List Event) :
    ∃ d, m.run cache events = .ok (d, (m.outcomes t events).2) ∧
      d.Holds (m.outcomes t events).1 := by
  induction events generalizing cache t with
  | nil => exact ⟨cache, rfl, holds⟩
  | cons event events ih =>
      cases event with
      | request request status fails =>
          obtain ⟨d, handled, after⟩ := m.handleRequest_holds holds fails request (fresh status)
          obtain ⟨e, rest, final⟩ := ih after
          refine ⟨e, ?_, final⟩
          rw [run, handled]
          simp only [bind, Except.bind]
          rw [rest]
          rfl
      | other command =>
          obtain ⟨d, performed, after⟩ := perform_holds holds command
          obtain ⟨e, rest, final⟩ := ih after
          refine ⟨e, ?_, final⟩
          rw [run, performed]
          exact rest

end Requests

section Restoring

variable {cache : BudgetCache} {t : Table UInt32 CampaignBudget}
  {body : CampaignBudget → StdString}

/-- What a reply tells of a record. -/
def withoutOverdraft (budget : CampaignBudget) : CampaignBudget :=
  { budget with dayBudgetOverdraft := 0 }

theorem withoutOverdraft_id (budget : CampaignBudget) :
    (withoutOverdraft budget).campaignId = budget.campaignId := rfl

/-- A request to list all records. -/
def listing : Request where
  method := ascii "GET"
  uri := ascii "/campaign/budget"

/-- A request to store a record under the id that it tells. -/
def restoring (body : CampaignBudget → StdString) (budget : CampaignBudget) : Request where
  method := ascii "PUT"
  uri := ascii "/campaign/budget/id/" ++ VanillaRtb.toString budget.campaignId.toNat
  data := body budget

theorem isDigit_eq (c : UInt8) : Encoders.isDigit c = RequestParser.isDigit c := by
  simp [Encoders.isDigit, RequestParser.isDigit, byte]

theorem toString_nonempty (n : Nat) : VanillaRtb.toString n ≠ [] := by
  simp [VanillaRtb.toString]

/-- The two ways to read digits agree. -/
theorem foldl_appendDigit {digits : StdString} (acc : Nat)
    (all : ∀ c ∈ digits, RequestParser.isDigit c = true) :
    digits.foldl RequestParser.appendDigit (acc : Int) =
      (digits.foldl (fun n c => 10 * n + (c.toNat - 48)) acc : Nat) := by
  induction digits generalizing acc with
  | nil => rfl
  | cons c digits ih =>
      obtain ⟨digit, later⟩ := List.forall_mem_cons.mp all
      simp only [RequestParser.isDigit, Bool.and_eq_true, decide_eq_true_eq,
        UInt8.le_iff_toNat_le] at digit
      have least : 48 ≤ c.toNat := digit.1
      rw [List.foldl_cons, List.foldl_cons, ← ih _ later]
      congr 1
      rw [RequestParser.appendDigit]
      omega

theorem digits_toString (n : Nat) : Encoders.digits? (VanillaRtb.toString n) = some n := by
  have digits := toString_digits n
  have value := foldl_appendDigit 0 digits
  have same : decimal (VanillaRtb.toString n) =
      (Encoders.digitsValue (VanillaRtb.toString n) : Nat) := value
  rw [decimal_toString, Nat.cast_inj] at same
  rw [Encoders.digits?, if_pos, ← same]
  refine ⟨toString_nonempty n, ?_⟩
  rw [List.all_eq_true]
  intro c inside
  rw [isDigit_eq]
  exact digits c inside

theorem digit_not_inCommand {c : UInt8} (digit : Encoders.isDigit c = true) :
    inCommand c = false := by
  simp only [Encoders.isDigit, decide_eq_true_eq, UInt8.le_iff_toNat_le] at digit
  have most : c.toNat ≤ 57 := digit.2
  have least : 48 ≤ c.toNat := digit.1
  simp [inCommand, byte, UInt8.le_iff_toNat_le, ← UInt8.toNat_inj]
  omega

/-- A command in front of digits. -/
theorem regexMatch_writing {command digits : StdString} (some_ : command ≠ [])
    (letters : ∀ c ∈ command, inCommand c = true) (number : digits ≠ [])
    (figures : ∀ c ∈ digits, Encoders.isDigit c = true) :
    regexMatch .writing (ascii "/campaign/" ++ (command ++ digits)) =
      some ⟨ascii "/campaign/" ++ (command ++ digits), command, digits⟩ := by
  have whole : RequestHandler.cStr (ascii "/campaign/" ++ (command ++ digits)) =
      ascii "/campaign/" ++ (command ++ digits) := by
    apply List.takeWhile_eq_self_iff.mpr
    simp only [List.forall_mem_append, decide_eq_true_eq]
    refine ⟨by decide +kernel, ?_, ?_⟩
    · rintro c inside rfl
      exact absurd (letters 0 inside) (by decide)
    · rintro c inside rfl
      exact absurd (figures 0 inside) (by decide)
  have taken : digits.takeWhile inCommand = [] ∧ digits.dropWhile inCommand = digits := by
    cases digits with
    | nil => exact absurd rfl number
    | cons d digits =>
        have other := digit_not_inCommand (figures d List.mem_cons_self)
        simp [other]
  simp only [regexMatch, whole]
  rw [if_pos (List.prefix_append _ _), List.drop_left, List.takeWhile_append_of_pos letters,
    List.dropWhile_append_of_pos letters, taken.1, taken.2, List.append_nil,
    if_pos ⟨some_, number, List.all_eq_true.mpr figures⟩]

theorem restoring_matched (body : CampaignBudget → StdString) (budget : CampaignBudget) :
    regexMatch .writing (restoring body budget).uri =
      some ⟨(restoring body budget).uri, ascii "budget/id/",
        VanillaRtb.toString budget.campaignId.toNat⟩ := by
  apply @regexMatch_writing (ascii "budget/id/")
  case some_ => decide
  case letters => decide +kernel
  case number => exact toString_nonempty _
  case figures =>
    intro c inside
    rw [isDigit_eq]
    exact toString_digits _ c inside

/-- The record is added under its id, unless there is one already. -/
theorem effect_restoring {budget : CampaignBudget} (fails : Bool)
    (legible : m.parse (body budget) = some (CampaignBudgetMapper.toJson budget)) :
    (m.commandOf fails (restoring body budget)).elim t (effect t) =
      t.add budget.campaignId (withoutOverdraft budget) := by
  have put : (restoring body budget).method = ascii "PUT" := rfl
  have id : CampaignMatch.campaignId
      ⟨ascii "budget/id/", VanillaRtb.toString budget.campaignId.toNat,
        m.parse (restoring body budget).data⟩ = some budget.campaignId := by
    rw [CampaignMatch.campaignId, digits_toString, Option.bind_some,
      if_pos budget.campaignId.toNat_lt, UInt32.ofNat_toNat]
  have data : m.parse (restoring body budget).data =
      some (CampaignBudgetMapper.toJson budget) := legible
  rw [commandOf, restoring_matched]
  simp only [Option.bind_some, if_pos put, Option.elim_some, effect, campaignMatch,
    CampaignMatch.stored, CampaignMatch.handled, if_true, id]
  simp only [data, Option.bind_eq_bind, Option.bind_some, campaignBudget_toJson]
  rfl

theorem outcomes_restoring (status : CampaignBudget → Nat) (fails : CampaignBudget → Bool)
    (budgets : List CampaignBudget)
    (legible : ∀ b ∈ budgets, m.parse (body b) = some (CampaignBudgetMapper.toJson b)) :
    (m.outcomes t (budgets.map fun b => .request (restoring body b) (status b) (fails b))).1 =
      (budgets.map withoutOverdraft).foldl (fun t b => t.add b.campaignId b) t := by
  induction budgets generalizing t with
  | nil => rfl
  | cons budget budgets ih =>
      obtain ⟨here, later⟩ := List.forall_mem_cons.mp legible
      rw [List.map_cons, List.map_cons, List.foldl_cons, ← ih later, outcomes]
      simp only [m.effect_restoring (fails budget) here]
      rfl

/-- The reply to a listing has every record in the order of the ids. -/
theorem listing_content (holds : cache.Holds t) (fails : Bool) (status : Nat) :
    ∃ d r, m.handleRequest fails listing cache (fresh status) = .ok (d, r) ∧ d.Holds t ∧
      r.content = m.toString (.array ((t.values campaignIds).map CampaignBudgetMapper.toJson)) := by
  obtain ⟨d, handled, after⟩ := m.handleRequest_holds holds fails listing (fresh status)
  have reading : regexMatch .reading listing.uri =
      some ⟨ascii "/campaign/budget", ascii "budget", []⟩ := by decide +kernel
  have writing : regexMatch .writing listing.uri = none := by decide +kernel
  refine ⟨d, _, handled, ?_, ?_⟩
  · simpa only [commandOf, writing, Option.bind_none, Option.elim_none] using after
  · have all : readingOf ⟨ascii "/campaign/budget", ascii "budget", []⟩ = some ⟨false, none⟩ := by
      rfl
    have get : listing.method = ascii "GET" := rfl
    rw [replyTo, if_pos get, reading, Option.bind_some, all]
    rfl

/-- Clicks for 10, of which one was beyond the limit. -/
def overdrawn : CampaignBudget where
  campaignId := 1
  dayBudgetLimit := 0
  dayBudgetSpent := 95
  dayBudgetOverdraft := 5
  metric := ⟨.cpc, 10⟩

def overdrawnText : StdString :=
  ascii "\x7b\"budget\":0,\"id\":1,\"metric\":\x7b\"id\":2,\"value\":10\x7d,\"spent\":95\x7d"

def overdrawnManager : CampaignManager where
  parse text :=
    if text = overdrawnText then some (CampaignBudgetMapper.toJson overdrawn) else none
  toString
    | .array _ => byte '[' :: overdrawnText ++ [byte ']']
    | _ => overdrawnText
  root := ascii "/srv/campaign"
  files _ := none

def overdrawnCampaign :
    MultiIndex (Entity.key : Entity UInt32 CampaignBudget → UInt32) campaignPart :=
  (MultiIndex.empty.insert { key := 1, data := overdrawn }).1

end Restoring

end CampaignManager

end VanillaRtb.Campaign
