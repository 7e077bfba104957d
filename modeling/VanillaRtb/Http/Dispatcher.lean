import VanillaRtb.Http.Reply

/-! # The dispatcher behind a connection

Every expression that matches the target hands the reply to its handler for the method, if it
has one, in the order of the map. The connection writes the reply whatever has become of it,
and clears it for the next request.
-/

namespace VanillaRtb.Http

open Reply

variable {World Expression Match : Type}

/-- What a handler does to the reply, in the world it is called in. -/
abbrev Handler (World Match : Type) : Type := World → Match → StdString → List ReplyStep

/-- `_handlers`; a method that is looked up and not there stays without a handler. -/
structure CrudMatcher (World Match : Type) where
  handlers : StdString → Option (Handler World Match) := fun _ => none

namespace CrudMatcher

def on (m : CrudMatcher World Match) (method : String) (handler : Handler World Match) :
    CrudMatcher World Match :=
  { handlers := Function.update m.handlers (ascii method) (some handler) }

def get (m : CrudMatcher World Match) (handler : Handler World Match) : CrudMatcher World Match :=
  m.on "GET" handler

def post (m : CrudMatcher World Match) (handler : Handler World Match) : CrudMatcher World Match :=
  m.on "POST" handler

def del (m : CrudMatcher World Match) (handler : Handler World Match) : CrudMatcher World Match :=
  m.on "DELETE" handler

def put (m : CrudMatcher World Match) (handler : Handler World Match) : CrudMatcher World Match :=
  m.on "PUT" handler

/-- What the handler of the method does, if there is one. -/
def steps (m : CrudMatcher World Match) (world : World) (request : Request) (what : Match) :
    List ReplyStep :=
  match m.handlers request.method with
  | some handler => handler world what request.data
  | none => []

def handleRequest (m : CrudMatcher World Match) (world : World) (request : Request)
    (response : Reply) (what : Match) : Reply :=
  match m.handlers request.method with
  | some handler => (handler world what request.data).foldl ReplyStep.apply response
  | none => response

theorem handleRequest_eq (m : CrudMatcher World Match) (world : World) (request : Request)
    (response : Reply) (what : Match) :
    m.handleRequest world request response what =
      (m.steps world request what).foldl ReplyStep.apply response := by
  unfold handleRequest steps
  cases m.handlers request.method with
  | none => rfl
  | some handler => rfl

end CrudMatcher

/-- `regexMatch` is that of the expressions that are regular, and a search for those that
    are strings; the matchers are in the order of their map. -/
structure CrudDispatcher (World Expression Match : Type) where
  regexMatch : Expression → StdString → Option Match
  crudMatchers : List (Expression × CrudMatcher World Match)

/-- The search of a dispatcher with plain strings. -/
def stringMatch (expression uri : StdString) : Option StdString :=
  if expression <:+: uri then some expression else none

namespace CrudDispatcher

def handleRequest (d : CrudDispatcher World Expression Match) (world : World) (request : Request)
    (response : Reply) : Reply :=
  d.crudMatchers.foldl (fun response matcher =>
    match d.regexMatch matcher.1 request.uri with
    | some what => matcher.2.handleRequest world request response what
    | none => response) response

/-- What all the handlers do that a request reaches. -/
def steps (d : CrudDispatcher World Expression Match) (world : World) (request : Request) :
    List ReplyStep :=
  d.crudMatchers.flatMap fun matcher =>
    match d.regexMatch matcher.1 request.uri with
    | some what => matcher.2.steps world request what
    | none => []

theorem handleRequest_eq (d : CrudDispatcher World Expression Match) (world : World)
    (request : Request) (response : Reply) :
    d.handleRequest world request response =
      (d.steps world request).foldl ReplyStep.apply response := by
  unfold handleRequest steps
  induction d.crudMatchers generalizing response with
  | nil => rfl
  | cons matcher matchers ih =>
      rw [List.foldl_cons, List.flatMap_cons, List.foldl_append, ih]
      cases d.regexMatch matcher.1 request.uri with
      | none => rfl
      | some what =>
          have here := matcher.2.handleRequest_eq world request response what
          exact congrArg (fun r => (List.flatMap _ matchers).foldl ReplyStep.apply r) here

end CrudDispatcher

section Effects

variable {Error : Type}

/-- A handler that may change the world it is called in, and may fail. -/
abbrev EffectHandler (World Error Match : Type) :=
  World → Match → StdString → Reply → Except Error (World × Reply)

/-- A handler that leaves the world as it is. -/
def Handler.effect (handler : Handler World Match) : EffectHandler World Error Match :=
  fun world what data response =>
    .ok (world, (handler world what data).foldl ReplyStep.apply response)

/-- `handle_request`, where each handler is called in the world that the one before has left. -/
def dispatch (regexMatch : Expression → StdString → Option Match) (request : Request) :
    List (Expression × (StdString → Option (EffectHandler World Error Match))) →
      World → Reply → Except Error (World × Reply)
  | [], world, response => .ok (world, response)
  | (expression, handlers) :: matchers, world, response => do
      let (world, response) ←
        match regexMatch expression request.uri with
        | some what =>
            match handlers request.method with
            | some handler => handler world what request.data response
            | none => .ok (world, response)
        | none => .ok (world, response)
      dispatch regexMatch request matchers world response

theorem CrudDispatcher.dispatch_eq (d : CrudDispatcher World Expression Match) (world : World)
    (request : Request) (response : Reply) :
    dispatch d.regexMatch request
        (d.crudMatchers.map fun m => (m.1, fun method => (m.2.handlers method).map Handler.effect))
        world response =
      (.ok (world, d.handleRequest world request response) : Except Error (World × Reply)) := by
  unfold CrudDispatcher.handleRequest
  induction d.crudMatchers generalizing response with
  | nil => rfl
  | cons matcher matchers ih =>
      rw [List.map_cons, List.foldl_cons, dispatch]
      cases d.regexMatch matcher.1 request.uri with
      | none => exact ih response
      | some what =>
          simp only [CrudMatcher.handleRequest]
          cases matcher.2.handlers request.method with
          | none => exact ih response
          | some handler => exact ih _

end Effects

/-- What a completed read sends: the reply of the handlers, or the stock reply 400. -/
def answer (d : CrudDispatcher World Expression Match) (world : World) (reply : Reply) :
    Ending → Option Reply
  | .handled request => some (d.handleRequest world request reply).doWrite
  | .badRequest => some (stockReply .badRequest (extensionToType (ascii "html"))).doWrite
  | .reading | .escaped | .overrun => none

/-- The reply as it is cleared when it has been written. -/
def cleared : Reply := { status := StatusType.ok.code }

/-- The replies that a connection sends, one completion after the other. -/
def replies (d : CrudDispatcher World Expression Match) : Reply → List (World × Ending) →
    List Reply
  | _, [] => []
  | reply, (world, ending) :: more =>
      match answer d world reply ending with
      | some sent => sent :: replies d cleared more
      | none => replies d reply more

/-- The reply with nothing in it; the status of the first one is whatever is in its memory. -/
def fresh (status : Nat) : Reply := { status }

section Framing

variable (d : CrudDispatcher World Expression Match)

theorem answer_wellFramed_iff (world : World) (status : Nat) (request : Request) :
    WellFramed (d.handleRequest world request (fresh status)).doWrite ↔
      ReplyStep.Framed (d.steps world request) := by
  rw [wellFramed_doWrite_iff, d.handleRequest_eq]
  exact (good_foldl_iff status _).2

theorem badRequest_wellFramed :
    WellFramed (stockReply .badRequest (extensionToType (ascii "html"))).doWrite := by
  rw [wellFramed_doWrite_iff, good_stock_iff]
  decide

/-- Every reply of a connection can be told from the next exactly if the handlers of each
    request flush what they stream, or leave a stock reply other than a 204. -/
theorem replies_wellFramed_iff (status : Nat) (completions : List (World × Ending)) :
    (∀ r ∈ replies d (fresh status) completions, WellFramed r) ↔
      ∀ world request, (world, .handled request) ∈ completions →
        ReplyStep.Framed (d.steps world request) := by
  induction completions generalizing status with
  | nil => exact iff_of_true nofun nofun
  | cons completion more ih =>
      obtain ⟨world, ending⟩ := completion
      have skip : (∀ request, ending ≠ .handled request) →
          ((∀ world' request, (world', .handled request) ∈ (world, ending) :: more →
              ReplyStep.Framed (d.steps world' request)) ↔
            ∀ world' request, (world', .handled request) ∈ more →
              ReplyStep.Framed (d.steps world' request)) := by
        intro other
        refine forall_congr' fun world' => forall_congr' fun request => ?_
        rw [List.mem_cons, or_iff_right]
        intro same
        exact other request (congrArg Prod.snd same).symm
      cases ending with
      | handled request =>
          rw [replies]
          change (∀ r ∈ (d.handleRequest world request (fresh status)).doWrite ::
            replies d (fresh _) more, WellFramed r) ↔ _
          rw [List.forall_mem_cons, answer_wellFramed_iff, ih]
          constructor
          · rintro ⟨here, later⟩ world' request' inside
            rcases List.mem_cons.mp inside with same | after
            · cases same
              exact here
            · exact later world' request' after
          · intro all
            refine ⟨all world request List.mem_cons_self, ?_⟩
            intro world' request' inside
            exact all world' request' (List.mem_cons_of_mem _ inside)
      | badRequest =>
          rw [skip nofun, ← ih _, replies]
          change (∀ r ∈ _ :: replies d (fresh _) more, WellFramed r) ↔ _
          rw [List.forall_mem_cons, and_iff_right badRequest_wellFramed]
      | reading => rw [skip nofun, ← ih status, replies]; rfl
      | escaped => rw [skip nofun, ← ih status, replies]; rfl
      | overrun => rw [skip nofun, ← ih status, replies]; rfl

/-- A handler for one target. -/
def venueHandlers : CrudDispatcher Unit StdString StdString where
  regexMatch := stringMatch
  crudMatchers :=
    [(ascii "/venue_handlers", CrudMatcher.get {} fun _ what _ =>
      [.stream (ascii "received:"), .stream what, .flush .ok (ascii "text")])]

/-- A request that no expression matches is answered without a length. -/
theorem unmatched_target : ¬ ∀ (status : Nat) (completions : List (Unit × Ending)),
    ∀ r ∈ replies venueHandlers (fresh status) completions, WellFramed r := by
  intro framed
  have sent : replies venueHandlers (fresh 200)
      [((), .handled { method := ascii "GET", uri := ascii "/" })] = [(fresh 200).doWrite] := by
    rfl
  have unannounced : lengthHeader 0 ∉ (fresh 200).doWrite.headers := by decide
  exact unannounced (framed 200 _ _ (sent ▸ List.mem_singleton_self _)).announced

end Framing

end VanillaRtb.Http
