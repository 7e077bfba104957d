import VanillaRtb.StdString

/-! # JSON values and their event streams

A value is a tree; objects keep the members in the order they were added. A writer that
is driven by events is told the value piece by piece, and a stack of open arrays and
objects puts the pieces together again.
-/

namespace VanillaRtb.Lib

inductive JsonValue where
  | null
  | boolean (b : Bool)
  | integer (n : Int64)
  | decimal (x : Float)
  | string (s : StdString)
  | array (elements : List JsonValue)
  | object (members : List (StdString × JsonValue))
  deriving Inhabited

namespace JsonValue

/-- The first member under a name. -/
def lookup (name : StdString) (members : List (StdString × JsonValue)) : Option JsonValue :=
  (members.find? fun m => m.1 == name).map Prod.snd

def member? (name : StdString) : JsonValue → Option JsonValue
  | object members => lookup name members
  | _ => none

@[simp] theorem member?_object (name : StdString) (members : List (StdString × JsonValue)) :
    (object members).member? name = lookup name members := rfl

end JsonValue

inductive JsonEvent where
  | null
  | boolean (b : Bool)
  | integer (n : Int64)
  | decimal (x : Float)
  | string (s : StdString)
  | startArray
  | endArray
  | startObject
  | endObject

namespace JsonEvent

/-- What is open: an array, an object between two members, or an object after a name. -/
inductive Frame where
  | array (elements : List JsonValue)
  | object (members : List (StdString × JsonValue))
  | member (members : List (StdString × JsonValue)) (name : StdString)

def add (v : JsonValue) : List Frame → Option (List Frame)
  | .array vs :: stack => some (.array (vs ++ [v]) :: stack)
  | .member ms name :: stack => some (.object (ms ++ [(name, v)]) :: stack)
  | .object _ :: _ => none
  | [] => none

/-- A string where an object expects a name is the name. -/
def consume (stack : List Frame) : JsonEvent → Option (List Frame)
  | null => add .null stack
  | boolean b => add (.boolean b) stack
  | integer n => add (.integer n) stack
  | decimal x => add (.decimal x) stack
  | string s =>
      match stack with
      | .object ms :: stack => some (.member ms s :: stack)
      | stack => add (.string s) stack
  | startArray => some (.array [] :: stack)
  | startObject => some (.object [] :: stack)
  | endArray =>
      match stack with
      | .array vs :: stack => add (.array vs) stack
      | _ => none
  | endObject =>
      match stack with
      | .object ms :: stack => add (.object ms) stack
      | _ => none

/-- The value that a complete stream of events spells. -/
def written (events : List JsonEvent) : Option JsonValue :=
  match events.foldlM consume [.array []] with
  | some [.array [v]] => some v
  | _ => none

end JsonEvent

namespace JsonValue

open JsonEvent

mutual

def events : JsonValue → List JsonEvent
  | null => [.null]
  | boolean b => [.boolean b]
  | integer n => [.integer n]
  | decimal x => [.decimal x]
  | string s => [.string s]
  | array vs => .startArray :: eventsOfElements vs ++ [.endArray]
  | object ms => .startObject :: eventsOfMembers ms ++ [.endObject]

def eventsOfElements : List JsonValue → List JsonEvent
  | [] => []
  | v :: vs => v.events ++ eventsOfElements vs

def eventsOfMembers : List (StdString × JsonValue) → List JsonEvent
  | [] => []
  | (name, v) :: ms => .string name :: v.events ++ eventsOfMembers ms

end

theorem eventsOfElements_eq (vs : List JsonValue) :
    eventsOfElements vs = vs.flatMap events := by
  induction vs with
  | nil => rfl
  | cons v vs ih => rw [eventsOfElements, ih, List.flatMap_cons]

mutual

theorem consume_events (v : JsonValue) {stack after : List Frame} (h : add v stack = some after) :
    v.events.foldlM consume stack = some after := by
  cases v with
  | null => simpa [events, consume] using h
  | boolean b => simpa [events, consume] using h
  | integer n => simpa [events, consume] using h
  | decimal x => simpa [events, consume] using h
  | string s =>
      cases stack with
      | nil => cases h
      | cons frame stack => cases frame <;> simp_all [events, consume, add]
  | array vs =>
      rw [events, List.cons_append, List.foldlM_cons, consume, Option.bind_eq_bind,
        Option.bind_some, List.foldlM_append, consume_elements vs, List.nil_append]
      simp only [Option.bind_eq_bind, Option.bind_some, List.foldlM_cons, List.foldlM_nil, consume,
        h, Option.pure_def]
  | object ms =>
      rw [events, List.cons_append, List.foldlM_cons, consume, Option.bind_eq_bind,
        Option.bind_some, List.foldlM_append, consume_members ms, List.nil_append]
      simp only [Option.bind_eq_bind, Option.bind_some, List.foldlM_cons, List.foldlM_nil, consume,
        h, Option.pure_def]

theorem consume_elements (vs done : List JsonValue) (stack : List Frame) :
    (eventsOfElements vs).foldlM consume (.array done :: stack) =
      some (.array (done ++ vs) :: stack) := by
  cases vs with
  | nil => rw [List.append_nil]; rfl
  | cons v vs =>
      rw [eventsOfElements, List.foldlM_append, consume_events v rfl]
      simp only [Option.bind_eq_bind, Option.bind_some, consume_elements vs, List.append_assoc,
        List.singleton_append]

theorem consume_members (ms done : List (StdString × JsonValue)) (stack : List Frame) :
    (eventsOfMembers ms).foldlM consume (.object done :: stack) =
      some (.object (done ++ ms) :: stack) := by
  cases ms with
  | nil => rw [List.append_nil]; rfl
  | cons m ms =>
      obtain ⟨name, v⟩ := m
      rw [eventsOfMembers, List.cons_append, List.foldlM_cons, consume, Option.bind_eq_bind,
        Option.bind_some, List.foldlM_append, consume_events v rfl]
      simp only [Option.bind_eq_bind, Option.bind_some, consume_members ms, List.append_assoc,
        List.singleton_append]

end

/-- A value comes back from its own events. -/
theorem written_events (v : JsonValue) : written v.events = some v := by
  rw [written, consume_events v rfl]
  rfl

end JsonValue

end VanillaRtb.Lib
