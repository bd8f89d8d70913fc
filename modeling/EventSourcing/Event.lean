import EventSourcing.Json.Reader

/-!
# Events

An event has a payload, whose kind names the type of its data, and headers. This module also says
how the three are written as JSON: a payload is the object `data`, `kind`; an event is the object
`body`, `headers`; headers are an object. Reading accepts fields it does not know, requires the
others (an event may lack its headers) and also takes the array of the fields in the order of
declaration. Data and the values of headers are settled when they are read (`Json.settle`).
-/

namespace EventSourcing

/-- Data together with the name of its type. -/
structure Payload where
  kind : String
  data : Json
  deriving DecidableEq, Repr, Inhabited

/-- An event of a stream. -/
structure Event where
  body : Payload
  headers : Fields := []
  deriving DecidableEq, Repr, Inhabited

/-- How records of a type are written as JSON values and read back. -/
structure Codec (α : Type) where
  write : α → Json
  read? : Json → Option α

namespace Payload

def toJson (p : Payload) : Json := .object [("data", p.data), ("kind", .string p.kind)]

def ofJson? : Json → Option Payload
  | .object fields =>
    match Fields.get? "kind" fields, Fields.get? "data" fields with
    | some (.string kind), some data => data.settle.map (⟨kind, ·⟩)
    | _, _ => none
  | .array [.string kind, data] => data.settle.map (⟨kind, ·⟩)
  | _ => none

theorem ofJson?_toJson {p : Payload} (h : p.data.Plain) : ofJson? p.toJson = some p := by
  show p.data.settle.map _ = _
  rw [Json.settle_of_plain h, Option.map_some]

def codec : Codec Payload := ⟨toJson, ofJson?⟩

end Payload

/-- The headers that a value is. -/
def headersOf? : Json → Option Fields
  | .object fields => Json.settleFields fields
  | _ => none

theorem headersOf?_object {headers : Fields} (h : (Json.object headers).Plain) :
    headersOf? (.object headers) = some headers :=
  Json.settleFields_of_plain (Json.plain_object.1 h).2

/-- How headers are written and read. -/
def headersCodec : Codec Fields := ⟨.object, headersOf?⟩

namespace Event

def toJson (e : Event) : Json := .object [("body", e.body.toJson), ("headers", .object e.headers)]

def ofJson? : Json → Option Event
  | .object fields => do
    let body ← Payload.ofJson? (← Fields.get? "body" fields)
    match Fields.get? "headers" fields with
    | none => some ⟨body, []⟩
    | some headers => (headersOf? headers).map (⟨body, ·⟩)
  | .array [body] => do
    return ⟨← Payload.ofJson? body, []⟩
  | .array [body, headers] => do
    return ⟨← Payload.ofJson? body, ← headersOf? headers⟩
  | _ => none

theorem ofJson?_toJson {e : Event} (hbody : e.body.data.Plain)
    (hheaders : (Json.object e.headers).Plain) : ofJson? e.toJson = some e := by
  show (Payload.ofJson? e.body.toJson).bind
    (fun body => (headersOf? (.object e.headers)).map (Event.mk body)) = _
  rw [Payload.ofJson?_toJson hbody, Option.bind_some, headersOf?_object hheaders, Option.map_some]

/-- How the events of a commit are written and read. -/
def listCodec : Codec (List Event) where
  write events := .array (events.map toJson)
  read?
    | .array items => items.mapM ofJson?
    | _ => none

end Event

end EventSourcing
