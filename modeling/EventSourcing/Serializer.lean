import EventSourcing.Event
import EventSourcing.Json.Printer
import EventSourcing.Json.Reader

/-!
# Serialized records

A record is serialized as the UTF-8 bytes of its JSON text, in one of the two layouts. Reading first
checks that the bytes are text, then that the text is a value, then that the value is such a record;
each check has its own refusal. What `Json.rawKey` refuses counts as no such record.
-/

namespace EventSourcing

/-- Why bytes are not a record. -/
inductive SerializationFault where
  | notText (fault : Utf8.Fault)
  | notJson (fault : Json.TextFault)
  | mistyped
  deriving DecidableEq, Repr

/-- The fault of a text that is not read. -/
def SerializationFault.ofRead : Json.ReadFault → SerializationFault
  | .text fault => .notJson fault
  | .mistyped => .mistyped

/-- The bytes of a record. -/
def serialize {α : Type} (codec : Codec α) (layout : Layout) (x : α) : Bytes :=
  Utf8.encode ((codec.write x).text layout)

/-- The value that bytes spell. -/
def readJson (bs : Bytes) : Except SerializationFault Json :=
  match Utf8.decode bs with
  | .error e => .error (.notText e)
  | .ok cs =>
    match Json.read cs with
    | .error e => .error (.ofRead e)
    | .ok v => .ok v

/-- The record that bytes spell. -/
def deserialize {α : Type} (codec : Codec α) (bs : Bytes) : Except SerializationFault α :=
  match readJson bs with
  | .error e => .error e
  | .ok v =>
    match codec.read? v with
    | some x => .ok x
    | none => .error .mistyped

/-- Values as they are. -/
def Json.codec : Codec Json := ⟨id, Json.settle⟩

end EventSourcing
