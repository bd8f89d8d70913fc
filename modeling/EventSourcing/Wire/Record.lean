import EventSourcing.Fault
import EventSourcing.Text.Base64
import EventSourcing.Wire.Message

/-!
# Records on the wire

Commits, snapshots and heads as messages. A payload or a header value travels as the base64 text of
its serialized form, which the server need not understand; a commit id as 32 hexadecimal digits; a
stamp as whole seconds, rounded down.

Reading a commit checks the digits of the id, the stamp, the events in order, each its payload and
then its headers, the number of bytes of the id, and the headers of the commit; the first check that
fails gives the fault.
-/

namespace EventSourcing
namespace Wire

/-- The text of a record. -/
def encodeRecord {α : Type} (codec : Codec α) (layout : Layout) (x : α) : String :=
  String.ofList ((Base64.encode (serialize codec layout x)).map fun b => Char.ofNat b.toNat)

/-- The record of a text; a fault of the text names the field that it stands in. -/
def decodeRecord {α : Type} (codec : Codec α) (field text : String) : Except Fault α :=
  match Base64.decode (Utf8.ofString text) with
  | .error e => .error (.wire (field ++ ": " ++ e.message))
  | .ok bs => (deserialize codec bs).mapError .serialization

def encodeHeaders (layout : Layout) (headers : Fields) : TextMap :=
  headers.map fun h => (h.1, encodeRecord Json.codec layout h.2)

/-- Headers of texts; a fault names the key of the header. -/
def decodeHeaders : TextMap → Except Fault Fields
  | [] => .ok []
  | (key, text) :: rest => do
    let value ← decodeRecord Json.codec key text
    return (key, value) :: (← decodeHeaders rest)

namespace EventMessage

def ofEvent (layout : Layout) (e : Event) : EventMessage where
  body := encodeRecord Payload.codec layout e.body
  headers := encodeHeaders layout e.headers

def toEvent (m : EventMessage) : Except Fault Event := do
  let body ← decodeRecord Payload.codec "body" m.body
  let headers ← decodeHeaders m.headers
  return ⟨body, headers⟩

end EventMessage

namespace CommitMessage

/-- An attempt as a message. -/
def ofAttempt (layout : Layout) (a : Attempt) : CommitMessage where
  tenant := a.stream.tenant
  stream := a.stream.stream
  revision := a.revision
  id := a.id.digits
  sequence := a.sequence
  stamp := a.stamp.seconds
  headers := encodeHeaders layout a.headers
  events := a.events.map (EventMessage.ofEvent layout)

/-- A commit as a message. -/
def ofCommit (layout : Layout) (c : Commit) : CommitMessage where
  tenant := c.stream.tenant
  stream := c.stream.stream
  revision := c.revision
  id := c.id.digits
  sequence := c.sequence
  stamp := c.stamp.seconds
  checkpoint := c.checkpoint
  headers := encodeHeaders layout c.headers
  events := c.events.map (EventMessage.ofEvent layout)

/-- The events of messages, or the first fault. -/
def toEvents : List EventMessage → Except Fault (List Event)
  | [] => .ok []
  | m :: ms => do
    let e ← m.toEvent
    return e :: (← toEvents ms)

def toCommit (m : CommitMessage) : Except Fault Commit := do
  let idBytes ←
    match Hex.decode (Utf8.ofString m.id) with
    | .error e => throw (.wire ("commit_id: " ++ e.message))
    | .ok bs => pure bs
  let stamp ←
    match Stamp.ofSeconds? m.stamp with
    | none => throw (.wire ("commit_stamp: " ++ toString m.stamp))
    | some t => pure t
  let events ← toEvents m.events
  let id ←
    match CommitId.ofBytes? idBytes with
    | none => throw .invalidId
    | some id => pure id
  let headers ← decodeHeaders m.headers
  return {
    stream := ⟨m.tenant, m.stream⟩, revision := m.revision, id := id, sequence := m.sequence
    stamp := stamp, headers := headers, events := events, checkpoint := m.checkpoint }

/-- A commit that an attempt becomes at checkpoint zero is the same message. -/
theorem ofCommit_confirm_zero (layout : Layout) (a : Attempt) :
    ofCommit layout (a.confirm 0) = ofAttempt layout a := rfl

end CommitMessage

namespace SnapshotMessage

def ofSnapshot (layout : Layout) (s : Snapshot) : SnapshotMessage where
  tenant := s.stream.tenant
  stream := s.stream.stream
  revision := s.revision
  payload := encodeRecord Payload.codec layout s.payload

def toSnapshot (m : SnapshotMessage) : Except Fault Snapshot := do
  let payload ← decodeRecord Payload.codec "payload" m.payload
  return ⟨⟨m.tenant, m.stream⟩, m.revision, payload⟩

end SnapshotMessage

def HeadMessage.toHead (m : HeadMessage) : StreamHead := ⟨⟨m.tenant, m.stream⟩, m.head, m.snapshot⟩

/-- A head as a message. -/
def HeadMessage.ofHead (h : StreamHead) : HeadMessage :=
  ⟨h.stream.tenant, h.stream.stream, h.head, h.snapshot⟩

end Wire
end EventSourcing
