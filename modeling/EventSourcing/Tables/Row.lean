import EventSourcing.Operation
import EventSourcing.Tables.Cell

/-!
# Table rows

The database keeps three tables. `CommitRow.ofCommit` is the row that a commit is stored as, and
`CommitRow.decode` reads a row back, checking one column after the other; the first check that fails
gives the fault. Only the number of a row of commits is an integer whatever happens, since it is the
place of the row; every other column is a cell that may hold anything.

* Commits: checkpoint, tenant, stream, id, sequence, revision, number of events, stamp, headers,
  events. The checkpoint is unique; so are tenant, stream and sequence together, and tenant, stream
  and id.
* Streams: tenant, stream, head revision, snapshot revision. Tenant and stream are unique.
* Snapshots: tenant, stream, revision, payload. Tenant, stream and revision are unique.

Names are written into the text of a statement, and the database takes that text to end at the first
`U+0000`. A statement that names a tenant or a stream with that character is refused (`quotable`).
-/

namespace EventSourcing

/-- Whether a name can stand in a statement. -/
def quotable (name : String) : Bool := name.toList.all (· ≠ '\x00')

def StreamId.quotable (s : StreamId) : Bool :=
  EventSourcing.quotable s.tenant && EventSourcing.quotable s.stream

/-- Whether the names of a query can stand in a statement. -/
def Query.quotable : Query → Bool
  | .revisions stream .. => stream.quotable
  | .after tenant _ | .during tenant .. => EventSourcing.quotable tenant

/-- A row of the table of commits. -/
structure CommitRow where
  checkpoint : Int
  tenant : Cell
  stream : Cell
  /-- The digits of the commit id. -/
  id : Cell
  sequence : Cell
  revision : Cell
  /-- The number of events. -/
  items : Cell
  /-- Microseconds since the beginning of 1970. -/
  stamp : Cell
  headers : Cell
  payload : Cell
  deriving DecidableEq, Repr, Inhabited

/-- A row of the table of streams. -/
structure StreamRow where
  tenant : Cell
  stream : Cell
  head : Cell
  snapshot : Cell
  deriving DecidableEq, Repr, Inhabited

/-- A row of the table of snapshots. -/
structure SnapshotRow where
  tenant : Cell
  stream : Cell
  revision : Cell
  payload : Cell
  deriving DecidableEq, Repr, Inhabited

/-- A word of 32 bits from a column. -/
def wordOf (column : String) (c : Cell) : Except Fault Nat := do
  let n ← c.asInteger
  if 0 ≤ n ∧ n ≤ maxRevision then return n.toNat
  else throw (.corrupt (column ++ " out of range: " ++ toString n))

/-- A record from a column. -/
def recordOf {α : Type} (codec : Codec α) (bs : Bytes) : Except Fault α :=
  (deserialize codec bs).mapError .serialization

/-- The commit id that a column spells. -/
def idOf (c : Cell) : Except Fault CommitId := do
  let digits ← c.asText
  match Hex.decode (Utf8.ofString digits) with
  | .error e => throw (.corrupt e.message)
  | .ok bs =>
    match CommitId.ofBytes? bs with
    | none => throw .invalidId
    | some id => return id

/-- The stamp that a column counts. -/
def stampOf (c : Cell) : Except Fault Stamp := do
  let n ← c.asInteger
  match Stamp.ofMicros? n with
  | some t => return t
  | none => throw (.corrupt ("commit_stamp out of range: " ++ toString n))

namespace CommitRow

/-- The row of a commit. -/
def ofCommit (layout : Layout) (c : Commit) : CommitRow where
  checkpoint := c.checkpoint
  tenant := .text c.stream.tenant
  stream := .text c.stream.stream
  id := .text c.id.digits
  sequence := .integer c.sequence
  revision := .integer c.revision
  items := .integer c.events.length
  stamp := .integer c.stamp.micros
  headers := .bytes (serialize headersCodec layout c.headers)
  payload := .bytes (serialize Event.listCodec layout c.events)

/-- Whether a row is of a tenant. -/
def ofTenant (tenant : String) (r : CommitRow) : Bool := r.tenant.same (.text tenant)

/-- Whether a row is of a stream. -/
def ofStream (stream : StreamId) (r : CommitRow) : Bool :=
  r.ofTenant stream.tenant && r.stream.same (.text stream.stream)

/-- The commit of a row. -/
def decode (r : CommitRow) : Except Fault Commit := do
  let id ← idOf r.id
  let stamp ← stampOf r.stamp
  let headers ← r.headers.asBytes
  let payload ← r.payload.asBytes
  let tenant ← r.tenant.asText
  let stream ← r.stream.asText
  let revision ← wordOf "stream_revision" r.revision
  let sequence ← wordOf "commit_sequence" r.sequence
  let headers ← recordOf headersCodec headers
  let events ← recordOf Event.listCodec payload
  return {
    stream := ⟨tenant, stream⟩, revision, id, sequence, stamp, headers, events
    checkpoint := r.checkpoint }

end CommitRow

namespace StreamRow

/-- Whether a row is of a tenant. -/
def ofTenant (tenant : String) (r : StreamRow) : Bool := r.tenant.same (.text tenant)

/-- Whether a row is of a stream. -/
def ofStream (stream : StreamId) (r : StreamRow) : Bool :=
  r.ofTenant stream.tenant && r.stream.same (.text stream.stream)

/-- The head and the snapshot of a row. -/
def revisions (r : StreamRow) : Except Fault (Nat × Nat) := do
  let head ← wordOf "head_revision" r.head
  let snapshot ← wordOf "snapshot_revision" r.snapshot
  return (head, snapshot)

/-- The head of a row. -/
def decode (r : StreamRow) : Except Fault StreamHead := do
  let tenant ← r.tenant.asText
  let stream ← r.stream.asText
  let (head, snapshot) ← r.revisions
  return ⟨⟨tenant, stream⟩, head, snapshot⟩

end StreamRow

namespace SnapshotRow

/-- Whether a row is of a tenant. -/
def ofTenant (tenant : String) (r : SnapshotRow) : Bool := r.tenant.same (.text tenant)

/-- Whether a row is of a stream. -/
def ofStream (stream : StreamId) (r : SnapshotRow) : Bool :=
  r.ofTenant stream.tenant && r.stream.same (.text stream.stream)

/-- The snapshot of a row of a stream. -/
def decode (stream : StreamId) (r : SnapshotRow) : Except Fault Snapshot := do
  let payload ← r.payload.asBytes
  let revision ← wordOf "stream_revision" r.revision
  let payload ← recordOf Payload.codec payload
  return ⟨stream, revision, payload⟩

end SnapshotRow

end EventSourcing
