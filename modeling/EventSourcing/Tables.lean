import EventSourcing.Tables.Paging
import EventSourcing.Verdict

/-!
# The store in database tables

The same contract as the store in memory, kept in three tables. A commit is checked and inserted in
one transaction, so a refused one changes nothing. The head of a stream is the greatest sequence and
the greatest revision of its rows. Checkpoints are row numbers: above every number given out before,
also to rows that are gone, until the tables are dropped.

Without tables every statement fails, and a statement that names what is not `quotable` fails
always; an attempt without events needs no statement.
-/

namespace EventSourcing

/-- The contents of the database. -/
structure Tables where
  commits : List CommitRow := []
  streams : List StreamRow := []
  snapshots : List SnapshotRow := []
  /-- The greatest row number given out. -/
  lastRow : Int := 0
  deriving DecidableEq, Repr, Inhabited

/-- How a store uses its tables. -/
structure TableOptions where
  pageSize : Nat := 128
  layout : Layout := .compact
  deriving DecidableEq, Repr

/-- The rows of a page; there is at least one. -/
def TableOptions.rowsPerPage (o : TableOptions) : Nat := max 1 o.pageSize

namespace Tables

def ofStream (t : Tables) (stream : StreamId) : List CommitRow :=
  t.commits.filter (·.ofStream stream)

/-- The greatest of some cells, zero if there are none. -/
def greatest : List Cell → Cell
  | [] => .integer 0
  | c :: cs => cs.foldl Cell.later c

/-- The greatest row number there is, zero if there are no rows. -/
def greatestRow : List CommitRow → Int
  | [] => 0
  | r :: rs => rs.foldl (fun n s => max n s.checkpoint) r.checkpoint

/-- The number of the next row. -/
def nextRow (t : Tables) : Int := max t.lastRow (greatestRow t.commits) + 1

/-- The greatest row number that a database can give out. -/
def maxRow : Int := 9223372036854775807

/-- Sets the head of a stream, which has no snapshot if it is new. -/
def setHead (stream : StreamId) (head : Nat) : List StreamRow → List StreamRow
  | [] => [⟨.text stream.tenant, .text stream.stream, .integer head, .integer 0⟩]
  | r :: rs =>
    if r.ofStream stream then { r with head := .integer head } :: rs
    else r :: setHead stream head rs

/-- Inserts the commit of an attempt that has been checked. -/
def insert (layout : Layout) (a : Attempt) (t : Tables) : Except Fault (Commit × Tables) :=
  let row := t.nextRow
  let c := { a with stamp := a.stamp.floorMicros }.confirm row
  let taken := (t.ofStream a.stream).any fun r =>
    r.sequence.same (.integer a.sequence) || r.id.same (.text a.id.digits)
  if taken then .error a.conflict
  else if maxRow < row then .error .database
  else
    .ok (c, { t with
      commits := t.commits ++ [CommitRow.ofCommit layout c]
      streams := setHead a.stream a.revision t.streams
      lastRow := row })

/-- Checks an attempt against the rows of its stream and inserts its commit. -/
def append (layout : Layout) (a : Attempt) (t : Tables) : Except Fault (Commit × Tables) := do
  match (t.ofStream a.stream).find? (·.id.same (.text a.id.digits)) with
  | some r =>
    let existing ← r.decode
    throw (.duplicate existing)
  | none =>
    let sequence := greatest ((t.ofStream a.stream).map (·.sequence))
    let revision := greatest ((t.ofStream a.stream).map (·.revision))
    let _ ← sequence.asInteger
    let _ ← revision.asInteger
    let sequence ← wordOf "commit_sequence" sequence
    let revision ← wordOf "stream_revision" revision
    a.validate sequence revision
    t.insert layout a

/-- Accepts an attempt that fits. -/
def commit (layout : Layout) (a : Attempt) (t : Tables) : Except Fault (Option Commit) × Tables :=
  if a.stream.quotable then
    match t.append layout a with
    | .error e => (.error e, t)
    | .ok (c, t) => (.ok (some c), t)
  else (.error .database, t)

/-- The row of the greatest revision. -/
def latestRow : List SnapshotRow → Option SnapshotRow
  | [] => none
  | r :: rs =>
    match latestRow rs with
    | some s => some (if s.revision.before r.revision then r else s)
    | none => some r

/-- The latest snapshot of a stream up to a revision. -/
def snapshot (stream : StreamId) (last : Nat) (t : Tables) : Except Fault (Option Snapshot) :=
  let upTo (r : SnapshotRow) : Bool := r.ofStream stream && r.revision.atMost (.integer last)
  if stream.quotable then
    match latestRow (t.snapshots.filter upTo) with
    | none => .ok none
    | some r => (r.decode stream).map some
  else .error .database

/-- Records a snapshot at a revision that the stream has and that has none yet. -/
def addSnapshot (layout : Layout) (s : Snapshot) (t : Tables) : Except Fault Bool × Tables :=
  if s.stream.quotable then
    match t.streams.find? (·.ofStream s.stream) with
    | none => (.ok false, t)
    | some row =>
      match row.revisions with
      | .error e => (.error e, t)
      | .ok (head, latest) =>
        if s.revision = 0 ∨ head < s.revision then (.ok false, t)
        else if t.snapshots.any fun r =>
            r.ofStream s.stream && r.revision.same (.integer s.revision) then
          (.ok false, t)
        else
          (.ok true, { t with
            snapshots := t.snapshots ++ [⟨.text s.stream.tenant, .text s.stream.stream,
              .integer s.revision, .bytes (serialize Payload.codec layout s.payload)⟩]
            streams := t.streams.map fun r =>
              if r.ofStream s.stream then
                { r with snapshot := .integer (max latest s.revision : Nat) }
              else r })
  else (.error .database, t)

/-- The streams of a tenant with more than so many revisions since their snapshot, by name. -/
def streamsToSnapshot (tenant : String) (threshold : Nat) (t : Tables) :
    List (Except Fault StreamHead) :=
  let wanted (r : StreamRow) : Bool :=
    r.ofTenant tenant && (r.head.sub? r.snapshot).any fun n => (Cell.integer threshold).before n
  if quotable tenant then
    ((t.streams.filter wanted).mergeSort fun a b => a.stream.atMost b.stream).map StreamRow.decode
  else [.error .database]

/-- Deletes every row. -/
def clear (t : Tables) : Tables := { t with commits := [], streams := [], snapshots := [] }

/-- Deletes the rows of a tenant. -/
def dropTenant (tenant : String) (t : Tables) : Tables :=
  { t with
    commits := t.commits.filter fun r => !r.ofTenant tenant
    streams := t.streams.filter fun r => !r.ofTenant tenant
    snapshots := t.snapshots.filter fun r => !r.ofTenant tenant }

/-- Deletes the rows of a stream. -/
def dropStream (stream : StreamId) (t : Tables) : Tables :=
  { t with
    commits := t.commits.filter fun r => !r.ofStream stream
    streams := t.streams.filter fun r => !r.ofStream stream
    snapshots := t.snapshots.filter fun r => !r.ofStream stream }

end Tables

/-- A database: its tables, if they exist. -/
abbrev Database := Option Tables

namespace Database

def read (o : TableOptions) (q : Query) : Database → List Item
  | none => [.error .database]
  | some t => if q.quotable then readRows q o.rowsPerPage t.commits else [.error .database]

theorem read_of_quotable {o : TableOptions} {q : Query} {t : Tables} (h : q.quotable = true) :
    read o q (some t) = readRows q o.rowsPerPage t.commits := if_pos h

theorem read_of_not_quotable {o : TableOptions} {q : Query} {t : Tables} (h : q.quotable = false) :
    read o q (some t) = [.error .database] := if_neg (by simp [h])

def commit (o : TableOptions) (a : Attempt) (db : Database) :
    Except Fault (Option Commit) × Database :=
  if a.events.isEmpty then (.ok none, db)
  else
    match db with
    | none => (.error .database, none)
    | some t =>
      let (answer, t) := t.commit o.layout a
      (answer, some t)

theorem commit_some (o : TableOptions) (a : Attempt) (t : Tables) :
    Database.commit o a (some t) = if a.events = [] then (.ok none, some t)
      else ((t.commit o.layout a).1, some (t.commit o.layout a).2) := by
  rw [Database.commit]
  by_cases h : a.events = []
  · rw [if_pos h, if_pos (List.isEmpty_iff.2 h)]
  · rw [if_neg h, if_neg (mt List.isEmpty_iff.1 h)]

/-- Changes the tables, if they exist and the names of the statement can stand in it. -/
def update (quotable : Bool) (change : Tables → Tables) : Database → Except Fault Unit × Database
  | none => (.error .database, none)
  | some t => if quotable then (.ok (), some (change t)) else (.error .database, some t)

theorem update_of_quotable {quotable : Bool} {change : Tables → Tables} {t : Tables}
    (h : quotable = true) : update quotable change (some t) = (.ok (), some (change t)) := if_pos h

/-- Creates the tables where they do not exist. -/
def setUp : Database → Database
  | none => some {}
  | some t => some t

/-- The store in database tables as an engine. -/
def engine (o : TableOptions) : Engine Database
  | .commit a, db => let (r, db) := commit o a db; (⟨r, []⟩, db)
  | .read q, db => (⟨Feed.ofItems (read o q db), []⟩, db)
  | .snapshot stream last, db =>
    (⟨match db with | none => .error .database | some t => t.snapshot stream last, []⟩, db)
  | .addSnapshot s, db =>
    match db with
    | none => (⟨.error .database, []⟩, none)
    | some t => let (r, t) := t.addSnapshot o.layout s; (⟨r, []⟩, some t)
  | .streamsToSnapshot tenant threshold, db =>
    let heads :=
      match db with
      | none => [.error .database]
      | some t => t.streamsToSnapshot tenant threshold
    (⟨heads, []⟩, db)
  | .setUp, db => (⟨.ok (), []⟩, setUp db)
  | .dropStore, _ => (⟨.ok (), []⟩, none)
  | .purge tenant, db =>
    let (r, db) := update (quotable tenant) (.dropTenant tenant) db; (⟨r, []⟩, db)
  | .purgeAll, db => let (r, db) := update true .clear db; (⟨r, []⟩, db)
  | .deleteStream stream, db =>
    let (r, db) := update stream.quotable (.dropStream stream) db; (⟨r, []⟩, db)

end Database

end EventSourcing
