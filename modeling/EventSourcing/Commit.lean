import EventSourcing.CommitId
import EventSourcing.Event
import EventSourcing.Stamp

/-!
# Commits

A commit appends one or more events to a stream. It carries the revision that the stream has after
it (the number of its events so far), its own sequence number within the stream (counted from 1) and
the checkpoint that the store gave it, which orders the commits of all streams. An attempt is a
commit without a checkpoint: what a writer proposes.

Revisions and sequences are words of 32 bits. They are natural numbers here, and the two operations
that could leave the words stop at their ends.
-/

namespace EventSourcing

/-- A stream of a tenant. -/
structure StreamId where
  tenant : String
  stream : String
  deriving DecidableEq, Repr, Inhabited

/-- The greatest revision and sequence. -/
def maxRevision : Nat := 4294967295

/-- The next revision; the greatest one has no next. -/
def nextRevision (n : Nat) : Nat := min (n + 1) maxRevision

/-- A proposal to append events to a stream. -/
structure Attempt where
  stream : StreamId
  /-- The revision of the stream after the commit. -/
  revision : Nat
  id : CommitId
  /-- The number of the commit within the stream. -/
  sequence : Nat
  stamp : Stamp
  headers : Fields
  events : List Event
  deriving DecidableEq, Repr, Inhabited

/-- A stored commit. -/
structure Commit extends Attempt where
  /-- The position of the commit in the store. -/
  checkpoint : Int
  deriving DecidableEq, Repr, Inhabited

namespace Attempt

/-- The revision of the stream that the writer appended to, negative for nonsense. -/
def previousRevision (a : Attempt) : Int := (a.revision : Int) - a.events.length

/-- The commit that a store makes of an attempt. -/
def confirm (a : Attempt) (checkpoint : Int) : Commit := { a with checkpoint := checkpoint }

@[simp] theorem confirm_toAttempt (a : Attempt) (k : Int) : (a.confirm k).toAttempt = a := rfl

@[simp] theorem confirm_checkpoint (a : Attempt) (k : Int) : (a.confirm k).checkpoint = k := rfl

end Attempt

namespace Commit

/-- The revision of the first event. -/
def firstRevision (c : Commit) : Nat := nextRevision (c.revision - c.events.length)

end Commit

/-- The state of a stream at a revision. -/
structure Snapshot where
  stream : StreamId
  revision : Nat
  payload : Payload
  deriving DecidableEq, Repr, Inhabited

/-- How far a stream goes, and its latest snapshot. -/
structure StreamHead where
  stream : StreamId
  head : Nat
  snapshot : Nat
  deriving DecidableEq, Repr, Inhabited

namespace StreamHead

/-- The revisions since the latest snapshot. -/
def unsnapshotted (h : StreamHead) : Nat := h.head - h.snapshot

/-- Two heads count as the same if the names of their streams are, whatever the tenant. -/
def same (a b : StreamHead) : Bool := a.stream.stream = b.stream.stream

/-- The number of different heads. -/
def distinct (heads : List StreamHead) : Nat := (heads.map (·.stream.stream)).eraseDups.length

end StreamHead

/-- The tenant of writers that name none. -/
def defaultTenant : String := "default"

end EventSourcing
