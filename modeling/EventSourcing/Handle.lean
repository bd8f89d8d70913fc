import EventSourcing.Operation

/-!
# Stream handles

A handle is a writer's view of one stream: the committed events of a window of revisions, the
revision and the sequence that the view has reached, and events that are staged for the next commit.
Staged events are written as one commit that claims the next revision and sequence; the store
decides who gets them. After a conflict the handle has caught up, keeps what is staged and leaves
the decision to its caller.

`Handle.merge` is the only place where a view grows. It skips commits whose id it has seen, so that
merging a commit again changes nothing.
-/

namespace EventSourcing

/-- A writer's view of a stream. -/
structure Handle where
  stream : StreamId
  committed : List Event := []
  committedHeaders : Fields := []
  uncommitted : List Event := []
  uncommittedHeaders : Fields := []
  /-- The ids of the commits that were merged. -/
  seen : List CommitId := []
  /-- The revision of the last committed event of the view. -/
  revision : Nat := 0
  /-- The sequence of the last commit that was merged. -/
  sequence : Nat := 0
  deriving DecidableEq, Repr, Inhabited

namespace Handle

/-- A handle on a stream that is taken to be empty. -/
def create (stream : StreamId) : Handle := { stream := stream }

def hasChanges (h : Handle) : Bool := !h.uncommitted.isEmpty

/-- Stages an event. -/
def add (e : Event) (h : Handle) : Handle := { h with uncommitted := h.uncommitted ++ [e] }

/-- Sets a header of the next commit. -/
def setHeader (key : String) (value : Json) (h : Handle) : Handle :=
  { h with uncommittedHeaders := Fields.insert key value h.uncommittedHeaders }

/-- Drops what is staged. -/
def clearChanges (h : Handle) : Handle := { h with uncommitted := [], uncommittedHeaders := [] }

/-- Takes over the events of a commit that lie in the window from `first` to `last`; `current` is
the revision of the next event. -/
def takeEvents (first last : Nat) (h : Handle) (current : Nat) : List Event → Handle
  | [] => h
  | e :: es =>
    if last < current then h
    else if first ≤ current then
      takeEvents first last { h with committed := h.committed ++ [e], revision := current }
        (nextRevision current) es
    else takeEvents first last h (nextRevision current) es

/-- Takes over commits, as far as their events lie in the window from `first` to `last`. A commit
that starts after the window ends the merge, though its sequence counts. -/
def merge (first last : Nat) (h : Handle) : List Commit → Handle
  | [] => h
  | c :: cs =>
    if c.id ∈ h.seen then merge first last h cs
    else
      let h := { h with seen := c.id :: h.seen, sequence := c.sequence }
      if last < c.firstRevision then h
      else
        let h := { h with committedHeaders := Fields.merge h.committedHeaders c.headers }
        merge first last (h.takeEvents first last c.firstRevision c.events) cs

/-- The view of the events of a stream from revision `first` to `last`. A first revision above zero
asks for at least one event. -/
def openWindow (stream : StreamId) (first last : Nat) : Program (Except Fault Handle) := do
  match ← Program.collect (.revisions stream first last) with
  | .error e => return .error e
  | .ok commits =>
    let h := (create stream).merge first last commits
    if 0 < first ∧ h.committed.isEmpty then return .error (.streamNotFound stream)
    else return .ok h

/-- The view of the events after a snapshot, up to revision `last`. The commit that holds the
snapshot's revision is read as well, for its sequence. -/
def openFromSnapshot (s : Snapshot) (last : Nat) : Program (Except Fault Handle) := do
  match ← Program.collect (.revisions s.stream s.revision last) with
  | .error e => return .error e
  | .ok commits =>
    let h := (create s.stream).merge (nextRevision s.revision) last commits
    return .ok { h with revision := s.revision + h.committed.length }

/-- The attempt to commit what is staged. -/
def attempt (id : CommitId) (stamp : Stamp) (h : Handle) : Attempt where
  stream := h.stream
  revision := h.revision + h.uncommitted.length
  id := id
  sequence := h.sequence + 1
  stamp := stamp
  headers := h.uncommittedHeaders
  events := h.uncommitted

/-- Catches up with the stream from the next revision on. -/
def refresh (h : Handle) : Program (Except Fault Handle) := do
  let first := nextRevision h.revision
  match ← Program.collect (.revisions h.stream first maxRevision) with
  | .error e => return .error e
  | .ok commits => return .ok (h.merge first maxRevision commits)

/-- Submits what is staged, and takes over the outcome. -/
def submit (id : CommitId) (stamp : Stamp) (h : Handle) :
    Program (Handle × Except Fault (Option Commit)) := do
  match ← Program.perform (.commit (h.attempt id stamp)) with
  | .ok (some c) =>
    return ((h.merge (nextRevision h.revision) c.revision [c]).clearChanges, .ok (some c))
  | .ok none => return (h, .ok none)
  | .error (.duplicate existing) =>
    match ← h.refresh with
    | .error e => return (h, .error e)
    | .ok h => return (h.clearChanges, .ok (some existing))
  | .error (.conflict stream revision sequence) =>
    match ← h.refresh with
    | .error e => return (h, .error e)
    | .ok h => return (h, .error (.conflict stream revision sequence))
  | .error e => return (h, .error e)

/-- Commits what is staged under an id. An id that was merged before is looked up first: if the
stream still has its commit, that one is the answer and nothing is written. -/
def commitChanges (id : CommitId) (stamp : Stamp) (h : Handle) :
    Program (Handle × Except Fault (Option Commit)) := do
  if h.uncommitted.isEmpty then return (h, .ok none)
  else if id ∈ h.seen then
    match ← Program.find (.revisions h.stream 0 maxRevision) id with
    | .error e => return (h, .error e)
    | .ok (some existing) => return (h.clearChanges, .ok (some existing))
    | .ok none => h.submit id stamp
  else h.submit id stamp

end Handle

end EventSourcing
