import EventSourcing.Operation
import EventSourcing.Verdict

/-!
# The store in memory

A ledger is the log of all commits in the order of their checkpoints, and three things derived from
it or kept beside it: for each stream the positions of its commits in the log, its head, and its
snapshots. Checkpoints count from 1; a commit that is not accepted uses none, and deleting commits
makes none available again.

The store can be told to refuse reads or commits. Dropping the store empties the ledger, and the
count of checkpoints starts again.
-/

namespace EventSourcing

/-- A value for each of some streams. -/
abbrev StreamMap (β : Type) := List (StreamId × β)

namespace StreamMap

variable {β : Type}

/-- The value of a stream. -/
def find? (key : StreamId) (m : StreamMap β) : Option β := m.lookup key

/-- Sets the value of a stream. -/
def insert (key : StreamId) (value : β) : StreamMap β → StreamMap β
  | [] => [(key, value)]
  | (k, v) :: r => if k = key then (key, value) :: r else (k, v) :: insert key value r

/-- The values of the streams that are to stay. -/
def keep (p : StreamId → Bool) (m : StreamMap β) : StreamMap β := m.filter fun e => p e.1

end StreamMap

/-- The commits of a store in memory, and what is derived from them. -/
structure Ledger where
  /-- All commits, checkpoints ascending. -/
  log : List Commit := []
  /-- The positions in the log of the commits of each stream. -/
  positions : StreamMap (List Nat) := []
  snapshots : StreamMap (List Snapshot) := []
  heads : StreamMap StreamHead := []
  lastCheckpoint : Int := 0
  deriving Inhabited

/-- A store in memory. -/
structure Memory where
  ledger : Ledger := {}
  readsDisabled : Bool := false
  commitsDisabled : Bool := false
  deriving Inhabited

namespace Ledger

/-- The commits of a stream, found through its positions. -/
def streamCommits (l : Ledger) (stream : StreamId) : List Commit :=
  ((l.positions.find? stream).getD []).filterMap (l.log[·]?)

/-- The sequence and the revision of a stream's last commit, zero without one. -/
def headOf (l : Ledger) (stream : StreamId) : Nat × Nat :=
  match (l.streamCommits stream).getLast? with
  | some c => (c.sequence, c.revision)
  | none => (0, 0)

/-- The positions of each stream in a log whose first commit has position `start`. -/
def positionsFrom (start : Nat) (acc : StreamMap (List Nat)) : List Commit → StreamMap (List Nat)
  | [] => acc
  | c :: cs =>
    positionsFrom (start + 1) (acc.insert c.stream (((acc.find? c.stream).getD []) ++ [start])) cs

/-- Adds a commit at the end. -/
def append (l : Ledger) (c : Commit) : Ledger :=
  let head := (l.heads.find? c.stream).getD ⟨c.stream, 0, 0⟩
  { l with
    log := l.log ++ [c]
    positions := l.positions.insert c.stream
      (((l.positions.find? c.stream).getD []) ++ [l.log.length])
    heads := l.heads.insert c.stream { head with head := c.revision }
    lastCheckpoint := c.checkpoint }

/-- Accepts an attempt that fits. -/
def commit (l : Ledger) (a : Attempt) : Except Fault (Option Commit) × Ledger :=
  match (l.streamCommits a.stream).find? (·.id = a.id) with
  | some existing => (.error (.duplicate existing), l)
  | none =>
    let (sequence, revision) := l.headOf a.stream
    match a.validate sequence revision with
    | .error e => (.error e, l)
    | .ok () =>
      let c := a.confirm (l.lastCheckpoint + 1)
      (.ok (some c), l.append c)

/-- Whether a commit answers a query. -/
def answers (q : Query) (c : Commit) : Bool :=
  match q with
  | .revisions stream first last =>
    c.stream = stream && first ≤ c.revision && c.firstRevision ≤ last
  | .after tenant checkpoint => c.stream.tenant = tenant && checkpoint < c.checkpoint
  | .during tenant start stop =>
    c.stream.tenant = tenant && start.nanos ≤ c.stamp.nanos
      && (match stop with | some t => c.stamp.nanos < t.nanos | none => true)

/-- The commits that answer a query: in the order of checkpoints, or for a span of time in the order
of stamps, where equal stamps keep the order of checkpoints. -/
def read (l : Ledger) (q : Query) : List Commit :=
  let found := l.log.filter (answers q)
  match q with
  | .during .. => found.mergeSort fun a b => a.stamp.nanos ≤ b.stamp.nanos
  | _ => found

/-- The snapshot of the greatest revision, the last of several. -/
def latest : List Snapshot → Option Snapshot
  | [] => none
  | s :: rest =>
    match latest rest with
    | some t => some (if t.revision < s.revision then s else t)
    | none => some s

/-- The latest snapshot of a stream up to a revision. -/
def snapshot (l : Ledger) (stream : StreamId) (last : Nat) : Option Snapshot :=
  latest (((l.snapshots.find? stream).getD []).filter (·.revision ≤ last))

/-- Records a snapshot at a revision that the stream has and that has none yet. -/
def addSnapshot (l : Ledger) (s : Snapshot) : Bool × Ledger :=
  match l.heads.find? s.stream with
  | none => (false, l)
  | some head =>
    let present := (l.snapshots.find? s.stream).getD []
    if s.revision = 0 ∨ head.head < s.revision then (false, l)
    else if present.any (·.revision = s.revision) then (false, l)
    else
      (true, { l with
        snapshots := l.snapshots.insert s.stream (present ++ [s])
        heads := l.heads.insert s.stream { head with snapshot := max head.snapshot s.revision } })

/-- The streams of a tenant with more than so many revisions since their snapshot, by name. -/
def streamsToSnapshot (l : Ledger) (tenant : String) (threshold : Nat) : List StreamHead :=
  let wanted (h : StreamHead) : Bool := h.stream.tenant = tenant && threshold < h.unsnapshotted
  ((l.heads.map (·.2)).filter wanted).mergeSort fun a b => a.stream.stream ≤ b.stream.stream

/-- Drops all that belongs to streams that are not to stay. -/
def retain (l : Ledger) (keep : StreamId → Bool) : Ledger :=
  let log := l.log.filter fun c => keep c.stream
  { l with
    log := log
    positions := positionsFrom 0 [] log
    snapshots := l.snapshots.keep keep
    heads := l.heads.keep keep }

/-- Drops everything but the count of checkpoints. -/
def clear (l : Ledger) : Ledger := { lastCheckpoint := l.lastCheckpoint }

end Ledger

namespace Memory

def empty : Memory := {}

/-- The items of a read that finds reads disabled. -/
def refusedRead : List Item := [.error (.unavailable "in-memory reads disabled")]

def commit (a : Attempt) (m : Memory) : Except Fault (Option Commit) × Memory :=
  if a.events.isEmpty then (.ok none, m)
  else if m.commitsDisabled then (.error (.unavailable "in-memory commits disabled"), m)
  else
    let (answer, ledger) := m.ledger.commit a
    (answer, { m with ledger := ledger })

def read (q : Query) (m : Memory) : List Item :=
  if m.readsDisabled then refusedRead else (m.ledger.read q).map .ok

/-- Lets a change of the ledger happen. -/
def update (m : Memory) (f : Ledger → Ledger) : Memory := { m with ledger := f m.ledger }

/-- The store in memory as an engine. -/
def engine : Engine Memory
  | .commit a, m => let (r, m) := m.commit a; (⟨r, []⟩, m)
  | .read q, m => (⟨Feed.ofItems (m.read q), []⟩, m)
  | .snapshot stream last, m => (⟨.ok (m.ledger.snapshot stream last), []⟩, m)
  | .addSnapshot s, m =>
    let (added, ledger) := m.ledger.addSnapshot s
    (⟨.ok added, []⟩, { m with ledger := ledger })
  | .streamsToSnapshot tenant threshold, m =>
    (⟨(m.ledger.streamsToSnapshot tenant threshold).map .ok, []⟩, m)
  | .setUp, m => (⟨.ok (), []⟩, m)
  | .dropStore, m => (⟨.ok (), []⟩, m.update fun _ => {})
  | .purge tenant, m => (⟨.ok (), []⟩, m.update (·.retain (·.tenant ≠ tenant)))
  | .purgeAll, m => (⟨.ok (), []⟩, m.update (·.clear))
  | .deleteStream stream, m => (⟨.ok (), []⟩, m.update (·.retain (· ≠ stream)))

/-- The number of commits of all tenants. -/
def commitCount (m : Memory) : Nat := m.ledger.log.length

end Memory

end EventSourcing
