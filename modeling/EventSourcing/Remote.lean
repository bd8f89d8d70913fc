import EventSourcing.Operation
import EventSourcing.Remote.Server
import EventSourcing.Verdict
import EventSourcing.Wire.Record

/-!
# The remote store

The same contract as the local stores, kept by a server: each operation is one request, and an
attempt without events none at all. A status says what kind of failure it stands for: a commit that
was aborted lost against another writer, one with an invalid argument did not fit, and a stream that
is not found has no commits to read. Any other status is passed on.
-/

namespace EventSourcing
namespace Remote

open Wire

variable {σ : Type}

/-- Sends a request. -/
def send (server : Server σ) (r : Request) (s : σ) : Delivery × σ := server r.method r.encode s

/-- What the reply to an attempt says. The outcome is looked at before the commit. -/
def commitAnswer (r : CommitReply) : Except Fault (Option Commit) :=
  match CommitOutcome.ofNumber? r.outcome with
  | none => .error (.wire ("unknown commit outcome " ++ toString r.outcome))
  | some outcome =>
    match r.commit, outcome with
    | none, .empty => .ok none
    | none, .committed => .error (.wire "Committed response without a commit")
    | none, .duplicate => .error (.wire "Duplicate response without a commit")
    | some m, outcome =>
      match m.toCommit, outcome with
      | .error e, _ => .error e
      | .ok _, .empty => .ok none
      | .ok c, .committed => .ok (some c)
      | .ok c, .duplicate => .error (.duplicate c)

/-- What a bad status of an attempt means. -/
def commitFault (a : Attempt) (s : Status) : Fault :=
  match s.code with
  | .aborted => a.conflict
  | .invalidArgument => .invalidAttempt s.message
  | _ => s.fault

/-- What a bad status of a read means. -/
def readFault (q : Query) (s : Status) : Fault :=
  match q, s.code with
  | .revisions stream _ _, .notFound => .streamNotFound stream
  | _, _ => s.fault

/-- The request of a read. -/
def readRequest : Query → Request
  | .revisions stream first last => .revisions stream.tenant stream.stream first last
  | .after tenant checkpoint => .after tenant checkpoint
  | .during tenant start stop => .during tenant start.seconds (stop.map Stamp.seconds)

/-- An item of a read. -/
def readItem (q : Query) : Except Status CommitMessage → Item
  | .error s => .error (readFault q s)
  | .ok m => m.toCommit

/-- The answer of an operation that has none but success. -/
def unitAnswer (d : Delivery) : Except Fault Unit :=
  let read (bs : Bytes) : Option Unit :=
    Protobuf.merge maxDepth [] (fun (_ : Unit) _ => some ()) () bs
  (d.single read).mapError Status.fault

/-- The store that a server keeps, as an engine. -/
def engine (layout : Layout) (server : Server σ) : Engine σ
  | .commit a, s =>
    if a.events.isEmpty then (⟨.ok none, []⟩, s)
    else
      let (d, s) := send server (.commit (.ofAttempt layout a)) s
      match d.single CommitReply.decode? with
      | .error status => (⟨.error (commitFault a status), []⟩, s)
      | .ok r => (⟨commitAnswer r, []⟩, s)
  | .read q, s =>
    let (d, s) := send server (readRequest q) s
    (⟨Feed.ofItems ((d.stream CommitMessage.decode?).map (readItem q)), []⟩, s)
  | .snapshot stream last, s =>
    let (d, s) := send server (.snapshot stream.tenant stream.stream last) s
    match d.single SnapshotReply.decode? with
    | .error status => (⟨.error status.fault, []⟩, s)
    | .ok ⟨none⟩ => (⟨.ok none, []⟩, s)
    | .ok ⟨some m⟩ => (⟨m.toSnapshot.map some, []⟩, s)
  | .addSnapshot snapshot, s =>
    let (d, s) := send server (.addSnapshot (.ofSnapshot layout snapshot)) s
    (⟨((d.single AddedReply.decode?).map (·.added)).mapError Status.fault, []⟩, s)
  | .streamsToSnapshot tenant threshold, s =>
    let (d, s) := send server (.streamsToSnapshot tenant threshold) s
    let heads := d.stream HeadMessage.decode?
    (⟨heads.map fun r => (r.map HeadMessage.toHead).mapError Status.fault, []⟩, s)
  | .setUp, s => let (d, s) := send server .setUp s; (⟨unitAnswer d, []⟩, s)
  | .dropStore, s => let (d, s) := send server .drop s; (⟨unitAnswer d, []⟩, s)
  | .purge tenant, s => let (d, s) := send server (.purge (some tenant)) s; (⟨unitAnswer d, []⟩, s)
  | .purgeAll, s => let (d, s) := send server (.purge none) s; (⟨unitAnswer d, []⟩, s)
  | .deleteStream stream, s =>
    let (d, s) := send server (.deleteStream stream.tenant stream.stream) s
    (⟨unitAnswer d, []⟩, s)

end Remote
end EventSourcing
