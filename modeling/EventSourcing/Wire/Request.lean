import EventSourcing.Wire.Message

/-!
# Requests of the persistence service

Each method of the service takes one kind of request. `Request.encode` gives its bytes and
`Request.decode?` reads the bytes that a method was called with.
-/

namespace EventSourcing
namespace Wire

open Protobuf

/-- The methods of the service. -/
inductive Method where
  | commit
  | getFromMinMax
  | getFromCheckpoint
  | getFromTime
  | getSnapshot
  | addSnapshot
  | getStreamsToSnapshot
  | setUp
  | drop
  | purge
  | deleteStream
  deriving DecidableEq, Repr

namespace Method

def name : Method → String
  | .commit => "Commit"
  | .getFromMinMax => "GetFromMinMax"
  | .getFromCheckpoint => "GetFromCheckpoint"
  | .getFromTime => "GetFromTime"
  | .getSnapshot => "GetSnapshot"
  | .addSnapshot => "AddSnapshot"
  | .getStreamsToSnapshot => "GetStreamsToSnapshot"
  | .setUp => "Initialize"
  | .drop => "Drop"
  | .purge => "Purge"
  | .deleteStream => "DeleteStream"

/-- The path that a call of the method goes to. -/
def path (m : Method) : String := "/commitstore.v1.Persistence/" ++ m.name

end Method

/-- A request. -/
inductive Request where
  | commit (m : CommitMessage)
  /-- The commits of a stream that have events from the first to the second revision. -/
  | revisions (tenant stream : String) (first last : Nat)
  | after (tenant : String) (checkpoint : Int)
  /-- The commits from one second on, up to another one not included. -/
  | during (tenant : String) (start : Int) (stop : Option Int)
  | snapshot (tenant stream : String) (last : Nat)
  | addSnapshot (m : SnapshotMessage)
  | streamsToSnapshot (tenant : String) (threshold : Nat)
  | setUp
  | drop
  /-- Without a tenant every tenant is meant. -/
  | purge (tenant : Option String)
  | deleteStream (tenant stream : String)
  deriving DecidableEq, Repr

namespace Request

/-- The method that a request is for. -/
def method : Request → Method
  | .commit _ => .commit
  | .revisions .. => .getFromMinMax
  | .after .. => .getFromCheckpoint
  | .during .. => .getFromTime
  | .snapshot .. => .getSnapshot
  | .addSnapshot _ => .addSnapshot
  | .streamsToSnapshot .. => .getStreamsToSnapshot
  | .setUp => .setUp
  | .drop => .drop
  | .purge _ => .purge
  | .deleteStream .. => .deleteStream

def encode : Request → Bytes
  | .commit m => m.encode
  | .revisions tenant stream first last =>
    text 1 tenant ++ text 2 stream ++ word 3 first ++ word 4 last
  | .after tenant checkpoint => text 1 tenant ++ integer 2 checkpoint
  | .during tenant start stop =>
    text 1 tenant ++ integer 2 start ++
      match stop with
      | none => []
      | some n => someInteger 3 n
  | .snapshot tenant stream last => text 1 tenant ++ text 2 stream ++ word 3 last
  | .addSnapshot m => m.encode
  | .streamsToSnapshot tenant threshold => text 1 tenant ++ word 2 threshold
  | .setUp | .drop => []
  | .purge tenant =>
    match tenant with
    | none => []
    | some tenant => someText 1 tenant
  | .deleteStream tenant stream => text 1 tenant ++ text 2 stream

/-- Takes a field into a request. -/
def take (r : Request) (f : Field) : Option Request :=
  match r, f.number with
  | .commit m, _ => (m.take maxDepth f).map .commit
  | .addSnapshot m, _ => (m.take f).map .addSnapshot
  | .revisions _ stream first last, 1 => f.value.text?.map (.revisions · stream first last)
  | .revisions tenant _ first last, 2 => f.value.text?.map (.revisions tenant · first last)
  | .revisions tenant stream _ last, 3 => f.value.word?.map (.revisions tenant stream · last)
  | .revisions tenant stream first _, 4 => f.value.word?.map (.revisions tenant stream first ·)
  | .after _ checkpoint, 1 => f.value.text?.map (.after · checkpoint)
  | .after tenant _, 2 => f.value.integer?.map (.after tenant ·)
  | .during _ start stop, 1 => f.value.text?.map (.during · start stop)
  | .during tenant _ stop, 2 => f.value.integer?.map (.during tenant · stop)
  | .during tenant start _, 3 => f.value.integer?.map fun n => .during tenant start (some n)
  | .snapshot _ stream last, 1 => f.value.text?.map (.snapshot · stream last)
  | .snapshot tenant _ last, 2 => f.value.text?.map (.snapshot tenant · last)
  | .snapshot tenant stream _, 3 => f.value.word?.map (.snapshot tenant stream ·)
  | .streamsToSnapshot _ threshold, 1 => f.value.text?.map (.streamsToSnapshot · threshold)
  | .streamsToSnapshot tenant _, 2 => f.value.word?.map (.streamsToSnapshot tenant ·)
  | .purge _, 1 => f.value.text?.map fun tenant => .purge (some tenant)
  | .deleteStream _ stream, 1 => f.value.text?.map (.deleteStream · stream)
  | .deleteStream tenant _, 2 => f.value.text?.map (.deleteStream tenant ·)
  | r, _ => some r

end Request

/-- The request with every field at its default. -/
def Method.blank : Method → Request
  | .commit => .commit {}
  | .getFromMinMax => .revisions "" "" 0 0
  | .getFromCheckpoint => .after "" 0
  | .getFromTime => .during "" 0 none
  | .getSnapshot => .snapshot "" "" 0
  | .addSnapshot => .addSnapshot {}
  | .getStreamsToSnapshot => .streamsToSnapshot "" 0
  | .setUp => .setUp
  | .drop => .drop
  | .purge => .purge none
  | .deleteStream => .deleteStream "" ""

/-- The fields of a request that are maps. -/
def Method.maps : Method → List Nat
  | .commit => CommitMessage.maps
  | _ => []

/-- The request that the bytes hold which a method was called with. -/
def Request.decode? (m : Method) (bs : Bytes) : Option Request :=
  merge maxDepth m.maps Request.take m.blank bs

end Wire
end EventSourcing
