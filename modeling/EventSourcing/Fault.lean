import EventSourcing.Commit
import EventSourcing.Serializer

/-!
# Faults

Every way in which a store operation can fail, as a cause with its data. `Fault.message` is the
wording, where the wording is this library's own; `Fault.transient` tells whether trying again later
can help.
-/

namespace EventSourcing

/-- How a remote call ended. -/
inductive StatusCode where
  | ok | cancelled | unknown | invalidArgument | deadlineExceeded | notFound | alreadyExists
  | permissionDenied | resourceExhausted | failedPrecondition | aborted | outOfRange | unimplemented
  | internal | unavailable | dataLoss | unauthenticated
  deriving DecidableEq, Repr

namespace StatusCode

/-- The codes in the order of their numbers. -/
def all : List StatusCode :=
  [.ok, .cancelled, .unknown, .invalidArgument, .deadlineExceeded, .notFound, .alreadyExists,
    .permissionDenied, .resourceExhausted, .failedPrecondition, .aborted, .outOfRange,
    .unimplemented, .internal, .unavailable, .dataLoss, .unauthenticated]

/-- The code of a number; other numbers are unknown. -/
def ofInt (n : Int) : StatusCode := if n < 0 then .unknown else (all[n.toNat]?).getD .unknown

/-- Whether the failure is one of the connection, which may pass. -/
def transient : StatusCode → Bool
  | .unavailable | .deadlineExceeded | .resourceExhausted => true
  | _ => false

def name : StatusCode → String
  | .ok => "Ok"
  | .cancelled => "Cancelled"
  | .unknown => "Unknown"
  | .invalidArgument => "InvalidArgument"
  | .deadlineExceeded => "DeadlineExceeded"
  | .notFound => "NotFound"
  | .alreadyExists => "AlreadyExists"
  | .permissionDenied => "PermissionDenied"
  | .resourceExhausted => "ResourceExhausted"
  | .failedPrecondition => "FailedPrecondition"
  | .aborted => "Aborted"
  | .outOfRange => "OutOfRange"
  | .unimplemented => "Unimplemented"
  | .internal => "Internal"
  | .unavailable => "Unavailable"
  | .dataLoss => "DataLoss"
  | .unauthenticated => "Unauthenticated"

end StatusCode

/-- Why converters cannot be used, or why one of them refused. -/
inductive ConversionFault where
  /-- A second converter for a kind. -/
  | multipleConverters (kind : String)
  /-- The kinds of a cycle, in the order of conversion. -/
  | cycle (kinds : List String)
  /-- The converter of a kind refused its data. -/
  | failed (kind reason : String)
  deriving DecidableEq, Repr

def ConversionFault.message : ConversionFault → String
  | .multipleConverters kind => "Multiple converters registered for payload kind " ++ kind
  | .cycle kinds => "Converter cycle: " ++ String.intercalate " -> " kinds
  | .failed kind reason => "Conversion of " ++ kind ++ " failed: " ++ reason

/-- Why a store operation failed. -/
inductive Fault where
  /-- The attempt claims a revision or a sequence that the stream already has. -/
  | conflict (stream : StreamId) (revision sequence : Nat)
  /-- The stream already has a commit of that id. -/
  | duplicate (existing : Commit)
  | streamNotFound (stream : StreamId)
  | invalidAttempt (text : String)
  | serialization (cause : SerializationFault)
  | conversion (cause : ConversionFault)
  /-- A commit id that does not have sixteen bytes. -/
  | invalidId
  /-- The database refused a statement. -/
  | database
  /-- The remote store answered with a status. -/
  | transport (code : StatusCode) (message : String)
  /-- The remote store cannot be reached. -/
  | connect
  /-- A message of the remote store cannot be read. -/
  | wire (text : String)
  /-- A stored record cannot be read. -/
  | corrupt (text : String)
  | unavailable (text : String)
  | configuration (text : String)
  deriving DecidableEq, Repr

namespace Fault

def message : Fault → Option String
  | .conflict s revision sequence => some <|
    "Concurrency conflict: " ++ s.tenant ++ "/" ++ s.stream ++ " already has a commit at revision "
      ++ toString revision ++ " (commit sequence " ++ toString sequence ++ ")"
  | .duplicate c => some <|
    "Duplicate commit " ++ c.id.text ++ " on " ++ c.stream.tenant ++ "/" ++ c.stream.stream
  | .streamNotFound s => some <| "Stream not found: " ++ s.tenant ++ "/" ++ s.stream
  | .invalidAttempt text => some <| "Invalid commit attempt: " ++ text
  | .conversion cause => some <| "Upconversion error: " ++ cause.message
  | .transport _ text => some text
  | .wire text => some <| "Malformed wire message: " ++ text
  | .corrupt text => some <| "Corrupt stored record: " ++ text
  | .unavailable text => some <| "Storage unavailable: " ++ text
  | .configuration text => some <| "Configuration error: " ++ text
  | .serialization _ | .invalidId | .database | .connect => none

/-- Whether trying again later can help. -/
def transient : Fault → Bool
  | .unavailable _ | .connect => true
  | .transport code _ => code.transient
  | _ => false

/-- Whether another writer was faster. -/
def isConflict : Fault → Bool
  | .conflict .. => true
  | _ => false

end Fault

end EventSourcing
