import EventSourcing.Wire.Protobuf

/-!
# Messages of the persistence service

The messages that clients and servers of a remote store exchange, and their bytes. Fields are
written in the order of their numbers and left out at their default. Reading takes a field of one
value again and again, the last one winning, merges a message that comes in parts, and skips what it
does not know.
-/

namespace EventSourcing
namespace Wire

open Protobuf

/-- How many messages and groups may stand around a field. -/
def maxDepth : Nat := 100

/-- A map from texts to texts, keys ascending. -/
abbrev TextMap := List (String × String)

/-- An event: the texts of its payload and of the values of its headers. -/
structure EventMessage where
  body : String := ""
  headers : TextMap := []
  deriving DecidableEq, Repr, Inhabited

/-- A commit, or an attempt, whose checkpoint is zero. -/
structure CommitMessage where
  tenant : String := ""
  stream : String := ""
  revision : Nat := 0
  id : String := ""
  sequence : Nat := 0
  /-- Whole seconds. -/
  stamp : Int := 0
  checkpoint : Int := 0
  headers : TextMap := []
  events : List EventMessage := []
  deriving DecidableEq, Repr, Inhabited

structure SnapshotMessage where
  tenant : String := ""
  stream : String := ""
  revision : Nat := 0
  payload : String := ""
  deriving DecidableEq, Repr, Inhabited

structure HeadMessage where
  tenant : String := ""
  stream : String := ""
  head : Nat := 0
  snapshot : Nat := 0
  deriving DecidableEq, Repr, Inhabited

/-- What became of an attempt. -/
inductive CommitOutcome where
  /-- It had no events, and nothing was written. -/
  | empty
  | committed
  /-- Its id was taken. -/
  | duplicate
  deriving DecidableEq, Repr

/-- The answer to an attempt. -/
structure CommitReply where
  /-- The number of the outcome. -/
  outcome : Int := 0
  commit : Option CommitMessage := none
  deriving DecidableEq, Repr, Inhabited

structure SnapshotReply where
  snapshot : Option SnapshotMessage := none
  deriving DecidableEq, Repr, Inhabited

structure AddedReply where
  added : Bool := false
  deriving DecidableEq, Repr, Inhabited

namespace EventMessage

/-- The fields that are maps. -/
def maps : List Nat := [2]

def encode (m : EventMessage) : Bytes := text 1 m.body ++ entries 2 m.headers

def take (depth : Nat) (m : EventMessage) (f : Field) : Option EventMessage :=
  match f.number with
  | 1 => f.value.text?.map ({ m with body := · })
  | 2 => (takeEntry depth m.headers f.value).map ({ m with headers := · })
  | _ => some m

end EventMessage

namespace CommitMessage

/-- The fields that are maps. -/
def maps : List Nat := [8]

def encode (m : CommitMessage) : Bytes :=
  text 1 m.tenant ++ text 2 m.stream ++ word 3 m.revision ++ text 4 m.id ++ word 5 m.sequence
    ++ integer 6 m.stamp ++ integer 7 m.checkpoint ++ entries 8 m.headers
    ++ m.events.flatMap fun e => message 9 e.encode

def take (depth : Nat) (m : CommitMessage) (f : Field) : Option CommitMessage :=
  match f.number with
  | 1 => f.value.text?.map ({ m with tenant := · })
  | 2 => f.value.text?.map ({ m with stream := · })
  | 3 => f.value.word?.map ({ m with revision := · })
  | 4 => f.value.text?.map ({ m with id := · })
  | 5 => f.value.word?.map ({ m with sequence := · })
  | 6 => f.value.integer?.map ({ m with stamp := · })
  | 7 => f.value.integer?.map ({ m with checkpoint := · })
  | 8 => (takeEntry depth m.headers f.value).map ({ m with headers := · })
  | 9 =>
    f.value.bytes?.bind fun bs =>
      (merge (depth - 1) EventMessage.maps (EventMessage.take (depth - 1)) {} bs).map fun e =>
        { m with events := m.events ++ [e] }
  | _ => some m

def decode? (bs : Bytes) : Option CommitMessage := merge maxDepth maps (take maxDepth) {} bs

/-- Whether the order of map entries leaves the bytes no choice. -/
def hasOneEncoding (m : CommitMessage) : Bool :=
  m.headers.length ≤ 1 && m.events.all (·.headers.length ≤ 1)

end CommitMessage

namespace SnapshotMessage

def encode (m : SnapshotMessage) : Bytes :=
  text 1 m.tenant ++ text 2 m.stream ++ word 3 m.revision ++ text 4 m.payload

def take (m : SnapshotMessage) (f : Field) : Option SnapshotMessage :=
  match f.number with
  | 1 => f.value.text?.map ({ m with tenant := · })
  | 2 => f.value.text?.map ({ m with stream := · })
  | 3 => f.value.word?.map ({ m with revision := · })
  | 4 => f.value.text?.map ({ m with payload := · })
  | _ => some m

def decode? (bs : Bytes) : Option SnapshotMessage := merge maxDepth [] take {} bs

end SnapshotMessage

namespace HeadMessage

def encode (m : HeadMessage) : Bytes :=
  text 1 m.tenant ++ text 2 m.stream ++ word 3 m.head ++ word 4 m.snapshot

def take (m : HeadMessage) (f : Field) : Option HeadMessage :=
  match f.number with
  | 1 => f.value.text?.map ({ m with tenant := · })
  | 2 => f.value.text?.map ({ m with stream := · })
  | 3 => f.value.word?.map ({ m with head := · })
  | 4 => f.value.word?.map ({ m with snapshot := · })
  | _ => some m

def decode? (bs : Bytes) : Option HeadMessage := merge maxDepth [] take {} bs

end HeadMessage

namespace CommitOutcome

/-- The number of an outcome. -/
def number : CommitOutcome → Int
  | .empty => 0
  | .committed => 1
  | .duplicate => 2

/-- The outcome of a number. -/
def ofNumber? : Int → Option CommitOutcome
  | 0 => some .empty
  | 1 => some .committed
  | 2 => some .duplicate
  | _ => none

theorem ofNumber?_number (o : CommitOutcome) : ofNumber? o.number = some o := by cases o <;> rfl

end CommitOutcome

namespace CommitReply

def encode (m : CommitReply) : Bytes :=
  integer 1 m.outcome ++
    match m.commit with
    | none => []
    | some c => message 2 c.encode

def take (m : CommitReply) (f : Field) : Option CommitReply :=
  match f.number with
  | 1 => f.value.integer32?.map ({ m with outcome := · })
  | 2 =>
    f.value.bytes?.bind fun bs =>
      let depth := maxDepth - 1
      (merge depth CommitMessage.maps (CommitMessage.take depth) (m.commit.getD {}) bs).map
        fun c => { m with commit := some c }
  | _ => some m

def decode? (bs : Bytes) : Option CommitReply := merge maxDepth [] take {} bs

end CommitReply

namespace SnapshotReply

def encode (m : SnapshotReply) : Bytes :=
  match m.snapshot with
  | none => []
  | some s => message 1 s.encode

def take (m : SnapshotReply) (f : Field) : Option SnapshotReply :=
  match f.number with
  | 1 =>
    f.value.bytes?.bind fun bs =>
      (merge (maxDepth - 1) [] SnapshotMessage.take (m.snapshot.getD {}) bs).map fun s =>
        { m with snapshot := some s }
  | _ => some m

def decode? (bs : Bytes) : Option SnapshotReply := merge maxDepth [] take {} bs

end SnapshotReply

namespace AddedReply

def encode (m : AddedReply) : Bytes := word 1 (if m.added then 1 else 0)

def take (m : AddedReply) (f : Field) : Option AddedReply :=
  match f.number with
  | 1 => f.value.bool?.map ({ m with added := · })
  | _ => some m

def decode? (bs : Bytes) : Option AddedReply := merge maxDepth [] take {} bs

end AddedReply

end Wire
end EventSourcing
