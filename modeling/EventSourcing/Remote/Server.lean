import EventSourcing.Fault
import EventSourcing.Text.Percent
import EventSourcing.Wire.Request

/-!
# Servers as clients see them

A server takes the bytes of a request for a method and answers with messages, each a sequence of
bytes, and a status after them. It may also stay silent, until the client gives up. The client of a
method with one answer takes the first message, if the status is good; the client of a method with a
stream of answers takes them all and the bad status as a last item. No client takes a message of
more than `maxMessage` bytes; it does not look into it and ends the call with a status of its own.

The message of a status travels with percent escapes, and servers leave percent signs as they are,
so what looks like an escape arrives as the byte it stands for.
-/

namespace EventSourcing
namespace Remote

open Wire

/-- A status that is not good. -/
structure Status where
  code : StatusCode
  message : String
  deriving DecidableEq, Repr

def Status.fault (s : Status) : Fault := .transport s.code s.message

/-- The status of a client that gives up. -/
def Status.timeout : Status := ⟨.cancelled, "Timeout expired"⟩

/-- The status of a call that ended well without its message. -/
def Status.missingMessage : Status := ⟨.internal, "Missing response message."⟩

/-- The status of a message that cannot be read. -/
def Status.unreadable : Status := ⟨.internal, "failed to decode Protobuf message"⟩

/-- The number of bytes that a message can have for a client. -/
def maxMessage : Nat := 4194304

/-- The status of a message with more bytes. -/
def Status.tooLarge (length : Nat) : Status where
  code := .outOfRange
  message := "Error, decoded message length too large: found " ++ toString length
    ++ " bytes, the limit is: " ++ toString maxMessage ++ " bytes"

/-- A status as it arrives. -/
def Status.arrive (s : Status) : Status :=
  match Utf8.decode (Percent.decode (Utf8.ofString s.message)) with
  | .ok cs => { s with message := String.ofList cs }
  | .error e => ⟨.unknown, "Error deserializing status message header: " ++ e.message⟩

/-- What comes back from a call. -/
inductive Delivery where
  /-- Messages, and a status if it is not good. -/
  | answered (messages : List Bytes) (status : Option Status)
  | silent
  deriving DecidableEq, Repr

/-- A server with a state. -/
def Server (σ : Type) : Type := Method → Bytes → σ → Delivery × σ

/-- A message as a client takes it. -/
def receive {β : Type} (decode? : Bytes → Option β) (m : Bytes) : Except Status β :=
  if maxMessage < m.length then .error (.tooLarge m.length)
  else
    match decode? m with
    | none => .error .unreadable
    | some x => .ok x

/-- The answer of a method that has one. -/
def Delivery.single {β : Type} (decode? : Bytes → Option β) : Delivery → Except Status β
  | .silent => .error .timeout
  | .answered messages status =>
    match messages with
    | [] => .error ((status.map Status.arrive).getD .missingMessage)
    | m :: _ =>
      match receive decode? m with
      | .error s => .error s
      | .ok x =>
        match status with
        | none => .ok x
        | some s => .error s.arrive

/-- The items of a stream of messages; one that is not taken ends it. -/
def decodeAll {β : Type} (decode? : Bytes → Option β) (status : Option Status) :
    List Bytes → List (Except Status β)
  | [] => (status.map fun s => Except.error s.arrive).toList
  | m :: ms =>
    match receive decode? m with
    | .error s => [.error s]
    | .ok x => .ok x :: decodeAll decode? status ms

/-- The answers of a method that has a stream of them. -/
def Delivery.stream {β : Type} (decode? : Bytes → Option β) : Delivery → List (Except Status β)
  | .silent => [.error .timeout]
  | .answered messages status => decodeAll decode? status messages

/-- A server that gives the same answer to each request and keeps the requests. -/
def Server.constant (d : Delivery) : Server (List (Method × Bytes)) :=
  fun m bs log => (d, log ++ [(m, bs)])

end Remote
end EventSourcing
