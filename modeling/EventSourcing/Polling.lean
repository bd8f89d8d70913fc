import EventSourcing.Operation

/-!
# Polling clients

A polling client follows one tenant. Each poll reads the commits after the client's checkpoint and
hands them to a handler one by one. The handler's verdict on a commit moves the checkpoint past it,
ends the poll so that the commit comes again, or stops the client for good. A read that fails ends
the poll; the next one starts at the checkpoint again.

A running client polls again and again, and a second poll is never begun while one is under way
(`parked`): asking for one does nothing.
-/

namespace EventSourcing

/-- What a handler wants after a commit. -/
inductive PollVerdict where
  | proceed
  | retry
  | stop
  deriving DecidableEq, Repr

inductive PollState where
  | idle
  | running
  | stopped
  deriving DecidableEq, Repr

/-- A step that a client cannot take in its state. -/
inductive PollFault where
  | alreadyStarted
  | notConfigured
  deriving DecidableEq, Repr

def PollFault.message : PollFault → String
  | .alreadyStarted => "Polling client already started"
  | .notConfigured => "Polling client has no tenant configured"

/-- A follower of one tenant. -/
structure PollClient where
  tenant : Option String := none
  /-- The commits up to here were handled. -/
  checkpoint : Int := 0
  state : PollState := .idle
  /-- Whether a poll has been begun, ever. -/
  active : Bool := false
  /-- Whether a poll is under way, waiting for its read. -/
  parked : Bool := false
  deriving DecidableEq, Repr, Inhabited

/-- A handler of polled commits with a state of its own. -/
abbrev Handler (η : Type) := η → Commit → PollVerdict × η

namespace PollClient

/-- Chooses the tenant, before polling starts. -/
def configure (tenant : String) (c : PollClient) : Except PollFault PollClient :=
  if c.state = .idle then .ok { c with tenant := some tenant } else .error .alreadyStarted

/-- Starts polling after a checkpoint. -/
def startFrom (checkpoint : Int) (c : PollClient) : Except PollFault PollClient :=
  if c.tenant.isNone then .error .notConfigured
  else if c.state = .idle then
    .ok { c with checkpoint := checkpoint, state := .running, active := true, parked := true }
  else .error .alreadyStarted

/-- Stops polling. -/
def stop (c : PollClient) : PollClient := { c with state := .stopped, parked := false }

variable {η : Type}

/-- What a poll has come to: the client, the handler, and the commits that were handed over. -/
structure Polled (η : Type) where
  client : PollClient
  handler : η
  delivered : List Commit

/-- Hands the items of a read to a handler. -/
def deliver (handle : Handler η) (h : η) (c : PollClient) : List Item → Polled η
  | [] => ⟨c, h, []⟩
  | .error _ :: _ => ⟨c, h, []⟩
  | .ok commit :: rest =>
    match handle h commit with
    | (.proceed, h) =>
      let r := deliver handle h { c with checkpoint := commit.checkpoint } rest
      { r with delivered := commit :: r.delivered }
    | (.retry, h) => ⟨c, h, [commit]⟩
    | (.stop, h) => ⟨c.stop, h, [commit]⟩

/-- The calls that hooks receive while items are handed over: none after the last one fetched. -/
def deliveryNotices (handle : Handler η) (h : η) (closing : List Notice) :
    List Pull → List Notice
  | [] => closing
  | p :: ps =>
    p.notices ++
      match p.item with
      | .error _ => []
      | .ok commit =>
        match handle h commit with
        | (.proceed, h) => deliveryNotices handle h closing ps
        | _ => []

/-- One poll: reads on from the checkpoint and hands over what comes. Without a tenant, or after the
client was stopped, nothing happens. -/
def poll (handle : Handler η) (h : η) (c : PollClient) : Program (Polled η) :=
  match c.tenant with
  | none => .done ⟨c, h, []⟩
  | some tenant =>
    if c.state = .stopped then .done ⟨c, h, []⟩
    else
      let c := { c with active := true }
      .call (.read (.after tenant c.checkpoint)) fun feed =>
        .note (deliveryNotices handle h feed.closing feed.pulls)
          (.done (deliver handle h c feed.items))

/-- A poll on request; nothing happens while one is under way. -/
def pollNow (handle : Handler η) (h : η) (c : PollClient) : Program (Polled η) :=
  if c.parked then .done ⟨c, h, []⟩ else c.poll handle h

/-- Lets the poll under way finish and the next one begin, unless the client is stopped. -/
def tick (handle : Handler η) (h : η) (c : PollClient) : Program (Polled η) :=
  if c.state = .running then c.poll handle h else .done ⟨c, h, []⟩

end PollClient

/-- A handler that answers by rote: for some streams always the same, else the next entry of a
script, and a last answer once the script is used up. -/
structure ScriptedHandler where
  script : List PollVerdict
  byStream : List (String × PollVerdict)
  last : PollVerdict
  deriving Repr

/-- The answer to a commit. -/
def ScriptedHandler.handle : Handler ScriptedHandler := fun h commit =>
  match h.byStream.lookup commit.stream.stream with
  | some v => (v, h)
  | none =>
    match h.script with
    | v :: rest => (v, { h with script := rest })
    | [] => (h.last, h)

end EventSourcing
