import EventSourcing.Handle
import EventSourcing.Hook
import EventSourcing.Polling
import EventSourcing.Store
import EventSourcing.Upconverter.Rule

/-!
# Sessions

A session is a local store behind hooks, together with the handles and the polling clients that work
on it, each under a name. A step is one thing that somebody does: an operation on the store or on
the engine below the hooks, a change of a handle, a move of a client. Its outcome is the answer, and
the calls that the recording hooks received.

Opening a handle that fails leaves the handle of that name, if there is one, in place. Reopening the
session drops all handles and clients.
-/

namespace EventSourcing

/-- What a hook is there for. -/
inductive HookPurpose where
  | transparent
  /-- Lets everything pass and records the calls. -/
  | record
  | upconvert (converters : List Converter)
  | hide (stream : String)
  | veto (stream : String)
  | failing (stream : String)
  | tag (key : String) (value : Json)

/-- The hook for a purpose at a position. -/
def HookPurpose.hook (position : Nat) : HookPurpose → Except ConversionFault Hook
  | .transparent | .record => .ok .transparent
  | .upconvert converters => (Upconverter.build converters).map Hook.upconvert
  | .hide stream => .ok (.hide stream)
  | .veto stream => .ok (.veto stream)
  | .failing stream => .ok (.failing stream ("hook " ++ toString position))
  | .tag key value => .ok (.tag key value)

/-- Whether a hook records the calls it receives. -/
def HookPurpose.records : HookPurpose → Bool
  | .record => true
  | _ => false

/-- The hooks for purposes from a position on. -/
def hooksFrom (position : Nat) : List HookPurpose → Except ConversionFault (List Hook)
  | [] => .ok []
  | p :: ps => do
    let hook ← p.hook position
    return hook :: (← hooksFrom (position + 1) ps)

/-- A polling client with its handler. -/
structure Follower where
  client : PollClient := {}
  handler : ScriptedHandler
  deriving Repr

/-- Values under names. -/
abbrev Registry (β : Type) := List (String × β)

namespace Registry

variable {β : Type}

def find? (name : String) (r : Registry β) : Option β := r.lookup name

def erase (name : String) (r : Registry β) : Registry β := r.filter fun e => e.1 ≠ name

def insert (name : String) (value : β) (r : Registry β) : Registry β :=
  (name, value) :: erase name r

end Registry

/-- How a handle comes into being. -/
inductive Opening where
  | create (stream : StreamId)
  | window (stream : StreamId) (first last : Nat)
  | fromSnapshot (snapshot : Snapshot) (last : Nat)
  deriving DecidableEq, Repr

def Opening.program : Opening → Program (Except Fault Handle)
  | .create stream => .done (.ok (.create stream))
  | .window stream first last => Handle.openWindow stream first last
  | .fromSnapshot snapshot last => Handle.openFromSnapshot snapshot last

/-- A change of what a handle has staged. -/
inductive Staging where
  | add (event : Event)
  | setHeader (key : String) (value : Json)
  | clear
  deriving DecidableEq, Repr

def Staging.apply : Staging → Handle → Handle
  | .add event => .add event
  | .setHeader key value => .setHeader key value
  | .clear => .clearChanges

/-- A move of a polling client. -/
inductive Move where
  | configure (tenant : String)
  | start (tenant : String) (checkpoint : Int)
  | startFrom (checkpoint : Int)
  | pollNow
  | tick
  | stop
  | stay
  deriving DecidableEq, Repr

/-- One thing that somebody does in a session. -/
inductive Step where
  /-- An operation on the store, or on the engine below the hooks. -/
  | perform (raw : Bool) (op : Operation)
  | disableReads (on : Bool)
  | disableCommits (on : Bool)
  | commitCount
  | overwrite (overwrite : Overwrite)
  | reopen
  | openHandle (name : String) (opening : Opening)
  | inspect (name : String)
  | stage (name : String) (staging : Staging)
  | commitChanges (name : String) (id : CommitId) (stamp : Stamp)
  | closeHandle (name : String)
  | newClient (name : String) (handler : ScriptedHandler)
  | moveClient (name : String) (move : Move)
  | dropClient (name : String)

/-- The answer to a step. -/
inductive Answer where
  | done
  /-- The reply to an operation. -/
  | replied (op : Operation) (reply : op.Reply)
  | counted (count : Nat)
  | failed (fault : Fault)
  /-- A handle that was opened or inspected. -/
  | opened (handle : Handle)
  /-- A handle after a change of what it has staged. -/
  | staged (handle : Handle)
  /-- A handle after an attempt to commit. -/
  | committed (handle : Handle) (result : Except Fault (Option Commit))
  /-- A client after a move that it could make or not, and the commits that were handed over. -/
  | moved (client : PollClient) (delivered : List Commit) (result : Except PollFault Unit)
  /-- The session has nothing of that name. -/
  | unknown (name : String)

/-- What a step has come to. -/
structure Outcome where
  answer : Answer
  notices : List Notice := []

/-- A local store behind hooks, with handles and clients. -/
structure Session where
  settings : StoreSettings
  hooks : List Hook
  /-- The positions of the hooks that record. -/
  recording : List Nat
  store : Store
  handles : Registry Handle := []
  clients : Registry Follower := []

namespace Session

/-- Begins a session over a new store. -/
def start (settings : StoreSettings) (purposes : List HookPurpose) :
    Except ConversionFault Session := do
  let hooks ← hooksFrom 0 purposes
  return {
    settings := settings
    hooks := hooks
    recording := (List.range purposes.length).filter fun i =>
      (purposes[i]?).any HookPurpose.records
    store := .create settings }

/-- The engine that clients see. -/
def engine (s : Session) : Engine Store := Hook.store s.hooks Store.engine

/-- Runs a program of a client on the store. -/
def run {α : Type} (s : Session) (p : Program α) : α × List Notice × Session :=
  let r := p.run s.engine s.store
  (r.value, r.notices, { s with store := r.state })

def setHandle (s : Session) (name : String) (h : Handle) : Session :=
  { s with handles := s.handles.insert name h }

def setClient (s : Session) (name : String) (f : Follower) : Session :=
  { s with clients := s.clients.insert name f }

/-- Begins again over what the closed store leaves. -/
def reopen (s : Session) : Session :=
  { s with store := s.store.reopen s.settings, handles := [], clients := [] }

/-- A move that changes a client without a read, if the client can make it. -/
def steer (c : PollClient) : Move → Except PollFault PollClient
  | .configure tenant => c.configure tenant
  | .start tenant checkpoint => do (← c.configure tenant).startFrom checkpoint
  | .startFrom checkpoint => c.startFrom checkpoint
  | .stop => .ok c.stop
  | .pollNow | .tick | .stay => .ok c

/-- The reads that a move causes. -/
def reads (f : Follower) : Move → Program (PollClient.Polled ScriptedHandler)
  | .pollNow => f.client.pollNow ScriptedHandler.handle f.handler
  | .tick => f.client.tick ScriptedHandler.handle f.handler
  | _ => .done ⟨f.client, f.handler, []⟩

/-- Makes a move of a client. -/
def moveClient (s : Session) (name : String) (f : Follower) (move : Move) : Outcome × Session :=
  match steer f.client move with
  | .error e => (⟨.moved f.client [] (.error e), []⟩, s)
  | .ok client =>
    let (polled, notices, s) := s.run (reads { f with client := client } move)
    (⟨.moved polled.client polled.delivered (.ok ()), notices⟩,
      s.setClient name ⟨polled.client, polled.handler⟩)

/-- Takes a step; every call that a hook receives is in the outcome. -/
def act (s : Session) : Step → Outcome × Session
  | .perform raw op =>
    let (response, store) := (if raw then Store.engine else s.engine) op s.store
    (⟨.replied op response.reply, response.allNotices⟩, { s with store := store })
  | .disableReads on =>
    (⟨.done, []⟩, { s with store := s.store.mapMemory ({ · with readsDisabled := on }) })
  | .disableCommits on =>
    (⟨.done, []⟩, { s with store := s.store.mapMemory ({ · with commitsDisabled := on }) })
  | .commitCount => (⟨.counted s.store.commitCount, []⟩, s)
  | .overwrite o =>
    let (result, store) := s.store.overwrite o
    (⟨match result with | .ok n => .counted n | .error e => .failed e, []⟩,
      { s with store := store })
  | .reopen => (⟨.done, []⟩, s.reopen)
  | .openHandle name opening =>
    match s.run opening.program with
    | (.error e, notices, s) => (⟨.failed e, notices⟩, s)
    | (.ok h, notices, s) => (⟨.opened h, notices⟩, s.setHandle name h)
  | .inspect name =>
    match s.handles.find? name with
    | none => (⟨.unknown name, []⟩, s)
    | some h => (⟨.opened h, []⟩, s)
  | .stage name staging =>
    match s.handles.find? name with
    | none => (⟨.unknown name, []⟩, s)
    | some h => let h := staging.apply h; (⟨.staged h, []⟩, s.setHandle name h)
  | .commitChanges name id stamp =>
    match s.handles.find? name with
    | none => (⟨.unknown name, []⟩, s)
    | some h =>
      let ((h, result), notices, s) := s.run (h.commitChanges id stamp)
      (⟨.committed h result, notices⟩, s.setHandle name h)
  | .closeHandle name => (⟨.done, []⟩, { s with handles := s.handles.erase name })
  | .newClient name handler =>
    (⟨.moved {} [] (.ok ()), []⟩, s.setClient name { handler := handler })
  | .moveClient name move =>
    match s.clients.find? name with
    | none => (⟨.unknown name, []⟩, s)
    | some f => s.moveClient name f move
  | .dropClient name => (⟨.done, []⟩, { s with clients := s.clients.erase name })

/-- Takes a step; the outcome has the calls that the recording hooks received. -/
def step (s : Session) (step : Step) : Outcome × Session :=
  let (outcome, s') := s.act step
  ({ outcome with notices := outcome.notices.filter (·.hook ∈ s.recording) }, s')

/-- Takes steps one after the other. -/
def steps (s : Session) : List Step → List Outcome
  | [] => []
  | step :: rest =>
    let (outcome, s) := s.step step
    outcome :: steps s rest

end Session
end EventSourcing
