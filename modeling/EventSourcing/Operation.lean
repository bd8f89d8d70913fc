import EventSourcing.Fault

/-!
# Store operations

An `Operation` is a request to a store and `Operation.Reply` the type of its answer. An `Engine` is
a store as a function of its state. Everything above stores is a `Program`: a finite tree of
operations, whose rest depends on the reply to each, so that programs of several clients can be run
one call at a time in any order.

A read answers with a `Feed`: the items in order, each a commit or a fault, together with the calls
that hooks receive while the item is fetched. A reader who stops early does not cause the later
calls (`Feed.noticesUntil`).
-/

namespace EventSourcing

/-- Which commits a read asks for. -/
inductive Query where
  /-- The commits of a stream that have events from the first to the second revision. -/
  | revisions (stream : StreamId) (first last : Nat)
  /-- The commits of a tenant after a checkpoint. -/
  | after (tenant : String) (checkpoint : Int)
  /-- The commits of a tenant from a stamp on, up to a second one not included. -/
  | during (tenant : String) (start : Stamp) (stop : Option Stamp)
  deriving DecidableEq, Repr

/-- A request to a store. -/
inductive Operation where
  | commit (attempt : Attempt)
  | read (query : Query)
  /-- The latest snapshot of a stream up to a revision. -/
  | snapshot (stream : StreamId) (last : Nat)
  | addSnapshot (snapshot : Snapshot)
  /-- The streams of a tenant with more than so many revisions since their snapshot. -/
  | streamsToSnapshot (tenant : String) (threshold : Nat)
  /-- Makes the store ready for use. -/
  | setUp
  | dropStore
  | purge (tenant : String)
  | purgeAll
  | deleteStream (stream : StreamId)
  deriving DecidableEq, Repr

/-- A call that a hook receives. -/
inductive HookCall where
  | preCommit (attempt : Attempt)
  | postCommit (commit : Commit)
  | select (commit : Commit)
  | purge (tenant : Option String)
  | deleteStream (stream : StreamId)
  deriving DecidableEq, Repr

/-- A call that the hook at a position receives. -/
structure Notice where
  hook : Nat
  call : HookCall
  deriving DecidableEq, Repr

/-- What a read yields at one position. -/
abbrev Item := Except Fault Commit

/-- An item, and the calls made while it was fetched. -/
structure Pull where
  notices : List Notice := []
  item : Item

/-- What a read yields, and the calls made while its end was found. -/
structure Feed where
  pulls : List Pull
  closing : List Notice := []

namespace Feed

/-- The items of a read. -/
def items (f : Feed) : List Item := f.pulls.map (·.item)

/-- A read without hooks. -/
def ofItems (items : List Item) : Feed := ⟨items.map fun i => ⟨[], i⟩, []⟩

@[simp] theorem items_ofItems (items : List Item) : (ofItems items).items = items := by
  simp [Feed.items, ofItems, Function.comp_def]

/-- The calls made for a reader who stops after the first item of a kind. -/
def noticesUntil (stop : Item → Bool) (f : Feed) : List Notice :=
  go f.pulls
where
  go : List Pull → List Notice
    | [] => f.closing
    | p :: ps => p.notices ++ if stop p.item then [] else go ps

/-- The calls made for a reader who stops after so many items. -/
def noticesOf (count : Nat) (f : Feed) : List Notice :=
  (f.pulls.take count).flatMap (·.notices)

/-- The calls made for a reader who reads on to the end. -/
def notices (f : Feed) : List Notice := f.pulls.flatMap (·.notices) ++ f.closing

end Feed

/-- The commits of a read that has no faults, else its first fault. -/
def collectItems : List Item → Except Fault (List Commit)
  | [] => .ok []
  | .error e :: _ => .error e
  | .ok c :: rest =>
    match collectItems rest with
    | .error e => .error e
    | .ok cs => .ok (c :: cs)

/-- The first commit of an id, if no fault comes before it. -/
def findItem (id : CommitId) : List Item → Except Fault (Option Commit)
  | [] => .ok none
  | .error e :: _ => .error e
  | .ok c :: rest => if c.id = id then .ok (some c) else findItem id rest

/-- The type of the answer to an operation. -/
def Operation.Reply : Operation → Type
  | .commit _ => Except Fault (Option Commit)
  | .read _ => Feed
  | .snapshot _ _ => Except Fault (Option Snapshot)
  | .addSnapshot _ => Except Fault Bool
  | .streamsToSnapshot _ _ => List (Except Fault StreamHead)
  | .setUp | .dropStore | .purge _ | .purgeAll | .deleteStream _ => Except Fault Unit

/-- An answer, and the calls that hooks received while it was found. -/
structure Response (op : Operation) where
  reply : op.Reply
  notices : List Notice := []

/-- All calls of an answer, those of a read being those for a reader who reads on to the end. -/
def Response.allNotices : {op : Operation} → Response op → List Notice
  | .read _, r => r.notices ++ Feed.notices r.reply
  | _, r => r.notices

/-- A store: its answer to an operation and its next state. -/
def Engine (σ : Type) : Type := (op : Operation) → σ → Response op × σ

/-- A finite activity of a client: operations, and calls made to hooks in between. -/
inductive Program (α : Type) where
  | done (value : α)
  | note (notices : List Notice) (rest : Program α)
  | call (op : Operation) (next : op.Reply → Program α)

/-- What a program has come to. -/
structure Run (σ α : Type) where
  value : α
  notices : List Notice
  state : σ

namespace Program

variable {α β σ : Type}

def bind (p : Program α) (f : α → Program β) : Program β :=
  match p with
  | .done a => f a
  | .note ns rest => .note ns (bind rest f)
  | .call op next => .call op fun r => bind (next r) f

instance : Monad Program where
  pure := .done
  bind := bind

/-- Runs a program alone on a store. -/
def run (engine : Engine σ) : Program α → σ → Run σ α
  | .done a, s => ⟨a, [], s⟩
  | .note ns rest, s =>
    let r := run engine rest s
    { r with notices := ns ++ r.notices }
  | .call op next, s =>
    let (response, s') := engine op s
    let r := run engine (next response.reply) s'
    { r with notices := response.notices ++ r.notices }

/-- Lets a program make its next call; a finished program stays as it is. -/
def step (engine : Engine σ) : Program α → σ → Program α × σ
  | .done a, s => (.done a, s)
  | .note _ rest, s => step engine rest s
  | .call op next, s =>
    let (response, s') := engine op s
    (next response.reply, s')

/-- Whether a program has finished, and with what. -/
def result? : Program α → Option α
  | .done a => some a
  | .note _ rest => result? rest
  | .call _ _ => none

/-- A single operation. -/
def perform (op : Operation) : Program op.Reply := .call op .done

/-- All commits of a read, or its first fault. -/
def collect (query : Query) : Program (Except Fault (List Commit)) :=
  .call (.read query) fun feed =>
    .note (feed.noticesUntil fun i => i.toOption.isNone) (.done (collectItems feed.items))

/-- The commit of an id, looked for in a read. -/
def find (query : Query) (id : CommitId) : Program (Except Fault (Option Commit)) :=
  .call (.read query) fun feed =>
    .note (feed.noticesUntil fun i => match i with | .ok c => c.id = id | .error _ => true)
      (.done (findItem id feed.items))

@[simp] theorem run_done (engine : Engine σ) (a : α) (s : σ) :
    run engine (.done a) s = ⟨a, [], s⟩ := rfl

end Program

end EventSourcing
