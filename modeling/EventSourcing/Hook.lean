import EventSourcing.Operation
import EventSourcing.Upconverter

/-!
# Hooks

Hooks stand between clients and a store. Before a commit each is asked in turn whether the attempt
may pass; the first one that refuses ends it, and the store never sees it. After a commit each is
told. Whatever is read passes through all of them in order, and each may change a commit, hide it or
fail; the stored commit that a duplicate answer carries counts as read. Before streams are deleted
or tenants purged each is told.

`Hook.engine hooks inner` is the store behind the hooks. Hiding every commit of a duplicate answer
makes the answer empty.
-/

namespace EventSourcing

/-- What stands between clients and a store. -/
structure Hook where
  /-- Whether an attempt may pass. -/
  allows : Attempt → Bool := fun _ => true
  /-- What a reader sees of a commit, nothing if it is hidden. -/
  select : Commit → Except Fault (Option Commit) := fun c => .ok (some c)

namespace Hook

/-- A hook that lets everything pass. -/
def transparent : Hook := {}

/-- Shows events in their current kinds. -/
def upconvert (u : Upconverter) : Hook where
  select c :=
    match u.upconvert c with
    | .ok c => .ok (some c)
    | .error e => .error (.conversion e)

/-- Hides the commits of a stream name. -/
def hide (stream : String) : Hook where
  select c := .ok (if c.stream.stream = stream then none else some c)

/-- Refuses the attempts on a stream name. -/
def veto (stream : String) : Hook where
  allows a := a.stream.stream ≠ stream

/-- Fails on the commits of a stream name. -/
def failing (stream reason : String) : Hook where
  select c := if c.stream.stream = stream then .error (.unavailable reason) else .ok (some c)

/-- Sets a header of every commit read. -/
def tag (key : String) (value : Json) : Hook where
  select c := .ok (some { c with headers := Fields.insert key value c.headers })

/-- Asks the hooks from position `i` on; tells whether all allow the attempt. -/
def allowAll (i : Nat) (a : Attempt) : List Hook → Bool × List Notice
  | [] => (true, [])
  | h :: hs =>
    if h.allows a then
      let (allowed, ns) := allowAll (i + 1) a hs
      (allowed, ⟨i, .preCommit a⟩ :: ns)
    else (false, [⟨i, .preCommit a⟩])

/-- Lets a commit pass through the hooks from position `i` on. -/
def selectAll (i : Nat) (c : Commit) : List Hook → Except Fault (Option Commit) × List Notice
  | [] => (.ok (some c), [])
  | h :: hs =>
    match h.select c with
    | .error e => (.error e, [⟨i, .select c⟩])
    | .ok none => (.ok none, [⟨i, .select c⟩])
    | .ok (some c') =>
      let (result, ns) := selectAll (i + 1) c' hs
      (result, ⟨i, .select c⟩ :: ns)

/-- Tells every hook. -/
def tellAll (hooks : List Hook) (call : HookCall) : List Notice :=
  (List.range hooks.length).map fun i => ⟨i, call⟩

/-- What a reader behind the hooks sees of a feed; `before` are calls for items that were hidden. -/
def filterPulls (hooks : List Hook) (closing : List Notice) :
    List Notice → List Pull → Feed
  | before, [] => ⟨[], before ++ closing⟩
  | before, p :: ps =>
    match p.item with
    | .error e =>
      let rest := filterPulls hooks closing [] ps
      ⟨⟨before ++ p.notices, .error e⟩ :: rest.pulls, rest.closing⟩
    | .ok c =>
      let (result, ns) := selectAll 0 c hooks
      match result with
      | .error e =>
        let rest := filterPulls hooks closing [] ps
        ⟨⟨before ++ p.notices ++ ns, .error e⟩ :: rest.pulls, rest.closing⟩
      | .ok (some c) =>
        let rest := filterPulls hooks closing [] ps
        ⟨⟨before ++ p.notices ++ ns, .ok c⟩ :: rest.pulls, rest.closing⟩
      | .ok none => filterPulls hooks closing (before ++ p.notices ++ ns) ps

/-- What a reader behind the hooks sees of a feed. -/
def filterFeed (hooks : List Hook) (f : Feed) : Feed := filterPulls hooks f.closing [] f.pulls

/-- The answer to a commit, as the hooks let it pass. -/
def filterCommit (hooks : List Hook) :
    Except Fault (Option Commit) → Except Fault (Option Commit) × List Notice
  | .ok (some c) => (.ok (some c), tellAll hooks (.postCommit c))
  | .error (.duplicate existing) =>
    let (result, ns) := selectAll 0 existing hooks
    match result with
    | .error e => (.error e, ns)
    | .ok (some c) => (.error (.duplicate c), ns)
    | .ok none => (.ok none, ns)
  | answer => (answer, [])

variable {σ : Type}

/-- The store behind the hooks. -/
def engine (hooks : List Hook) (inner : Engine σ) : Engine σ
  | .commit a, s =>
    let (allowed, asked) := allowAll 0 a hooks
    if allowed then
      let (response, s) := inner (.commit a) s
      let (answer, told) := filterCommit hooks response.reply
      (⟨answer, asked ++ response.notices ++ told⟩, s)
    else (⟨.ok none, asked⟩, s)
  | .read q, s =>
    let (response, s) := inner (.read q) s
    (⟨filterFeed hooks response.reply, response.notices⟩, s)
  | .purge tenant, s =>
    let (response, s) := inner (.purge tenant) s
    (⟨response.reply, tellAll hooks (.purge (some tenant)) ++ response.notices⟩, s)
  | .purgeAll, s =>
    let (response, s) := inner .purgeAll s
    (⟨response.reply, tellAll hooks (.purge none) ++ response.notices⟩, s)
  | .deleteStream stream, s =>
    let (response, s) := inner (.deleteStream stream) s
    (⟨response.reply, tellAll hooks (.deleteStream stream) ++ response.notices⟩, s)
  | op, s => inner op s

/-- A store with hooks; without any it is the store itself. -/
def store (hooks : List Hook) (inner : Engine σ) : Engine σ :=
  if hooks.isEmpty then inner else engine hooks inner

end Hook

end EventSourcing
