import EventSourcing.Memory

/-!
# What the answers to a run say

The type of an answer depends on the operation. `PlainReply` is one type for all of them, so that
the answers to a run are a list (`Engine.replies`), and the answers of two stores to one run, or of
one store to two runs, can be compared.

They are compared up to two things: under other checkpoints (`PlainReply.renumber`), and with some
streams left out of what reads of a whole tenant show (`Operation.leaveOut`). The answer to an
operation on one stream is never left out.
-/

namespace EventSourcing

/-- An answer of a store, whatever it was asked. -/
inductive PlainReply where
  | commit (answer : Except Fault (Option Commit))
  | read (items : List Item)
  | snapshot (answer : Except Fault (Option Snapshot))
  | addSnapshot (answer : Except Fault Bool)
  | streamsToSnapshot (heads : List (Except Fault StreamHead))
  | done (answer : Except Fault Unit)

/-- What a reply says. -/
def Operation.plain : (op : Operation) → op.Reply → PlainReply
  | .commit _, r => .commit r
  | .read _, r => .read (Feed.items r)
  | .snapshot _ _, r => .snapshot r
  | .addSnapshot _, r => .addSnapshot r
  | .streamsToSnapshot _ _, r => .streamsToSnapshot r
  | .setUp, r | .dropStore, r | .purge _, r | .purgeAll, r | .deleteStream _, r => .done r

namespace Engine

variable {σ : Type}

/-- The answers of a store to a run of operations. -/
def replies (engine : Engine σ) : σ → List Operation → List PlainReply
  | _, [] => []
  | s, op :: ops => op.plain (engine op s).1.reply :: replies engine (engine op s).2 ops

@[simp] theorem replies_cons (engine : Engine σ) (s : σ) (op : Operation) (ops : List Operation) :
    engine.replies s (op :: ops)
      = op.plain (engine op s).1.reply :: engine.replies (engine op s).2 ops := rfl

/-- The answers to some of the operations of a run. -/
def repliesWhere (engine : Engine σ) (p : Operation → Bool) (s : σ) (ops : List Operation) :
    List PlainReply :=
  ((ops.zip (engine.replies s ops)).filter fun e => p e.1).map (·.2)

theorem repliesWhere_cons (engine : Engine σ) (p : Operation → Bool) (s : σ) (op : Operation)
    (ops : List Operation) : engine.repliesWhere p s (op :: ops)
      = (if p op then [op.plain (engine op s).1.reply] else [])
        ++ engine.repliesWhere p (engine op s).2 ops := by
  rw [repliesWhere, replies_cons, List.zip_cons_cons, List.filter_cons]
  split <;> rfl

end Engine

theorem Memory.plain_read (q : Query) (m : Memory) :
    (Operation.read q).plain (engine (.read q) m).1.reply = .read (m.read q) :=
  congrArg PlainReply.read (Feed.items_ofItems _)

section Renumber

variable {f g : Int → Int}

/-- The commit under another checkpoint. -/
def Commit.renumber (g : Int → Int) (c : Commit) : Commit := { c with checkpoint := g c.checkpoint }

/-- The fault with the commit that it tells of under another checkpoint. -/
def Fault.renumber (g : Int → Int) : Fault → Fault
  | .duplicate c => .duplicate (c.renumber g)
  | e => e

/-- The commit that a fault tells of. -/
def Fault.commits : Fault → List Commit
  | .duplicate c => [c]
  | _ => []

theorem Fault.renumber_congr {e : Fault} (h : ∀ c ∈ e.commits, f c.checkpoint = g c.checkpoint) :
    e.renumber f = e.renumber g := by
  cases e with
  | duplicate c =>
    rw [renumber, renumber, Commit.renumber, Commit.renumber, h c (by simp [commits])]
  | _ => rfl

/-- The item of a read under other checkpoints. -/
def Item.renumber (g : Int → Int) : Item → Item
  | .ok c => .ok (c.renumber g)
  | .error e => .error (e.renumber g)

/-- The commits that an item of a read tells of. -/
def Item.commits : Item → List Commit
  | .ok c => [c]
  | .error e => e.commits

theorem Item.renumber_congr {i : Item}
    (h : ∀ c ∈ Item.commits i, f c.checkpoint = g c.checkpoint) :
    Item.renumber f i = Item.renumber g i := by
  cases i with
  | ok c => rw [renumber, renumber, Commit.renumber, Commit.renumber, h c (by simp [commits])]
  | error e => rw [renumber, renumber, Fault.renumber_congr h]

namespace PlainReply

/-- The answer under other checkpoints. -/
def renumber (g : Int → Int) : PlainReply → PlainReply
  | .commit (.ok c) => .commit (.ok (c.map (·.renumber g)))
  | .commit (.error e) => .commit (.error (e.renumber g))
  | .read items => .read (items.map (Item.renumber g))
  | r => r

/-- The commits that an answer tells of. -/
def commits : PlainReply → List Commit
  | .commit (.ok c) => c.toList
  | .commit (.error e) => e.commits
  | .read items => items.flatMap Item.commits
  | _ => []

/-- Only the checkpoints of the commits that it tells of matter to an answer. -/
theorem renumber_congr {r : PlainReply} (h : ∀ c ∈ r.commits, f c.checkpoint = g c.checkpoint) :
    r.renumber f = r.renumber g := by
  cases r with
  | commit r =>
    cases r with
    | ok c =>
      cases c with
      | none => rfl
      | some c =>
        simp only [renumber, Option.map_some, Commit.renumber, h c (by simp [commits])]
    | error e => rw [renumber, renumber, Fault.renumber_congr h]
  | read items =>
    rw [renumber, renumber]
    congr 1
    exact List.map_congr_left fun i hi => Item.renumber_congr fun c hc =>
      h c (List.mem_flatMap.2 ⟨i, hi, hc⟩)
  | _ => rfl

theorem renumber_id (r : PlainReply) : r.renumber id = r := by
  cases r with
  | commit r =>
    cases r with
    | ok c => cases c <;> rfl
    | error e => cases e <;> rfl
  | read items =>
    have hitem : ∀ i, Item.renumber id i = i := fun i => by
      cases i with
      | ok c => rfl
      | error e => cases e <;> rfl
    rw [renumber, funext hitem]
    exact congrArg read (List.map_id items)
  | _ => rfl

end PlainReply
end Renumber

/-- The query with its checkpoint renumbered. -/
def Query.renumber (g : Int → Int) : Query → Query
  | .after tenant checkpoint => .after tenant (g checkpoint)
  | q => q

namespace Operation

/-- The operation with its checkpoint renumbered. -/
def renumber (g : Int → Int) : Operation → Operation
  | .read q => .read (q.renumber g)
  | op => op

/-- The stream that an operation addresses. -/
def stream? : Operation → Option StreamId
  | .commit a => some a.stream
  | .read (.revisions s _ _) | .snapshot s _ | .deleteStream s => some s
  | .addSnapshot u => some u.stream
  | _ => none

/-- The tenant that an operation addresses. -/
def tenant? : Operation → Option String
  | .read (.after t _) | .read (.during t _ _) | .streamsToSnapshot t _ | .purge t => some t
  | op => op.stream?.map (·.tenant)

/-- The answer without the entries of some streams, if it is that of a read of a whole tenant. -/
def leaveOut (hidden : StreamId → Bool) : Operation → PlainReply → PlainReply
  | .read (.revisions ..), r => r
  | .read _, .read items => .read (items.filter fun i => i.toOption.all fun c => !hidden c.stream)
  | .streamsToSnapshot .., .streamsToSnapshot heads =>
    .streamsToSnapshot (heads.filter fun h => h.toOption.all fun h => !hidden h.stream)
  | _, r => r

variable {f g : Int → Int} {op : Operation}

theorem renumber_renumber : (op.renumber f).renumber g = op.renumber (g ∘ f) := by
  cases op with
  | read q => cases q <;> rfl
  | _ => rfl

theorem renumber_id (op : Operation) : op.renumber id = op := by
  cases op with
  | read q => cases q <;> rfl
  | _ => rfl

/-- An operation on a stream is one on its tenant. -/
theorem tenant?_of_stream? {s : StreamId} (h : op.stream? = some s) :
    op.tenant? = some s.tenant := by
  cases op with
  | read q =>
    cases q with
    | revisions => exact congrArg (Option.map (·.tenant)) h
    | after | during => exact nomatch h
  | commit | snapshot | addSnapshot | deleteStream => exact congrArg (Option.map (·.tenant)) h
  | _ => exact nomatch h

@[simp] theorem stream?_renumber : (op.renumber g).stream? = op.stream? := by
  cases op with
  | read q => cases q <;> rfl
  | _ => rfl

end Operation
end EventSourcing
