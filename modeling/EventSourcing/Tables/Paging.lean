import EventSourcing.Tables.Row

/-!
# Reading page by page

A read fetches its rows in pages. Each query has an order, given by a key of two columns, and the
next page holds the rows whose key is above that of the last commit of the page before. A page is
decoded whole before its first commit is handed out, so one row that cannot be read takes the place
of its page and ends the read. A page that is not full is the last one.

The number of rows of a page is an integer of the database; a greater one fails every read.
-/

namespace EventSourcing

/-- A position in the order of a query. -/
structure PageKey where
  major : Cell
  minor : Int
  deriving DecidableEq, Repr

/-- Whether one position comes before another. -/
def PageKey.before (a b : PageKey) : Bool :=
  match a.major.order b.major with
  | .lt => true
  | .eq => a.minor < b.minor
  | .gt => false

/-- Whether one position comes before another or is the same. -/
def PageKey.atMost (a b : PageKey) : Bool := !b.before a

namespace Query

/-- Where a row stands in the order of a query: streams by sequence, checkpoints ascending, spans of
time by stamp and then checkpoint. -/
def rowKey : Query → CommitRow → PageKey
  | .revisions .., r => ⟨r.sequence, 0⟩
  | .after .., r => ⟨.integer r.checkpoint, 0⟩
  | .during .., r => ⟨r.stamp, r.checkpoint⟩

/-- Where a commit stands in the order of a query. -/
def commitKey : Query → Commit → PageKey
  | .revisions .., c => ⟨.integer c.sequence, 0⟩
  | .after .., c => ⟨.integer c.checkpoint, 0⟩
  | .during .., c => ⟨.integer c.stamp.micros, c.checkpoint⟩

/-- Whether a row answers a query. -/
def selects : Query → CommitRow → Bool
  | .revisions stream first last, r =>
    r.ofStream stream && (Cell.integer first).atMost r.revision
      && (r.revision.sub? r.items).any fun previous => previous.before (.integer last)
  | .after tenant checkpoint, r => r.ofTenant tenant && checkpoint < r.checkpoint
  | .during tenant start stop, r =>
    r.ofTenant tenant && (Cell.integer start.micros).atMost r.stamp
      && stop.all fun t => r.stamp.before (.integer t.micros)

/-- The rows of a query that come after a position, in order. -/
def rowsAfter (q : Query) (cursor : Option PageKey) (rows : List CommitRow) : List CommitRow :=
  (rows.filter fun r => q.selects r
    && (match cursor with | some k => k.before (q.rowKey r) | none => true)).mergeSort
    fun a b => (q.rowKey a).atMost (q.rowKey b)

end Query

/-- The commits of rows, or the fault of the first row that has one. -/
def decodeRows : List CommitRow → Except Fault (List Commit)
  | [] => .ok []
  | r :: rs => do
    let c ← r.decode
    let cs ← decodeRows rs
    return c :: cs

/-- A page: its commits, and where the next page starts if there may be one. -/
structure Page where
  commits : List Commit
  next : Option PageKey
  deriving Repr

/-- Fetches the page after a position. -/
def fetchPage (q : Query) (size : Nat) (cursor : Option PageKey) (rows : List CommitRow) :
    Except Fault Page := do
  let found := (q.rowsAfter cursor rows).take size
  let commits ← decodeRows found
  return ⟨commits, if found.length < size then none else commits.getLast?.map q.commitKey⟩

/-- The items of a read whose next page starts after a position, from at most so many pages. -/
def readFrom (q : Query) (size : Nat) (rows : List CommitRow) : Nat → Option PageKey → List Item
  | 0, _ => []
  | pages + 1, cursor =>
    match fetchPage q size cursor rows with
    | .error e => [.error e]
    | .ok page =>
      page.commits.map .ok ++
        match page.next with
        | none => []
        | some key => readFrom q size rows pages (some key)

/-- The greatest number of rows that a page can have. -/
def maxPage : Nat := 9223372036854775807

/-- The items of a read. There are at most as many full pages as rows. -/
def readRows (q : Query) (size : Nat) (rows : List CommitRow) : List Item :=
  if maxPage < size then [.error .database] else readFrom q size rows (rows.length + 1) none

end EventSourcing
