import EventSourcing.Memory
import EventSourcing.Tables.Overwrite

/-!
# Local stores

A local store is one in memory or one in database tables, and `Store.engine` is its engine. A
database is private to its store or lives in a file; only what is in a file outlasts the closing of
the store (`Store.reopen`).
-/

namespace EventSourcing

/-- What a local store is made of. -/
inductive StoreKind where
  | memory
  | tables (options : TableOptions)
  deriving DecidableEq, Repr

/-- How a local store is opened. -/
structure StoreSettings where
  kind : StoreKind
  /-- Whether the database lives in a file. -/
  inFile : Bool := false
  /-- Whether opening creates missing tables. -/
  createTables : Bool := true
  deriving DecidableEq, Repr

/-- A local store. -/
inductive Store where
  | memory (memory : Memory)
  | tables (options : TableOptions) (database : Database)

namespace Store

/-- Opens a store over the contents of its file, or over none. -/
def openOver (settings : StoreSettings) (contents : Database) : Store :=
  match settings.kind with
  | .memory => .memory .empty
  | .tables options =>
    .tables options (if settings.createTables then Database.setUp contents else contents)

/-- Opens a new store. -/
def create (settings : StoreSettings) : Store := openOver settings none

/-- The database of a store, if it has one. -/
def contents : Store → Database
  | .memory _ => none
  | .tables _ database => database

/-- Closes a store and opens it again. -/
def reopen (settings : StoreSettings) (s : Store) : Store :=
  openOver settings (if settings.inFile then s.contents else none)

/-- A local store as an engine. -/
def engine : Engine Store
  | op, .memory m => let (r, m) := Memory.engine op m; (r, .memory m)
  | op, .tables options database =>
    let (r, database) := Database.engine options op database
    (r, .tables options database)

/-- Changes the switches of a store in memory; other stores have none. -/
def mapMemory (f : Memory → Memory) : Store → Store
  | .memory m => .memory (f m)
  | s => s

/-- The number of commits of a store in memory; other stores do not count theirs. -/
def commitCount : Store → Nat
  | .memory m => m.commitCount
  | .tables .. => 0

/-- Overwrites a column of a store in tables; tells how many rows were changed. -/
def overwrite (o : Overwrite) : Store → Except Fault Nat × Store
  | .memory m => (.error .database, .memory m)
  | .tables options database =>
    let (r, database) := database.overwrite o
    (r, .tables options database)

@[simp] theorem engine_memory (op : Operation) (m : Memory) :
    engine op (.memory m) = ((Memory.engine op m).1, .memory (Memory.engine op m).2) := rfl

end Store
end EventSourcing
