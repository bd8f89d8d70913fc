import EventSourcing.Tables

/-!
# Overwriting columns

Whoever has the database file can write anything into it. An overwrite sets one column of the rows
that hold given values in given columns; what it writes, and what it compares with, is converted as
the kind of the column asks. Overwrites that put something other than an integer in the place of a
row number, or after which two rows would have one key, are refused and change nothing.
-/

namespace EventSourcing

/-- A column of rows of a type: how it is read and written. -/
structure Column (ρ : Type) where
  kind : ColumnKind
  get : ρ → Cell
  set? : Cell → ρ → Option ρ

/-- A column that may hold anything. -/
def Column.free {ρ : Type} (kind : ColumnKind) (get : ρ → Cell) (set : Cell → ρ → ρ) : Column ρ :=
  ⟨kind, get, fun v r => some (set v r)⟩

/-- A column of the table of commits by its name. -/
def CommitRow.column? : String → Option (Column CommitRow)
  | "checkpoint_number" =>
    some ⟨.integers, fun r => .integer r.checkpoint, fun v r =>
      match v with
      | .number (.integer n) => some { r with checkpoint := n }
      | _ => none⟩
  | "tenant_id" => some (.free .text (·.tenant) fun v r => { r with tenant := v })
  | "stream_id" => some (.free .text (·.stream) fun v r => { r with stream := v })
  | "commit_id" => some (.free .text (·.id) fun v r => { r with id := v })
  | "commit_sequence" => some (.free .integers (·.sequence) fun v r => { r with sequence := v })
  | "stream_revision" => some (.free .integers (·.revision) fun v r => { r with revision := v })
  | "items" => some (.free .integers (·.items) fun v r => { r with items := v })
  | "commit_stamp" => some (.free .integers (·.stamp) fun v r => { r with stamp := v })
  | "headers" => some (.free .bytes (·.headers) fun v r => { r with headers := v })
  | "payload" => some (.free .bytes (·.payload) fun v r => { r with payload := v })
  | _ => none

/-- A column of the table of streams by its name. -/
def StreamRow.column? : String → Option (Column StreamRow)
  | "tenant_id" => some (.free .text (·.tenant) fun v r => { r with tenant := v })
  | "stream_id" => some (.free .text (·.stream) fun v r => { r with stream := v })
  | "head_revision" => some (.free .integers (·.head) fun v r => { r with head := v })
  | "snapshot_revision" => some (.free .integers (·.snapshot) fun v r => { r with snapshot := v })
  | _ => none

/-- A column of the table of snapshots by its name. -/
def SnapshotRow.column? : String → Option (Column SnapshotRow)
  | "tenant_id" => some (.free .text (·.tenant) fun v r => { r with tenant := v })
  | "stream_id" => some (.free .text (·.stream) fun v r => { r with stream := v })
  | "stream_revision" => some (.free .integers (·.revision) fun v r => { r with revision := v })
  | "payload" => some (.free .bytes (·.payload) fun v r => { r with payload := v })
  | _ => none

/-- Sets a column of the rows that hold certain values. -/
structure Overwrite where
  table : String
  column : String
  value : Cell
  /-- Columns and the values that a row must hold in them. -/
  where? : List (String × Cell)
  deriving Repr

/-- Whether a row holds a value in a column. -/
def holds {ρ : Type} (column? : String → Option (Column ρ)) (r : ρ) (condition : String × Cell) :
    Bool :=
  (column? condition.1).any fun c => (c.get r).same (c.kind.convert condition.2)

/-- Overwrites rows; tells how many. -/
def overwriteRows {ρ : Type} (column? : String → Option (Column ρ)) (o : Overwrite)
    (rows : List ρ) : Except Fault (Nat × List ρ) :=
  match column? o.column with
  | none => .error .database
  | some c =>
    if o.where?.any fun w => (column? w.1).isNone then .error .database
    else
      let matching (r : ρ) : Bool := o.where?.all (holds column? r)
      let value := c.kind.convert o.value
      match rows.mapM fun r => if matching r then c.set? value r else some r with
      | none => .error .database
      | some changed => .ok (rows.countP matching, changed)

/-- Whether no two members of a list have one key. -/
def distinctBy {ρ : Type} (key : ρ → List Cell) (rows : List ρ) : Bool :=
  decide ((rows.map key).Pairwise fun a b => ¬ (a.zipWith Cell.same b).all id)

namespace Tables

/-- Whether every key of the tables belongs to one row. -/
def keysDistinct (t : Tables) : Bool :=
  distinctBy (fun r : CommitRow => [.integer r.checkpoint]) t.commits
    && distinctBy (fun r : CommitRow => [r.tenant, r.stream, r.sequence]) t.commits
    && distinctBy (fun r : CommitRow => [r.tenant, r.stream, r.id]) t.commits
    && distinctBy (fun r : StreamRow => [r.tenant, r.stream]) t.streams
    && distinctBy (fun r : SnapshotRow => [r.tenant, r.stream, r.revision]) t.snapshots

/-- Overwrites a column; tells how many rows were changed. -/
def overwrite (o : Overwrite) (t : Tables) : Except Fault (Nat × Tables) := do
  let (count, t) ←
    match o.table with
    | "commits" => do
      let (n, rows) ← overwriteRows CommitRow.column? o t.commits
      pure (n, { t with commits := rows })
    | "streams" => do
      let (n, rows) ← overwriteRows StreamRow.column? o t.streams
      pure (n, { t with streams := rows })
    | "snapshots" => do
      let (n, rows) ← overwriteRows SnapshotRow.column? o t.snapshots
      pure (n, { t with snapshots := rows })
    | _ => throw .database
  if t.keysDistinct then return (count, t) else throw .database

end Tables

/-- Overwrites a column of the tables, if they exist. -/
def Database.overwrite (o : Overwrite) : Database → Except Fault Nat × Database
  | none => (.error .database, none)
  | some t =>
    match t.overwrite o with
    | .error e => (.error e, some t)
    | .ok (n, t) => (.ok n, some t)

end EventSourcing
