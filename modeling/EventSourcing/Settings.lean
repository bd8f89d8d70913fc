import EventSourcing.Commit
import EventSourcing.Settings.Path
import EventSourcing.Settings.Yaml

/-!
# Settings

The settings of a process: which store it uses and how, how often a client polls and whom it
follows, and how records are laid out. They come from files and from variables of the environment,
later ones winning key by key. The name of a variable is a common beginning (`variableStart`), the
section and the key, with two low lines between them.

A section that is missing, and every key that is missing, has its default. A key that is not known
is ignored, whatever its value.
-/

namespace EventSourcing

/-- The kinds of stores to choose from. -/
inductive StorageChoice where
  | memory
  | tables
  | remote
  deriving DecidableEq, Repr

/-- How a store in tables is opened. -/
structure DatabaseSettings where
  path : String := "data/commitstore.db"
  pageSize : Nat := 128
  maxConnections : Nat := 5
  deriving DecidableEq, Repr

/-- How a remote store is reached. -/
structure RemoteSettings where
  address : String := "localhost:1340"
  /-- Milliseconds. -/
  timeout : Nat := 5000
  deriving DecidableEq, Repr

structure StorageSettings where
  choice : StorageChoice := .tables
  database : DatabaseSettings := {}
  remote : RemoteSettings := {}
  deriving DecidableEq, Repr

structure PollingSettings where
  /-- Milliseconds. -/
  interval : Nat := 1000
  tenant : String := defaultTenant
  deriving DecidableEq, Repr

structure Settings where
  storage : StorageSettings := {}
  polling : PollingSettings := {}
  /-- Whether records are written with indentation. -/
  pretty : Bool := false
  deriving DecidableEq, Repr

namespace StorageChoice

def name : StorageChoice → String
  | .memory => "memory"
  | .tables => "sqlite"
  | .remote => "grpc"

/-- The choice of a name, in letters of either case. -/
def ofName? (s : String) : Option StorageChoice :=
  match lowered s with
  | "memory" => some .memory
  | "sqlite" => some .tables
  | "grpc" => some .remote
  | _ => none

/-- The choice that a value names, itself or as the only key of a table. -/
def ofSetting? : Setting → Option StorageChoice
  | .text s => ofName? s
  | .table [(key, _)] => ofName? key
  | _ => none

end StorageChoice

/-- The greatest number of 64 bits. -/
def maxWord : Nat := 18446744073709551615

/-- The value of a field that may be missing. -/
def fieldOr {α : Type} (default : α) (read : Setting → Option α) : Option Setting → Option α
  | none => some default
  | some v => read v

namespace DatabaseSettings

def ofSetting? (v : Setting) : Option DatabaseSettings := do
  match ← v.fields? ["path", "page_size", "max_connections"] with
  | [path, pageSize, maxConnections] =>
    let d : DatabaseSettings := {}
    return {
      path := ← fieldOr d.path Setting.text? path
      pageSize := ← fieldOr d.pageSize (Setting.word? maxWord) pageSize
      maxConnections := ← fieldOr d.maxConnections (Setting.word? maxRevision) maxConnections }
  | _ => none

end DatabaseSettings

namespace RemoteSettings

def ofSetting? (v : Setting) : Option RemoteSettings := do
  match ← v.fields? ["address", "timeout_ms"] with
  | [address, timeout] =>
    let d : RemoteSettings := {}
    return {
      address := ← fieldOr d.address Setting.text? address
      timeout := ← fieldOr d.timeout (Setting.word? maxWord) timeout }
  | _ => none

end RemoteSettings

namespace StorageSettings

def ofSetting? (v : Setting) : Option StorageSettings := do
  match ← v.fields? ["type", "sqlite", "grpc"] with
  | [choice, database, remote] =>
    let d : StorageSettings := {}
    return {
      choice := ← fieldOr d.choice StorageChoice.ofSetting? choice
      database := ← fieldOr d.database DatabaseSettings.ofSetting? database
      remote := ← fieldOr d.remote RemoteSettings.ofSetting? remote }
  | _ => none

end StorageSettings

namespace PollingSettings

def ofSetting? (v : Setting) : Option PollingSettings := do
  match ← v.fields? ["interval_ms", "tenant"] with
  | [interval, tenant] =>
    let d : PollingSettings := {}
    return {
      interval := ← fieldOr d.interval (Setting.word? maxWord) interval
      tenant := ← fieldOr d.tenant Setting.text? tenant }
  | _ => none

end PollingSettings

namespace Settings

/-- The layout of records. -/
def pretty? (v : Setting) : Option Bool := do
  match ← v.fields? ["pretty"] with
  | [pretty] => fieldOr false Setting.bool? pretty
  | _ => none

def ofSetting? (v : Setting) : Option Settings := do
  match ← v.fields? ["storage", "polling", "serializer"] with
  | [storage, polling, serializer] =>
    let d : Settings := {}
    return {
      storage := ← fieldOr d.storage StorageSettings.ofSetting? storage
      polling := ← fieldOr d.polling PollingSettings.ofSetting? polling
      pretty := ← fieldOr d.pretty pretty? serializer }
  | _ => none

/-- Sets entries that have paths for keys. -/
def addEntries (root : Setting) (entries : List (String × Setting)) : Setting :=
  entries.foldl (fun root e => Setting.assignPath e.2 (PathStep.ofString e.1) root) root

/-- What the value of a variable stands for: a truth value, an integer, a number, else itself. -/
def variableValue (s : String) : Setting :=
  match lowered s with
  | "true" => .bool true
  | "false" => .bool false
  | _ =>
    match (integerOfChars? s.toList).bind Yaml.int64? with
    | some n => .int n
    | none =>
      match Extended.ofChars? s.toList with
      | some x => .float x
      | none => .text s

/-- What the name of every variable of settings begins with, in small letters. -/
def variableStart : List Char := "commitstore__".toList

/-- Points for pairs of low lines. -/
def pointed : List Char → List Char
  | '_' :: '_' :: r => '.' :: pointed r
  | c :: r => c :: pointed r
  | [] => []

/-- The path and the value that a variable sets, if it is one of settings. -/
def entryOfVariable? (name value : String) : Option (String × Setting) :=
  let cs := (lowered name).toList
  if variableStart.isPrefixOf cs then
    some (String.ofList (pointed (cs.drop variableStart.length)), variableValue value)
  else none

/-- The settings of files, of which each must be there and be readable, and of variables. -/
def load? (files : List (Option String)) (environment : List (String × String)) :
    Option Settings := do
  let layers ← files.mapM fun file => file.bind fun text => Yaml.read text.toList
  let root := layers.foldl addEntries (.table [])
  let root := addEntries root (environment.filterMap fun v => entryOfVariable? v.1 v.2)
  ofSetting? root

end Settings
end EventSourcing
