import EventSourcing.Number.Binary64
import EventSourcing.Number.Shortest
import EventSourcing.Text.Utf8
import EventSourcing.Text.Hex
import EventSourcing.Text.Base64
import EventSourcing.Json.Basic
import EventSourcing.Json.Printer
import EventSourcing.Json.Reader
import EventSourcing.Json.Shape
import EventSourcing.Stamp
import EventSourcing.CommitId
import EventSourcing.Event
import EventSourcing.Serializer
import EventSourcing.Commit
import EventSourcing.Fault
import EventSourcing.Verdict
import EventSourcing.Operation
import EventSourcing.Memory
import EventSourcing.Handle
import EventSourcing.Upconverter
import EventSourcing.Upconverter.Rule
import EventSourcing.Hook
import EventSourcing.Polling
import EventSourcing.Tables.Row
import EventSourcing.Tables.Paging
import EventSourcing.Tables
import EventSourcing.Tables.Overwrite
import EventSourcing.Store
import EventSourcing.Session
import EventSourcing.Wire.Protobuf
import EventSourcing.Wire.Message
import EventSourcing.Wire.Request
import EventSourcing.Wire.Record
import EventSourcing.Remote.Address
import EventSourcing.Remote.Server
import EventSourcing.Remote
import EventSourcing.Remote.Connection
import EventSourcing.Number.Extended
import EventSourcing.Settings.Value
import EventSourcing.Settings.Yaml
import EventSourcing.Settings
import EventSourcing.Proofs.Agreement
import EventSourcing.Proofs.CatchUp
import EventSourcing.Proofs.Interleaving
import EventSourcing.Proofs.ExactlyOnce
import EventSourcing.Proofs.Following
import EventSourcing.Proofs.LiveReading
import EventSourcing.Proofs.Conversion
import EventSourcing.Proofs.SnapshotReplay
import EventSourcing.Proofs.Wire
import EventSourcing.Proofs.Derived
import EventSourcing.Proofs.Bookkeeping
import EventSourcing.Proofs.Parts
import EventSourcing.Proofs.Removal
import EventSourcing.Proofs.Tenants
import EventSourcing.Proofs.HookedWriters
import EventSourcing.Proofs.Transparency
import EventSourcing.Proofs.Notification
import EventSourcing.Proofs.Stacking
import EventSourcing.Proofs.Windows
import EventSourcing.Proofs.Batches
import EventSourcing.Proofs.StagedWork
import EventSourcing.Proofs.OneWinner
import EventSourcing.Proofs.Verdicts
import EventSourcing.Proofs.TimeBounds
import EventSourcing.Proofs.PageSizes
import EventSourcing.Proofs.SnapshotHistory
