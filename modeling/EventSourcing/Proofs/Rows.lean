import EventSourcing.Proofs.Codecs
import EventSourcing.Tables

/-!
# Rows are read back

What a store in tables writes for a commit, a head or a snapshot is read back as it was, if the
record is one that rows can hold: revisions and sequences are words, the stamp is in the calendar
and a whole number of microseconds, and the JSON values are canonical, plain and not too deep
(`Attempt.Storable`, `Snapshot.Storable`). Cells of one kind compare as what they hold, so a
condition says of a row what it says of the record.
-/

namespace EventSourcing

namespace Cell

variable {a b : String} {m n : Int}

theorem order_integer : (integer m).order (integer n) = compare m n := by
  show compare (m * 1) (n * 1) = _
  rw [Int.mul_one, Int.mul_one]

theorem order_text : (text a).order (text b) = compare a b := rfl

@[simp] theorem asInteger_integer : (integer n).asInteger = .ok n := rfl

@[simp] theorem same_integer : (integer m).same (integer n) = decide (m = n) := by
  rw [Bool.eq_iff_iff, same, order_integer, beq_iff_eq, Int.compare_eq_eq, decide_eq_true_eq]

@[simp] theorem same_text : (text a).same (text b) = decide (a = b) := by
  rw [Bool.eq_iff_iff, same, order_text, beq_iff_eq, Std.compare_eq_iff_eq, decide_eq_true_eq]

/-- The two cells that name a stream. -/
theorem same_stream (r s : StreamId) :
    ((text r.tenant).same (text s.tenant) && (text r.stream).same (text s.stream))
      = decide (r = s) := by
  rw [same_text, same_text, ← Bool.decide_and, decide_eq_decide, ← StreamId.mk.injEq]

@[simp] theorem before_integer : (integer m).before (integer n) = decide (m < n) := by
  rw [Bool.eq_iff_iff, before, order_integer, beq_iff_eq, Int.compare_eq_lt, decide_eq_true_eq]

@[simp] theorem atMost_integer : (integer m).atMost (integer n) = decide (m ≤ n) := by
  rw [atMost, before_integer, ← decide_not, decide_eq_decide, Int.not_lt]

@[simp] theorem before_text : (text a).before (text b) = decide (a < b) := by
  have hlt : compare a b = .lt ↔ a < b := by
    show compareOfLessAndEq a b = .lt ↔ _
    unfold compareOfLessAndEq
    split
    · simp [*]
    · split <;> simp [*]
  rw [Bool.eq_iff_iff, before, order_text, beq_iff_eq, hlt, decide_eq_true_eq]

@[simp] theorem atMost_text : (text a).atMost (text b) = decide (a ≤ b) := by
  rw [atMost, before_text, ← decide_not, decide_eq_decide, String.not_lt]

@[simp] theorem later_integer : (integer m).later (integer n) = integer (max m n) := by
  rw [later, before_integer]
  by_cases h : m < n
  · rw [if_pos (by simpa using h), max_eq_right (Int.le_of_lt h)]
  · rw [if_neg (by simpa using h), max_eq_left (Int.not_lt.1 h)]

/-- The difference of two words is an integer. -/
theorem sub?_words {m n : Nat} (hm : m ≤ maxRevision) (hn : n ≤ maxRevision) :
    (integer m).sub? (integer n) = some (integer ((m : ℤ) - n)) := by
  have hfits : fitsColumn ((m : ℤ) - n) = true := by
    simp only [fitsColumn, Bool.and_eq_true, decide_eq_true_eq]
    unfold maxRevision at hm hn
    omega
  show (if fitsColumn ((m : ℤ) - n) then some (Numeral.integer ((m : ℤ) - n)) else _).map number = _
  rw [if_pos hfits]
  rfl

end Cell

/-- A word is read back from its column. -/
theorem wordOf_integer (column : String) {n : Nat} (h : n ≤ maxRevision) :
    wordOf column (.integer n) = .ok n := by
  show (if 0 ≤ (n : Int) ∧ (n : Int) ≤ maxRevision then Except.ok (n : Int).toNat else _) = _
  rw [if_pos (by omega), Int.toNat_natCast]

/-- An id is read back from its digits. -/
theorem idOf_digits (id : CommitId) : idOf (.text id.digits) = .ok id := by
  have hdecode : Hex.decode (Utf8.ofString id.digits) = .ok id.bytes := by
    rw [Utf8.ofString, CommitId.digits, String.toList_ofList, Hex.decode_encode]
  simp only [idOf, Cell.asText, bind, Except.bind, hdecode, CommitId.ofBytes?_bytes]
  rfl

/-- A stamp of whole microseconds is read back from its column. -/
theorem stampOf_micros {t : Stamp} (hmin : Stamp.minSeconds ≤ t.seconds)
    (hmax : t.seconds ≤ Stamp.maxSeconds) :
    stampOf (.integer t.floorMicros.micros) = .ok t.floorMicros := by
  have hsec : t.floorMicros.micros / 1000000 = t.seconds := by
    rw [Stamp.floorMicros, Stamp.micros_ofMicros, Stamp.micros, Stamp.seconds]
    omega
  have hstamp : Stamp.ofMicros? t.floorMicros.micros = some t.floorMicros := by
    rw [Stamp.ofMicros?, hsec, if_pos ⟨hmin, hmax⟩, Stamp.floorMicros, Stamp.micros_ofMicros]
  simp only [stampOf, Cell.asInteger_integer, bind, Except.bind, hstamp]
  rfl

theorem recordOf_serialize {α : Type} {codec : Codec α} {layout : Layout} {x : α}
    (hcodec : codec.Faithful) (h : (codec.write x).Storable) :
    recordOf codec (serialize codec layout x) = .ok x := by
  rw [recordOf, deserialize_serialize hcodec h]
  rfl

/-- An attempt that rows can hold. -/
structure Attempt.Storable (a : Attempt) : Prop where
  revision_le : a.revision ≤ maxRevision
  sequence_le : a.sequence ≤ maxRevision
  minSeconds_le : Stamp.minSeconds ≤ a.stamp.seconds
  le_maxSeconds : a.stamp.seconds ≤ Stamp.maxSeconds
  headers : (headersCodec.write a.headers).Storable
  events : (Event.listCodec.write a.events).Storable

instance : DecidablePred Attempt.Storable := fun a =>
  decidable_of_iff (a.revision ≤ maxRevision ∧ a.sequence ≤ maxRevision ∧
      Stamp.minSeconds ≤ a.stamp.seconds ∧ a.stamp.seconds ≤ Stamp.maxSeconds ∧
      (headersCodec.write a.headers).Storable ∧ (Event.listCodec.write a.events).Storable)
    ⟨fun ⟨h, h', h'', h''', hh, he⟩ => ⟨h, h', h'', h''', hh, he⟩,
      fun h => ⟨h.1, h.2, h.3, h.4, h.5, h.6⟩⟩

/-- A snapshot that rows can hold. -/
structure Snapshot.Storable (s : Snapshot) : Prop where
  revision_le : s.revision ≤ maxRevision
  payload : (Payload.codec.write s.payload).Storable

instance : DecidablePred Snapshot.Storable := fun s =>
  decidable_of_iff (s.revision ≤ maxRevision ∧ (Payload.codec.write s.payload).Storable)
    ⟨fun ⟨h, h'⟩ => ⟨h, h'⟩, fun h => ⟨h.1, h.2⟩⟩

/-- Whether the names in an operation can stand in a statement. -/
def Operation.quotable : Operation → Bool
  | .commit a => a.stream.quotable
  | .read q => q.quotable
  | .addSnapshot s => s.stream.quotable
  | .snapshot stream _ | .deleteStream stream => stream.quotable
  | .streamsToSnapshot tenant _ | .purge tenant => EventSourcing.quotable tenant
  | .setUp | .dropStore | .purgeAll => true

/-- The attempt with a stamp of whole microseconds. -/
def Attempt.floored (a : Attempt) : Attempt := { a with stamp := a.stamp.floorMicros }

namespace CommitRow

variable {layout : Layout} {a : Attempt} {c : Commit} {s : StreamId} {tenant : String}

@[simp] theorem ofStream_ofCommit : (ofCommit layout c).ofStream s = decide (c.stream = s) :=
  Cell.same_stream _ s

@[simp] theorem ofTenant_ofCommit :
    (ofCommit layout c).ofTenant tenant = decide (c.stream.tenant = tenant) := Cell.same_text

/-- **A commit is read back from its row.** -/
theorem decode_ofCommit (h : a.Storable) (checkpoint : Int) :
    (ofCommit layout (a.floored.confirm checkpoint)).decode
      = .ok (a.floored.confirm checkpoint) := by
  have hheaders : recordOf headersCodec (serialize headersCodec layout a.headers)
      = .ok a.headers := recordOf_serialize headersCodec_faithful h.headers
  have hevents : recordOf Event.listCodec (serialize Event.listCodec layout a.events)
      = .ok a.events := recordOf_serialize Event.faithful_listCodec h.events
  simp only [decode, ofCommit, Attempt.confirm, Attempt.floored, idOf_digits,
    stampOf_micros h.minSeconds_le h.le_maxSeconds, Cell.asBytes, Cell.asText,
    wordOf_integer _ h.revision_le, wordOf_integer _ h.sequence_le, bind, Except.bind, hheaders,
    hevents]
  rfl

end CommitRow

namespace StreamRow

/-- The row of a head. -/
def ofHead (h : StreamHead) : StreamRow :=
  ⟨.text h.stream.tenant, .text h.stream.stream, .integer h.head, .integer h.snapshot⟩

variable {h : StreamHead} {s : StreamId} {tenant : String}

@[simp] theorem ofStream_ofHead : (ofHead h).ofStream s = decide (h.stream = s) :=
  Cell.same_stream _ s

@[simp] theorem ofTenant_ofHead :
    (ofHead h).ofTenant tenant = decide (h.stream.tenant = tenant) := Cell.same_text

theorem revisions_ofHead (hhead : h.head ≤ maxRevision) (hsnapshot : h.snapshot ≤ maxRevision) :
    (ofHead h).revisions = .ok (h.head, h.snapshot) := by
  simp only [revisions, ofHead, wordOf_integer _ hhead, wordOf_integer _ hsnapshot]
  rfl

/-- A head is read back from its row. -/
theorem decode_ofHead (hhead : h.head ≤ maxRevision) (hsnapshot : h.snapshot ≤ maxRevision) :
    (ofHead h).decode = .ok h := by
  rw [decode, revisions_ofHead hhead hsnapshot]
  rfl

end StreamRow

namespace SnapshotRow

/-- The row of a snapshot. -/
def ofSnapshot (layout : Layout) (t : Snapshot) : SnapshotRow :=
  ⟨.text t.stream.tenant, .text t.stream.stream, .integer t.revision,
    .bytes (serialize Payload.codec layout t.payload)⟩

variable {layout : Layout} {t : Snapshot} {s : StreamId} {tenant : String}

@[simp] theorem ofStream_ofSnapshot :
    (ofSnapshot layout t).ofStream s = decide (t.stream = s) :=
  Cell.same_stream _ s

@[simp] theorem ofTenant_ofSnapshot :
    (ofSnapshot layout t).ofTenant tenant = decide (t.stream.tenant = tenant) := Cell.same_text

/-- A snapshot is read back from its row. -/
theorem decode_ofSnapshot (h : t.Storable) : (ofSnapshot layout t).decode t.stream = .ok t := by
  have hpayload : recordOf Payload.codec (serialize Payload.codec layout t.payload)
      = .ok t.payload := recordOf_serialize Payload.faithful_codec h.payload
  simp only [decode, ofSnapshot, Cell.asBytes, wordOf_integer _ h.revision_le, bind, Except.bind,
    hpayload]
  rfl

end SnapshotRow
end EventSourcing
