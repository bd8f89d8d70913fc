import EventSourcing.Proofs.Base64
import EventSourcing.Proofs.Codecs
import EventSourcing.Proofs.Memory
import EventSourcing.Proofs.Messages
import EventSourcing.Wire.Record

/-!
# The wire loses nothing but parts of a second

A commit that is sent as a message, in either layout and with the entries of its maps in any order,
arrives as it was, but for its stamp, which keeps whole seconds (`Wire.lossless`). Snapshots arrive
unchanged. What has arrived can be sent on without further loss, from whatever message it was read:
digits in capitals, records written as arrays, fields that are not known.

This is so if and only if no object in the records begins with `Json.rawKey` (`Commit.Plain`) and
they are no deeper than what is read (`Commit.Shallow`). What was read is plain by itself, since the
reader puts the value that is spelt in the place of such an object; it can be deeper than what is
read again, since the value that is spelt has a bound of its own. The numbers of the records must be
integers (`Commit.Whole`). Lengths of messages are words of 64 bits.
-/

namespace EventSourcing

/-- Two results that are put together are what they should be if each of them is. -/
theorem both_eq_ok_iff {ε α β γ : Type} {x : Except ε α} {y : Except ε β} {f : α → β → γ} {a : α}
    {b : β} (hf : ∀ a' b', f a' b' = f a b → a' = a ∧ b' = b) :
    (do let a ← x; let b ← y; return f a b) = .ok (f a b) ↔ x = .ok a ∧ y = .ok b := by
  constructor
  · intro h
    obtain ⟨a', ha, h⟩ := exists_of_bind h
    obtain ⟨b', hb, h⟩ := exists_of_bind h
    obtain ⟨rfl, rfl⟩ := hf a' b' (Except.ok.inj h)
    exact ⟨ha, hb⟩
  · rintro ⟨rfl, rfl⟩
    rfl

/-! ## What can be sent -/

/-- What holds of the data of an event and of the values of its headers. -/
structure Event.EveryValue (data header : Json → Prop) (e : Event) : Prop where
  data : data e.body.data
  headers : ∀ f ∈ e.headers, header f.2

/-- What holds of the data and of the values of the headers of a commit. -/
structure Commit.EveryValue (data header : Json → Prop) (c : Commit) : Prop where
  headers : ∀ f ∈ c.headers, header f.2
  events : ∀ e ∈ c.events, e.EveryValue data header

instance (data header : Json → Prop) [DecidablePred data] [DecidablePred header] (e : Event) :
    Decidable (e.EveryValue data header) :=
  decidable_of_iff (data e.body.data ∧ ∀ f ∈ e.headers, header f.2)
    ⟨fun ⟨h, h'⟩ => ⟨h, h'⟩, fun h => ⟨h.1, h.2⟩⟩

instance (data header : Json → Prop) [DecidablePred data] [DecidablePred header] (c : Commit) :
    Decidable (c.EveryValue data header) :=
  decidable_of_iff ((∀ f ∈ c.headers, header f.2) ∧ ∀ e ∈ c.events, e.EveryValue data header)
    ⟨fun ⟨h, h'⟩ => ⟨h, h'⟩, fun h => ⟨h.1, h.2⟩⟩

section EveryValue

variable {data data' header header' : Json → Prop} {e : Event} {c : Commit}

theorem Event.everyValue_and :
    e.EveryValue (fun v => data v ∧ data' v) (fun v => header v ∧ header' v) ↔
      e.EveryValue data header ∧ e.EveryValue data' header' :=
  ⟨fun h =>
      ⟨⟨h.data.1, fun f hf => (h.headers f hf).1⟩, ⟨h.data.2, fun f hf => (h.headers f hf).2⟩⟩,
    fun ⟨h, h'⟩ => ⟨⟨h.data, h'.data⟩, fun f hf => ⟨h.headers f hf, h'.headers f hf⟩⟩⟩

theorem Commit.everyValue_and :
    c.EveryValue (fun v => data v ∧ data' v) (fun v => header v ∧ header' v) ↔
      c.EveryValue data header ∧ c.EveryValue data' header' := by
  constructor
  · intro h
    exact ⟨⟨fun f hf => (h.headers f hf).1, fun e he => (Event.everyValue_and.1 (h.events e he)).1⟩,
      ⟨fun f hf => (h.headers f hf).2, fun e he => (Event.everyValue_and.1 (h.events e he)).2⟩⟩
  · rintro ⟨h, h'⟩
    exact ⟨fun f hf => ⟨h.headers f hf, h'.headers f hf⟩,
      fun e he => Event.everyValue_and.2 ⟨h.events e he, h'.events e he⟩⟩

end EveryValue

/-- A commit with numbers of their types, a stamp in the calendar and keys that ascend. -/
structure Commit.Sendable (c : Commit) : Prop where
  revision_le : c.revision ≤ maxRevision
  sequence_le : c.sequence ≤ maxRevision
  minSeconds_le : Stamp.minSeconds ≤ c.stamp.seconds
  le_maxSeconds : c.stamp.seconds ≤ Stamp.maxSeconds
  checkpoint_mem : -9223372036854775808 ≤ c.checkpoint ∧ c.checkpoint < 9223372036854775808
  headers : Fields.Sorted c.headers
  events : ∀ e ∈ c.events, Fields.Sorted e.headers
  regular : c.EveryValue Json.Regular Json.Regular

/-- The numbers of a commit are integers. -/
def Commit.Whole (c : Commit) : Prop := c.EveryValue Json.Whole Json.Whole

/-- No object in a commit begins with `Json.rawKey`. -/
def Commit.Plain (c : Commit) : Prop := c.EveryValue Json.Plain Json.Plain

instance : DecidablePred Commit.Plain := fun c =>
  inferInstanceAs (Decidable (c.EveryValue Json.Plain Json.Plain))

/-- The records of a commit are no deeper than what is read. The object around data is one more
level. -/
def Commit.Shallow (c : Commit) : Prop :=
  c.EveryValue (·.depth < Json.maxDepth) (·.depth ≤ Json.maxDepth)

instance : DecidablePred Commit.Shallow := fun c =>
  inferInstanceAs (Decidable (c.EveryValue (·.depth < Json.maxDepth) (·.depth ≤ Json.maxDepth)))

structure Snapshot.Sendable (s : Snapshot) : Prop where
  revision_le : s.revision ≤ maxRevision
  payload : s.payload.data.Regular

theorem Payload.readable_write {p : Payload} :
    (codec.write p).Readable ↔ p.data.Plain ∧ p.data.depth < Json.maxDepth :=
  and_congr plain_write (by rw [depth_write]; exact Iff.rfl)

namespace Wire

/-! ## Records -/

section Records

variable {α : Type} {codec : Codec α} {field text : String} {x : α} {layout : Layout} {fs : Fields}
  {m : TextMap}

/-- A record is read back from its text if its value is readable. -/
theorem decodeRecord_encodeRecord_iff (hcodec : codec.Faithful) (h : (codec.write x).Canonical) :
    decodeRecord codec field (encodeRecord codec layout x) = .ok x ↔ (codec.write x).Readable := by
  rw [decodeRecord, encodeRecord, Base64.ofString_text Base64.encode_lt, Base64.decode_encode,
    ← deserialize_serialize_iff hcodec h]
  exact ⟨of_mapError, fun hread => by simp only [hread]; rfl⟩

/-- A record that was read was read from a value that was read. -/
theorem exists_of_decodeRecord (h : decodeRecord codec field text = .ok x) :
    ∃ v : Json, v.Sound ∧ codec.read? v = some x := by
  rw [decodeRecord] at h
  split at h
  · cases h
  · obtain ⟨cs, v, -, hv, hx⟩ := exists_of_deserialize (of_mapError h)
    exact ⟨v, Json.read_sound hv, hx⟩

/-- Headers are read back from their texts if their values are readable. -/
theorem decodeHeaders_encodeHeaders_iff (h : ∀ f ∈ fs, f.2.Canonical) :
    decodeHeaders (encodeHeaders layout fs) = .ok fs ↔ ∀ f ∈ fs, f.2.Readable := by
  induction fs with
  | nil => exact iff_of_true rfl nofun
  | cons f fs ih =>
    obtain ⟨hf, hfs⟩ := List.forall_mem_cons.1 h
    have hcons : ∀ (v : Json) (gs : Fields), (f.1, v) :: gs = (f.1, f.2) :: fs →
        v = f.2 ∧ gs = fs := by
      rintro v gs ⟨⟩
      exact ⟨rfl, rfl⟩
    have hvalue : decodeRecord Json.codec f.1 (encodeRecord Json.codec layout f.2) = .ok f.2 ↔
        f.2.Readable := decodeRecord_encodeRecord_iff Json.faithful_codec hf
    rw [List.forall_mem_cons, ← hvalue, ← ih hfs]
    exact both_eq_ok_iff hcons

/-- Headers that were read have the keys of their texts, and regular and plain values. -/
theorem of_decodeHeaders (h : decodeHeaders m = .ok fs) :
    fs.map (·.1) = m.map (·.1) ∧ ∀ f ∈ fs, f.2.Regular ∧ f.2.Plain := by
  induction m generalizing fs with
  | nil =>
    cases h
    exact ⟨rfl, fun f hf => absurd hf List.not_mem_nil⟩
  | cons e m ih =>
    obtain ⟨x, hx, h⟩ := exists_of_bind h
    obtain ⟨gs, hgs, h⟩ := exists_of_bind h
    cases h
    obtain ⟨hkeys, hvalues⟩ := ih hgs
    obtain ⟨v, hv, hsettle⟩ := exists_of_decodeRecord hx
    obtain ⟨rfl, hplain⟩ := Json.settle_of_settled hv.settled hsettle
    exact ⟨congrArg (e.1 :: ·) hkeys, List.forall_mem_cons.2 ⟨⟨hv.regular, hplain⟩, hvalues⟩⟩

theorem sorted_of_decodeHeaders (hm : Protobuf.Ascending m) (h : decodeHeaders m = .ok fs) :
    Fields.Sorted fs := by
  have hsorted : (m.map (·.1)).Pairwise (· < ·) := List.pairwise_map.2 hm
  rw [← (of_decodeHeaders h).1] at hsorted
  exact List.pairwise_map.1 hsorted

/-- Texts have the keys of their headers. -/
theorem ascending_encodeHeaders (h : Fields.Sorted fs) :
    Protobuf.Ascending (encodeHeaders layout fs) := List.pairwise_map.2 h

end Records

/-! ## Messages -/

namespace EventMessage

variable {e : Event}

theorem toEvent_ofEvent_iff (h : e.EveryValue Json.Canonical Json.Canonical) (layout : Layout) :
    (ofEvent layout e).toEvent = .ok e ↔
      e.EveryValue (fun v => v.Plain ∧ v.depth < Json.maxDepth) Json.Readable := by
  have hevent : ∀ (body : Payload) (headers : Fields),
      Event.mk body headers = ⟨e.body, e.headers⟩ → body = e.body ∧ headers = e.headers := by
    rintro body headers ⟨⟩
    exact ⟨rfl, rfl⟩
  have hbody : decodeRecord Payload.codec "body" (encodeRecord Payload.codec layout e.body)
      = .ok e.body ↔ e.body.data.Plain ∧ e.body.data.depth < Json.maxDepth := by
    rw [← Payload.readable_write]
    exact decodeRecord_encodeRecord_iff Payload.faithful_codec (Payload.canonical_write h.data)
  refine (both_eq_ok_iff hevent).trans ((and_congr hbody
    (decodeHeaders_encodeHeaders_iff h.headers)).trans ?_)
  exact ⟨fun hread => ⟨hread.1, hread.2⟩, fun hread => ⟨hread.data, hread.headers⟩⟩

theorem of_toEvent {m : EventMessage} (h : m.toEvent = .ok e) :
    e.EveryValue (fun v => v.Regular ∧ v.Plain) (fun v => v.Regular ∧ v.Plain) ∧
      decodeHeaders m.headers = .ok e.headers := by
  obtain ⟨body, hbody, h⟩ := exists_of_bind h
  obtain ⟨headers, hheaders, h⟩ := exists_of_bind h
  cases h
  obtain ⟨v, hv, hread⟩ := exists_of_decodeRecord hbody
  exact ⟨⟨Payload.of_ofJson? hv hread, (of_decodeHeaders hheaders).2⟩, hheaders⟩

end EventMessage

namespace CommitMessage

variable {c : Commit} {m : CommitMessage} {layout : Layout}

theorem toEvents_ofEvent_iff {es : List Event}
    (h : ∀ e ∈ es, e.EveryValue Json.Canonical Json.Canonical) :
    toEvents (es.map (EventMessage.ofEvent layout)) = .ok es ↔
      ∀ e ∈ es, e.EveryValue (fun v => v.Plain ∧ v.depth < Json.maxDepth) Json.Readable := by
  induction es with
  | nil => exact iff_of_true rfl nofun
  | cons e es ih =>
    obtain ⟨he, hes⟩ := List.forall_mem_cons.1 h
    rw [List.forall_mem_cons, ← EventMessage.toEvent_ofEvent_iff he layout, ← ih hes]
    exact both_eq_ok_iff fun _ _ => List.cons.inj

theorem of_toEvents {ms : List EventMessage} {es : List Event}
    (hms : ∀ m ∈ ms, Protobuf.Ascending m.headers) (h : toEvents ms = .ok es) :
    ∀ e ∈ es, e.EveryValue (fun v => v.Regular ∧ v.Plain) (fun v => v.Regular ∧ v.Plain) ∧
      Fields.Sorted e.headers := by
  induction ms generalizing es with
  | nil =>
    cases h
    exact fun e he => absurd he List.not_mem_nil
  | cons m ms ih =>
    obtain ⟨hm, hms⟩ := List.forall_mem_cons.1 hms
    obtain ⟨e, he, h⟩ := exists_of_bind h
    obtain ⟨fs, hfs, h⟩ := exists_of_bind h
    cases h
    obtain ⟨hvalues, hheaders⟩ := EventMessage.of_toEvent he
    exact List.forall_mem_cons.2 ⟨⟨hvalues, sorted_of_decodeHeaders hm hheaders⟩, ih hms hfs⟩

/-- The message of a commit has the numbers and the keys of the commit. -/
theorem fits_ofCommit (h : c.Sendable) : (ofCommit layout c).Fits where
  revision_le := h.revision_le
  sequence_le := h.sequence_le
  stamp_mem := by
    have hmin : -8334601228800 ≤ c.stamp.seconds := h.minSeconds_le
    have hmax : c.stamp.seconds ≤ 8210266876799 := h.le_maxSeconds
    show -9223372036854775808 ≤ c.stamp.seconds ∧ c.stamp.seconds < 9223372036854775808
    omega
  checkpoint_mem := h.checkpoint_mem
  headers := ascending_encodeHeaders h.headers
  events e he := by
    obtain ⟨f, hf, rfl⟩ := List.mem_map.1 he
    exact ascending_encodeHeaders (h.events f hf)

/-- The commit of its message has whole seconds, and is nothing else if its records are plain and
no deeper than what is read. -/
theorem toCommit_ofCommit_iff (h : c.Sendable) (hw : c.Whole) :
    (ofCommit layout c).toCommit = .ok { c with stamp := c.stamp.floorSeconds } ↔
      c.Plain ∧ c.Shallow := by
  have hid : Hex.decode (Utf8.ofString c.id.digits) = .ok c.id.bytes := by
    rw [Utf8.ofString, CommitId.digits, String.toList_ofList, Hex.decode_encode]
  have hstamp : Stamp.ofSeconds? c.stamp.seconds = some c.stamp.floorSeconds :=
    if_pos ⟨h.minSeconds_le, h.le_maxSeconds⟩
  have hcanonical : c.EveryValue Json.Canonical Json.Canonical :=
    ⟨fun f hf => (h.regular.headers f hf).canonical (hw.headers f hf), fun e he =>
      ⟨(h.regular.events e he).data.canonical (hw.events e he).data, fun f hf =>
        ((h.regular.events e he).headers f hf).canonical ((hw.events e he).headers f hf)⟩⟩
  have hevents : toEvents (c.events.map (EventMessage.ofEvent layout)) = .ok c.events ↔ _ :=
    toEvents_ofEvent_iff hcanonical.events
  have hheaders : decodeHeaders (encodeHeaders layout c.headers) = .ok c.headers ↔ _ :=
    decodeHeaders_encodeHeaders_iff hcanonical.headers
  have hcommit : ∀ (events : List Event) (headers : Fields),
      { c with stamp := c.stamp.floorSeconds, headers := headers, events := events }
        = { c with stamp := c.stamp.floorSeconds } → events = c.events ∧ headers = c.headers := by
    rintro events headers he
    exact ⟨congrArg (·.events) he, congrArg (·.headers) he⟩
  simp only [toCommit, ofCommit, hid, hstamp, CommitId.ofBytes?_bytes, pure_bind]
  refine (both_eq_ok_iff hcommit).trans ((and_congr hevents hheaders).trans ?_)
  rw [Commit.Plain, Commit.Shallow, ← Commit.everyValue_and]
  exact ⟨fun hread => ⟨hread.2, hread.1⟩, fun hread => ⟨hread.events, hread.headers⟩⟩

/-- What a message has, if it is read as a commit. -/
theorem toCommit_cases (h : m.toCommit = .ok c) :
    Stamp.ofSeconds? m.stamp = some c.stamp ∧ toEvents m.events = .ok c.events ∧
      decodeHeaders m.headers = .ok c.headers ∧ c.revision = m.revision ∧
      c.sequence = m.sequence ∧ c.checkpoint = m.checkpoint := by
  rw [toCommit] at h
  cases hbytes : Hex.decode (Utf8.ofString m.id) with
  | error e =>
    rw [hbytes] at h
    cases h
  | ok bytes =>
    cases hstamp : Stamp.ofSeconds? m.stamp with
    | none =>
      simp only [hbytes, hstamp] at h
      cases h
    | some stamp =>
      simp only [hbytes, hstamp, pure_bind] at h
      obtain ⟨events, hevents, h⟩ := exists_of_bind h
      cases hid : CommitId.ofBytes? bytes with
      | none =>
        rw [hid] at h
        cases h
      | some id =>
        simp only [hid] at h
        obtain ⟨headers, hheaders, h⟩ := exists_of_bind h
        cases h
        exact ⟨rfl, hevents, hheaders, rfl, rfl, rfl⟩

/-- The commit of a message can be sent and is plain, and its stamp has whole seconds. -/
theorem of_toCommit (hm : m.Fits) (h : m.toCommit = .ok c) :
    c.Sendable ∧ c.Plain ∧ c.stamp.floorSeconds = c.stamp := by
  obtain ⟨hstamp, hevents, hheaders, hrevision, hsequence, hcheckpoint⟩ := toCommit_cases h
  obtain ⟨⟨hmin, hmax⟩, hstamp⟩ : (Stamp.minSeconds ≤ m.stamp ∧ m.stamp ≤ Stamp.maxSeconds) ∧
      some (Stamp.ofSeconds m.stamp 0) = some c.stamp := by
    rw [Stamp.ofSeconds?] at hstamp
    split at hstamp
    · exact ⟨‹_›, hstamp⟩
    · cases hstamp
  have hseconds : c.stamp.seconds = m.stamp := by
    rw [← Option.some.inj hstamp]
    exact Stamp.seconds_ofSeconds (by decide)
  have hreadEvents := of_toEvents hm.events hevents
  have hvalues : c.EveryValue (fun v => v.Regular ∧ v.Plain) (fun v => v.Regular ∧ v.Plain) :=
    ⟨(of_decodeHeaders hheaders).2, fun e he => (hreadEvents e he).1⟩
  obtain ⟨hregular, hplain⟩ := Commit.everyValue_and.1 hvalues
  refine ⟨?_, hplain, ?_⟩
  · exact {
      revision_le := hrevision ▸ hm.revision_le
      sequence_le := hsequence ▸ hm.sequence_le
      minSeconds_le := hseconds ▸ hmin
      le_maxSeconds := hseconds ▸ hmax
      checkpoint_mem := hcheckpoint ▸ hm.checkpoint_mem
      headers := sorted_of_decodeHeaders hm.headers hheaders
      events := fun e he => (hreadEvents e he).2
      regular := hregular }
  · rw [Stamp.floorSeconds, hseconds]
    exact Option.some.inj hstamp

/-- A commit arrives with whole seconds if its records are plain and no deeper than what is read. -/
theorem decode_ofCommit_iff (h : c.Sendable) (hw : c.Whole) {bs : Bytes}
    (hbs : (ofCommit layout c).Writes bs) (hlt : bs.length < 18446744073709551616) :
    (decode? bs).map toCommit = some (.ok { c with stamp := c.stamp.floorSeconds }) ↔
      c.Plain ∧ c.Shallow := by
  rw [decode?_of_writes (fits_ofCommit h) hbs hlt, Option.map_some, Option.some_inj,
    toCommit_ofCommit_iff h hw]

end CommitMessage

namespace SnapshotMessage

variable {s : Snapshot} {layout : Layout}

/-- The message of a snapshot is read as that snapshot if its data is plain and no deeper than what
is read. -/
theorem toSnapshot_ofSnapshot_iff (h : s.Sendable) (hw : s.payload.data.Whole) :
    (ofSnapshot layout s).toSnapshot = .ok s ↔
      s.payload.data.Plain ∧ s.payload.data.depth < Json.maxDepth := by
  have hpayload : decodeRecord Payload.codec "payload" (encodeRecord Payload.codec layout s.payload)
      = .ok s.payload ↔ _ := decodeRecord_encodeRecord_iff Payload.faithful_codec
    (Payload.canonical_write (h.payload.canonical hw))
  rw [← Payload.readable_write, ← hpayload]
  constructor
  · intro hread
    obtain ⟨payload, hpayload, he⟩ := exists_of_bind hread
    obtain rfl : payload = s.payload := congrArg (·.payload) (Except.ok.inj he)
    exact hpayload
  · intro hread
    rw [toSnapshot, ofSnapshot, hread]
    rfl

/-- A snapshot arrives unchanged if its data is plain and no deeper than what is read. -/
theorem decode_ofSnapshot_iff (h : s.Sendable) (hw : s.payload.data.Whole)
    (hlt : (ofSnapshot layout s).encode.length < 18446744073709551616) :
    (decode? (ofSnapshot layout s).encode).map toSnapshot = some (.ok s) ↔
      s.payload.data.Plain ∧ s.payload.data.depth < Json.maxDepth := by
  rw [decode?_encode (m := ofSnapshot layout s) h.revision_le hlt, Option.map_some, Option.some_inj,
    toSnapshot_ofSnapshot_iff h hw]

end SnapshotMessage

/-- **The wire loses nothing but parts of a second.**  In either layout, and in whatever order the
entries of maps are written, the bytes of a commit are read as that commit with its stamp at whole
seconds, and those of a snapshot as that snapshot, if and only if no object in their records begins
with `Json.rawKey` and the records are no deeper than what is read. An attempt is the same message
as the commit that it becomes at checkpoint zero. A commit that was read from any message is read
again from the bytes of its own message, if and only if its records are no deeper than what is read.
-/
theorem lossless (layout : Layout) :
    (∀ c : Commit, c.Sendable → c.Whole → ∀ bs, (CommitMessage.ofCommit layout c).Writes bs →
      bs.length < 18446744073709551616 →
        ((CommitMessage.decode? bs).map CommitMessage.toCommit
          = some (.ok { c with stamp := c.stamp.floorSeconds }) ↔ c.Plain ∧ c.Shallow)) ∧
    (∀ s : Snapshot, s.Sendable → s.payload.data.Whole →
      (SnapshotMessage.ofSnapshot layout s).encode.length < 18446744073709551616 →
        ((SnapshotMessage.decode? (SnapshotMessage.ofSnapshot layout s).encode).map
          SnapshotMessage.toSnapshot = some (.ok s) ↔
            s.payload.data.Plain ∧ s.payload.data.depth < Json.maxDepth)) ∧
    (∀ a : Attempt, CommitMessage.ofAttempt layout a
      = CommitMessage.ofCommit layout (a.confirm 0)) ∧
    ∀ (m : CommitMessage) (c : Commit), m.Fits → m.toCommit = .ok c → c.Whole →
      ∀ bs, (CommitMessage.ofCommit layout c).Writes bs → bs.length < 18446744073709551616 →
        ((CommitMessage.decode? bs).map CommitMessage.toCommit = some (.ok c) ↔ c.Shallow) := by
  refine ⟨fun c h hw bs hbs hlt => CommitMessage.decode_ofCommit_iff h hw hbs hlt,
    fun s h hw hlt => SnapshotMessage.decode_ofSnapshot_iff h hw hlt,
    fun a => (CommitMessage.ofCommit_confirm_zero layout a).symm, ?_⟩
  intro m c hm hc hw bs hbs hlt
  obtain ⟨hsendable, hplain, hstamp⟩ := CommitMessage.of_toCommit hm hc
  have hiff := CommitMessage.decode_ofCommit_iff hsendable hw hbs hlt
  rwa [hstamp, and_iff_right hplain] at hiff

/-- A commit of one and a half seconds before 1970, with headers and a checkpoint below zero. -/
def sampleCommit : Commit :=
  { (Memory.sampleAttempt "a" 1 2 2 7).confirm (-1) with
    stamp := ⟨-1500000000⟩
    headers := [("by", .array [.int 18446744073709551615]), ("to", .null)] }

/-- A message that its own commit is not written as: the id has capital digits, one event is an
array, and the other one has a field that is not known. -/
def foreignMessage : CommitMessage where
  tenant := "tenant"
  stream := "a"
  revision := 2
  id := "000000000000000000000000000000AB"
  sequence := 1
  events :=
    [{ body := "WyJldmVudCIsLTFd" }, { body := "eyJkYXRhIjoyLCJraW5kIjoiZXZlbnQiLCJ4IjowfQ==" }]

/-- The commit of `foreignMessage`. -/
def foreignCommit : Commit :=
  { (Memory.sampleAttempt "a" 1 2 0 171).confirm 0 with
    events := [⟨⟨"event", .int (-1)⟩, []⟩, ⟨⟨"event", .int 2⟩, []⟩] }

theorem lossless_sampleCommit :
    sampleCommit.Sendable ∧ sampleCommit.Whole ∧ sampleCommit.Plain ∧ sampleCommit.Shallow ∧
      (CommitMessage.decode? (CommitMessage.ofCommit .indented sampleCommit).encode).map
        CommitMessage.toCommit = some (.ok { sampleCommit with stamp := ⟨-2000000000⟩ }) ∧
      (SnapshotMessage.decode? (SnapshotMessage.ofSnapshot .compact
        ⟨⟨"tenant", "a"⟩, 2, ⟨"state", .null⟩⟩).encode).map SnapshotMessage.toSnapshot
        = some (.ok ⟨⟨"tenant", "a"⟩, 2, ⟨"state", .null⟩⟩) ∧
      foreignMessage.Fits ∧ foreignMessage.toCommit = .ok foreignCommit ∧
      CommitMessage.ofCommit .compact foreignCommit ≠ foreignMessage ∧
      (CommitMessage.decode? (CommitMessage.ofCommit .compact foreignCommit).encode).map
        CommitMessage.toCommit = some (.ok foreignCommit) := by
  have hregular : sampleCommit.EveryValue Json.Regular Json.Regular :=
    ⟨List.forall_mem_cons.2 ⟨⟨rfl, trivial⟩, List.forall_mem_singleton.2 trivial⟩,
      List.forall_mem_cons.2 ⟨⟨rfl, nofun⟩, List.forall_mem_singleton.2 ⟨rfl, nofun⟩⟩⟩
  have hsendable : sampleCommit.Sendable :=
    ⟨by decide, by decide, by decide, by decide, by decide,
      List.pairwise_pair.2 (show "by" < "to" by decide),
      List.forall_mem_cons.2 ⟨List.Pairwise.nil, List.forall_mem_singleton.2 List.Pairwise.nil⟩,
      hregular⟩
  have hwhole : sampleCommit.Whole :=
    ⟨List.forall_mem_cons.2 ⟨⟨trivial, trivial⟩, List.forall_mem_singleton.2 trivial⟩,
      List.forall_mem_cons.2 ⟨⟨trivial, nofun⟩, List.forall_mem_singleton.2 ⟨trivial, nofun⟩⟩⟩
  have hplain : sampleCommit.Plain := by decide
  have hshallow : sampleCommit.Shallow := by decide
  have hfits : foreignMessage.Fits :=
    ⟨by decide, by decide, by decide, by decide, List.Pairwise.nil,
      List.forall_mem_cons.2 ⟨List.Pairwise.nil, List.forall_mem_singleton.2 List.Pairwise.nil⟩⟩
  have hread : foreignMessage.toCommit = .ok foreignCommit := by decide +kernel
  have hforeign : foreignCommit.Whole :=
    ⟨nofun, List.forall_mem_cons.2 ⟨⟨trivial, nofun⟩, List.forall_mem_singleton.2 ⟨trivial, nofun⟩⟩⟩
  obtain ⟨hcommit, -, -, -⟩ := lossless .indented
  obtain ⟨-, hsnapshot, -, hagain⟩ := lossless .compact
  exact ⟨hsendable, hwhole, hplain, hshallow,
    (hcommit _ hsendable hwhole _ (CommitMessage.writes_encode _) (by decide +kernel)).2
      ⟨hplain, hshallow⟩,
    (hsnapshot ⟨⟨"tenant", "a"⟩, 2, ⟨"state", .null⟩⟩ ⟨by decide, trivial⟩ trivial
      (by decide +kernel)).2 ⟨by decide, by decide⟩,
    hfits, hread, by decide +kernel,
    (hagain _ _ hfits hread hforeign _ (CommitMessage.writes_encode _) (by decide +kernel)).2
      (by decide)⟩

/-- The commit of one event whose data is taken for the value that a text spells. -/
def rawCommit (text : String) : Commit :=
  { (Memory.sampleAttempt "a" 1 1 1 1).confirm 0 with events := [⟨⟨"event", .raw text⟩, []⟩] }

/-- The data of an event arrives as the number that its string spells, although it is one object
deep, and an event whose string spells no value does not arrive. -/
theorem raw_not_carried :
    (rawCommit "1").Shallow ∧
      (CommitMessage.decode? (CommitMessage.ofCommit .compact (rawCommit "1")).encode).map
        CommitMessage.toCommit
        = some (.ok { rawCommit "1" with events := [⟨⟨"event", .int 1⟩, []⟩] }) ∧
      { rawCommit "1" with events := [⟨⟨"event", .int 1⟩, []⟩] } ≠ rawCommit "1" ∧
      (CommitMessage.decode? (CommitMessage.ofCommit .compact (rawCommit "x")).encode).map
        CommitMessage.toCommit = some (.error (.serialization .mistyped)) :=
  ⟨by decide, by decide +kernel, by decide, by decide +kernel⟩

end Wire
end EventSourcing
