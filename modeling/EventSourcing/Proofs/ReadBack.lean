import EventSourcing.Proofs.Memory
import EventSourcing.Proofs.Paging

/-!
# Whether what is accepted can be read back

A store in tables writes records of any depth and with any keys, but reads back only what is no
deeper than `Json.maxDepth` and has no object that begins with `Json.rawKey`
(`Attempt.Readable`). Right after a commit was accepted its row is the only one after the checkpoint
before it, the only one of its stream at its revisions and the only one of its id. So the reads that
ask for these, and a second attempt under the id, meet this one row: they give the commit if its
headers and its list of events are readable, and are refused or give another commit if not
(`Database.read_back_iff`). The same is true of a snapshot at its revision.

Nothing is assumed of the records that are in the tables already, which may be unreadable
themselves; the rows are only known to have been written for some commits and snapshots
(`Tables.Written`).
-/

namespace EventSourcing

/-- A record is read back from its bytes, or refused or another one is read, by its value. -/
theorem recordOf_cases {α : Type} {codec : Codec α} (layout : Layout) (x : α)
    (hcodec : codec.Faithful) (h : (codec.write x).Canonical) :
    ((codec.write x).Readable ∧ recordOf codec (serialize codec layout x) = .ok x) ∨
      (¬ (codec.write x).Readable ∧ recordOf codec (serialize codec layout x) ≠ .ok x) := by
  by_cases hx : (codec.write x).Readable
  · exact .inl ⟨hx, recordOf_serialize hcodec ⟨h, hx⟩⟩
  · exact .inr ⟨hx, fun hread => hx ((deserialize_serialize_iff hcodec h).1 (of_mapError hread))⟩

/-- An attempt that rows can be written for: the revision is a word, the stamp is in the calendar,
and the numbers of its records are integers that are kept exactly. -/
structure Attempt.Writable (a : Attempt) : Prop where
  revision_le : a.revision ≤ maxRevision
  minSeconds_le : Stamp.minSeconds ≤ a.stamp.seconds
  le_maxSeconds : a.stamp.seconds ≤ Stamp.maxSeconds
  headers : (headersCodec.write a.headers).Canonical
  events : (Event.listCodec.write a.events).Canonical

/-- The records of an attempt are plain and no deeper than what is read. -/
def Attempt.Readable (a : Attempt) : Prop :=
  (headersCodec.write a.headers).Readable ∧ (Event.listCodec.write a.events).Readable

instance (a : Attempt) : Decidable a.Readable :=
  inferInstanceAs (Decidable ((headersCodec.write a.headers).Readable ∧
    (Event.listCodec.write a.events).Readable))

/-- A snapshot that rows can be written for. -/
structure Snapshot.Writable (s : Snapshot) : Prop where
  revision_le : s.revision ≤ maxRevision
  payload : (Payload.codec.write s.payload).Canonical

/-- The payload of a snapshot is plain and no deeper than what is read. -/
def Snapshot.Readable (s : Snapshot) : Prop := (Payload.codec.write s.payload).Readable

instance (s : Snapshot) : Decidable s.Readable :=
  inferInstanceAs (Decidable (Payload.codec.write s.payload).Readable)

/-- The row of a commit is read up to its records. -/
theorem CommitRow.decode_ofCommit_eq (layout : Layout) {a : Attempt} (h : a.Writable)
    (hs : a.sequence ≤ maxRevision) (checkpoint : Int) :
    (ofCommit layout (a.floored.confirm checkpoint)).decode
      = (recordOf headersCodec (serialize headersCodec layout a.headers)).bind fun headers =>
        (recordOf Event.listCodec (serialize Event.listCodec layout a.events)).bind fun events =>
          .ok { a.floored.confirm checkpoint with headers := headers, events := events } := by
  simp only [decode, ofCommit, Attempt.confirm, Attempt.floored, idOf_digits,
    stampOf_micros h.minSeconds_le h.le_maxSeconds, Cell.asBytes, Cell.asText,
    wordOf_integer _ h.revision_le, wordOf_integer _ hs, bind, Except.bind]
  rfl

/-- The records are all that a row can be refused for. -/
theorem CommitRow.eq_serialization_of_decode (layout : Layout) {a : Attempt} (h : a.Writable)
    (hs : a.sequence ≤ maxRevision) (checkpoint : Int) {e : Fault}
    (he : (ofCommit layout (a.floored.confirm checkpoint)).decode = .error e) :
    ∃ cause, e = .serialization cause := by
  have hrecord {α : Type} {codec : Codec α} {bs : Bytes} {e : Fault}
      (h : recordOf codec bs = .error e) : ∃ cause, e = .serialization cause := by
    unfold recordOf at h
    cases hread : deserialize codec bs with
    | error cause =>
      rw [hread] at h
      cases h
      exact ⟨cause, rfl⟩
    | ok x =>
      rw [hread] at h
      cases h
  rw [decode_ofCommit_eq layout h hs] at he
  cases hh : recordOf headersCodec (serialize headersCodec layout a.headers) with
  | error e =>
    rw [hh] at he
    cases he
    exact hrecord hh
  | ok headers =>
    cases hes : recordOf Event.listCodec (serialize Event.listCodec layout a.events) with
    | error e =>
      rw [hh, hes] at he
      cases he
      exact hrecord hes
    | ok events =>
      rw [hh, hes] at he
      cases he

/-- What a row is read as has the place of the commit that it was written for. -/
theorem CommitRow.commitKey_decode (layout : Layout) {a : Attempt} (h : a.Writable)
    (hs : a.sequence ≤ maxRevision) (checkpoint : Int) (q : Query) {d : Commit}
    (hd : (ofCommit layout (a.floored.confirm checkpoint)).decode = .ok d) :
    q.commitKey d = q.commitKey (a.floored.confirm checkpoint) := by
  rw [decode_ofCommit_eq layout h hs] at hd
  obtain ⟨headers, -, hd⟩ := exists_of_bind hd
  obtain ⟨events, -, hd⟩ := exists_of_bind hd
  cases hd
  cases q <;> rfl

/-- The row of a commit is read back, or not, by its records. -/
theorem CommitRow.decode_cases (layout : Layout) {a : Attempt} (h : a.Writable)
    (hs : a.sequence ≤ maxRevision) (checkpoint : Int) :
    (a.Readable ∧ (ofCommit layout (a.floored.confirm checkpoint)).decode
      = .ok (a.floored.confirm checkpoint)) ∨
    (¬ a.Readable ∧ (ofCommit layout (a.floored.confirm checkpoint)).decode
      ≠ .ok (a.floored.confirm checkpoint)) := by
  rw [decode_ofCommit_eq layout h hs]
  obtain ⟨hheaders, hh⟩ | ⟨hheaders, hh⟩ :=
    recordOf_cases layout a.headers headersCodec_faithful h.headers
  · obtain ⟨hevents, he⟩ | ⟨hevents, he⟩ :=
      recordOf_cases layout a.events Event.faithful_listCodec h.events
    · refine .inl ⟨⟨hheaders, hevents⟩, ?_⟩
      rw [hh, he]
      rfl
    · refine .inr ⟨fun hread => hevents hread.2, fun hread => ?_⟩
      obtain ⟨headers, -, hread⟩ := exists_of_bind hread
      obtain ⟨events, hes, hread⟩ := exists_of_bind hread
      exact he (hes.trans (congrArg _ (congrArg (·.events) (Except.ok.inj hread))))
  · refine .inr ⟨fun hread => hheaders hread.1, fun hread => ?_⟩
    obtain ⟨headers, hhs, hread⟩ := exists_of_bind hread
    obtain ⟨events, -, hread⟩ := exists_of_bind hread
    exact hh (hhs.trans (congrArg _ (congrArg (·.headers) (Except.ok.inj hread))))

/-- The row of a snapshot is read back, or not, by its payload. -/
theorem SnapshotRow.decode_cases (layout : Layout) {s : Snapshot} (h : s.Writable) :
    (s.Readable ∧ (ofSnapshot layout s).decode s.stream = .ok s) ∨
    (¬ s.Readable ∧ (ofSnapshot layout s).decode s.stream ≠ .ok s) := by
  have hdecode : (ofSnapshot layout s).decode s.stream
      = (recordOf Payload.codec (serialize Payload.codec layout s.payload)).bind fun payload =>
        .ok ⟨s.stream, s.revision, payload⟩ := by
    simp only [decode, ofSnapshot, Cell.asBytes, wordOf_integer _ h.revision_le, bind, Except.bind]
    rfl
  rw [hdecode]
  obtain ⟨hpayload, hp⟩ | ⟨hpayload, hp⟩ :=
    recordOf_cases layout s.payload Payload.faithful_codec h.payload
  · refine .inl ⟨hpayload, ?_⟩
    show (recordOf Payload.codec (serialize Payload.codec layout s.payload)).bind _ = _
    rw [hp]
    rfl
  · refine .inr ⟨hpayload, fun hread => ?_⟩
    obtain ⟨payload, hps, hread⟩ := exists_of_bind hread
    exact hp (hps.trans (congrArg _ (congrArg Snapshot.payload (Except.ok.inj hread))))

section Reading

variable {q : Query} {size : Nat} {rows : List CommitRow} {layout : Layout} {c : Commit}

theorem rowsAfter_one (hrows : rows.filter q.selects = [CommitRow.ofCommit layout c]) :
    q.rowsAfter none rows = [CommitRow.ofCommit layout c] ∧
      q.rowsAfter (some (q.commitKey c)) rows = [] := by
  constructor
  · rw [Query.rowsAfter]
    simp only [Bool.and_true]
    rw [hrows, List.mergeSort_singleton]
  · have hself : (q.commitKey c).before (q.commitKey c) = false := by
      rw [Query.commitKey_before, decide_eq_false (lt_irrefl _)]
    have hnone :
        (rows.filter fun r => q.selects r && (q.commitKey c).before (q.rowKey r)) = [] := by
      rw [List.filter_congr fun r _ => Bool.and_comm .., ← List.filter_filter, hrows,
        List.filter_cons_of_neg (by rw [Query.rowKey_ofCommit, hself]; decide), List.filter_nil]
    rw [Query.rowsAfter]
    simp only
    rw [hnone, List.mergeSort_nil]

/-- If one row answers a query, what it is read as is all that is read. -/
theorem readRows_one (hrows : rows.filter q.selects = [CommitRow.ofCommit layout c])
    (hsize : 1 ≤ size) (hmax : size ≤ maxPage)
    (hkey : ∀ d, (CommitRow.ofCommit layout c).decode = .ok d → q.commitKey d = q.commitKey c) :
    readRows q size rows = [(CommitRow.ofCommit layout c).decode] := by
  obtain ⟨hfirst, hnext⟩ := rowsAfter_one hrows
  rw [readRows, if_neg (Nat.not_lt.2 hmax)]
  cases hdecode : (CommitRow.ofCommit layout c).decode with
  | error e =>
    have hpage : fetchPage q size none rows = .error e := by
      rw [fetchPage, hfirst, List.take_of_length_le hsize, decodeRows, hdecode]
      rfl
    rw [readFrom, hpage]
  | ok d =>
    obtain ⟨n, hn⟩ : ∃ n, rows.length + 1 = n + 1 + 1 := by
      cases rows with
      | nil => cases hrows
      | cons r rows => exact ⟨rows.length, rfl⟩
    have hdecodes : decodeRows [CommitRow.ofCommit layout c] = .ok [d] := by
      rw [decodeRows, hdecode]
      rfl
    have hpage : fetchPage q size none rows
        = .ok ⟨[d], if 1 < size then none else some (q.commitKey c)⟩ := by
      rw [fetchPage, hfirst, List.take_of_length_le hsize, hdecodes, ← hkey d hdecode]
      rfl
    have hpage' : fetchPage q size (some (q.commitKey c)) rows = .ok ⟨[], none⟩ := by
      rw [fetchPage, hnext, List.take_nil]
      show Except.ok (Page.mk [] (if 0 < size then none else none)) = _
      rw [if_pos (Nat.lt_of_lt_of_le Nat.zero_lt_one hsize)]
    have hend : readFrom q size rows (n + 1) (some (q.commitKey c)) = [] := by
      rw [readFrom, hpage']
      rfl
    rw [hn, readFrom, hpage]
    by_cases hshort : 1 < size
    · simp only [if_pos hshort, List.append_nil]
      rfl
    · simp only [if_neg hshort, hend, List.append_nil]
      rfl

end Reading

namespace Tables

variable {t t' : Tables} {layout : Layout} {a : Attempt} {c : Commit}

theorem exists_integers {cells : List Cell} (h : ∀ c ∈ cells, ∃ n : Int, c = .integer n) :
    ∃ ns : List Int, cells = ns.map .integer := by
  induction cells with
  | nil => exact ⟨[], rfl⟩
  | cons c cells ih =>
    obtain ⟨⟨n, rfl⟩, hcells⟩ := List.forall_mem_cons.1 h
    obtain ⟨ns, rfl⟩ := ih hcells
    exact ⟨n :: ns, rfl⟩

/-- None of some integers is greater than the greatest of them. -/
theorem le_greatest (ns : List Int) :
    ∃ m, greatest (ns.map .integer) = .integer m ∧ ∀ n ∈ ns, n ≤ m := by
  have hfold (ns : List Int) (k : Int) : ∃ m,
      (ns.map .integer).foldl Cell.later (.integer k) = .integer m ∧ k ≤ m ∧ ∀ n ∈ ns, n ≤ m := by
    induction ns generalizing k with
    | nil => exact ⟨k, rfl, Int.le_refl k, nofun⟩
    | cons n ns ih =>
      obtain ⟨m, hm, hk, hns⟩ := ih (max k n)
      obtain ⟨hkm, hnm⟩ := max_le_iff.1 hk
      rw [List.map_cons, List.foldl_cons, Cell.later_integer]
      exact ⟨m, hm, hkm, List.forall_mem_cons.2 ⟨hnm, hns⟩⟩
  cases ns with
  | nil => exact ⟨0, rfl, nofun⟩
  | cons n ns =>
    obtain ⟨m, hm, hn, hns⟩ := hfold ns n
    exact ⟨m, hm, List.forall_mem_cons.2 ⟨hn, hns⟩⟩

theorem checkpoint_le_greatestRow {rows : List CommitRow} {r : CommitRow} (hr : r ∈ rows) :
    r.checkpoint ≤ greatestRow rows := by
  have hfold (rows : List CommitRow) (k : Int) :
      k ≤ rows.foldl (fun n s => max n s.checkpoint) k ∧
        ∀ s ∈ rows, s.checkpoint ≤ rows.foldl (fun n s => max n s.checkpoint) k := by
    induction rows generalizing k with
    | nil => exact ⟨Int.le_refl k, fun s hs => absurd hs List.not_mem_nil⟩
    | cons s rows ih =>
      obtain ⟨hk, hrows⟩ := ih (max k s.checkpoint)
      obtain ⟨hkm, hsm⟩ := max_le_iff.1 hk
      exact ⟨hkm, List.forall_mem_cons.2 ⟨hsm, hrows⟩⟩
  cases rows with
  | nil => exact absurd hr List.not_mem_nil
  | cons s rows =>
    obtain ⟨hs, hrows⟩ := hfold rows s.checkpoint
    rcases List.mem_cons.1 hr with rfl | hr
    · exact hs
    · exact hrows r hr

/-- Every row was written for a commit or a snapshot, in some layout. -/
structure Written (t : Tables) : Prop where
  commits : ∀ r ∈ t.commits, ∃ layout c, r = CommitRow.ofCommit layout c
  snapshots : ∀ r ∈ t.snapshots, ∃ layout s, r = SnapshotRow.ofSnapshot layout s

/-- What an accepted attempt has met, and what it leaves. -/
structure Accepts (layout : Layout) (a : Attempt) (t : Tables) (c : Commit) (t' : Tables) :
    Prop where
  confirmed : c = a.floored.confirm t.nextRow
  commits : t'.commits = t.commits ++ [CommitRow.ofCommit layout c]
  snapshots : t'.snapshots = t.snapshots
  fresh : (t.ofStream a.stream).find? (·.id.same (.text a.id.digits)) = none
  fits : ∃ s r,
    wordOf "commit_sequence" (greatest ((t.ofStream a.stream).map (·.sequence))) = .ok s ∧
    wordOf "stream_revision" (greatest ((t.ofStream a.stream).map (·.revision))) = .ok r ∧
    a.verdict s r = .fits

/-- An attempt that passes the checks before the insert: its id is new to the rows of its stream,
and it goes on from their greatest sequence and their greatest revision. -/
structure Passes (t : Tables) (a : Attempt) : Prop where
  fresh : (t.ofStream a.stream).find? (·.id.same (.text a.id.digits)) = none
  fits : ∃ s r,
    wordOf "commit_sequence" (greatest ((t.ofStream a.stream).map (·.sequence))) = .ok s ∧
    wordOf "stream_revision" (greatest ((t.ofStream a.stream).map (·.revision))) = .ok r ∧
    a.verdict s r = .fits

/-- Only attempts that pass the checks are inserted. -/
theorem passes_of_append {r : Commit × Tables} (h : t.append layout a = .ok r) :
    t.Passes a ∧ t.insert layout a = .ok r := by
  rw [Tables.append] at h
  cases hfind : (t.ofStream a.stream).find? (·.id.same (.text a.id.digits)) with
  | some r =>
    rw [hfind] at h
    obtain ⟨existing, -, h⟩ := exists_of_bind h
    cases h
  | none =>
    rw [hfind] at h
    obtain ⟨_, -, h⟩ := exists_of_bind h
    obtain ⟨_, -, h⟩ := exists_of_bind h
    obtain ⟨s, hs, h⟩ := exists_of_bind h
    obtain ⟨r, hr, h⟩ := exists_of_bind h
    obtain ⟨_, hv, h⟩ := exists_of_bind h
    exact ⟨⟨hfind, s, r, hs, hr, (a.validate_eq_ok_iff s r).1 hv⟩, h⟩

theorem accepts_of_append (h : t.append layout a = .ok (c, t')) : Accepts layout a t c t' := by
  obtain ⟨hpasses, h⟩ := passes_of_append h
  unfold Tables.insert at h
  simp only at h
  split at h
  · cases h
  split at h
  · cases h
  · cases h
    exact ⟨rfl, rfl, rfl, hpasses.fresh, hpasses.fits⟩

theorem wordOf_eq_ok {column : String} {m : Int} {n : Nat}
    (h : wordOf column (.integer m) = .ok n) : m = n := by
  obtain ⟨_, hm, h⟩ := exists_of_bind h
  cases hm
  split at h
  · rename_i hle
    cases h
    exact (Int.toNat_of_nonneg hle.1).symm
  · cases h

/-- The greatest number in a column of written rows is not below any of them. -/
theorem le_of_wordOf_greatest {rows : List CommitRow} {column : CommitRow → Cell}
    (number : Commit → Nat) (hrows : ∀ r ∈ rows, ∃ k d, r = CommitRow.ofCommit k d)
    (hcolumn : ∀ k d, column (CommitRow.ofCommit k d) = .integer (number d)) {name : String}
    {n : Nat} (h : wordOf name (greatest (rows.map column)) = .ok n) {k : Layout} {d : Commit}
    (hd : CommitRow.ofCommit k d ∈ rows) : number d ≤ n := by
  have hcells : ∀ cell ∈ rows.map column, ∃ n : Int, cell = .integer n := by
    intro cell hcell
    obtain ⟨row, hrow, rfl⟩ := List.mem_map.1 hcell
    obtain ⟨k, e, rfl⟩ := hrows row hrow
    exact ⟨number e, hcolumn k e⟩
  obtain ⟨ns, hns⟩ := exists_integers hcells
  obtain ⟨m, hm, hle⟩ := le_greatest ns
  rw [hns, hm] at h
  have hd : Cell.integer (number d) ∈ ns.map Cell.integer :=
    hns ▸ hcolumn k d ▸ List.mem_map_of_mem hd
  obtain ⟨i, hi, he⟩ := List.mem_map.1 hd
  have hid : i = number d := by
    cases he
    rfl
  have := hle i hi
  have := wordOf_eq_ok h
  omega

/-- The next row is numbered above all rows. -/
theorem checkpoint_lt_nextRow {r : CommitRow} (hr : r ∈ t.commits) :
    r.checkpoint < t.nextRow := by
  have := checkpoint_le_greatestRow hr
  have := le_max_right t.lastRow (greatestRow t.commits)
  rw [nextRow]
  omega

namespace Accepts

/-- The sequence of an accepted attempt is a word above those of the rows of the stream, and its
revision is its events after the greatest revision of these rows. -/
theorem numbers (h : Accepts layout a t c t') (ht : ∀ r ∈ t.commits, ∃ k d,
    r = CommitRow.ofCommit k d) : a.sequence ≤ maxRevision ∧
    (∀ k d, CommitRow.ofCommit k d ∈ t.ofStream a.stream → d.sequence < a.sequence) ∧
    ∃ r, a.revision = r + a.events.length ∧
      ∀ k d, CommitRow.ofCommit k d ∈ t.ofStream a.stream → d.revision ≤ r := by
  obtain ⟨s, r, hs, hr, hfits⟩ := h.fits
  obtain ⟨hseq, hrev, hlt⟩ := (Attempt.verdict_eq_fits_iff a s r).1 hfits
  have hrows : ∀ r ∈ t.ofStream a.stream, ∃ k d, r = CommitRow.ofCommit k d := fun r hr =>
    ht r (List.mem_of_mem_filter hr)
  refine ⟨by omega, fun k d hd => ?_, r, hrev, fun k d hd => ?_⟩
  · have := le_of_wordOf_greatest (fun c => c.sequence) hrows (fun _ _ => rfl) hs hd
    omega
  · exact le_of_wordOf_greatest (fun c => c.revision) hrows (fun _ _ => rfl) hr hd

/-- After the checkpoint before the new one the tenant has the new row only. -/
theorem filter_after (h : Accepts layout a t c t') :
    t'.commits.filter (Query.after c.stream.tenant (c.checkpoint - 1)).selects
      = [CommitRow.ofCommit layout c] := by
  have hold : t.commits.filter (Query.after c.stream.tenant (c.checkpoint - 1)).selects = [] := by
    refine List.filter_eq_nil_iff.2 fun r hr => ?_
    have hlt := checkpoint_lt_nextRow hr
    have hc : c.checkpoint = t.nextRow := congrArg Commit.checkpoint h.confirmed
    rw [Query.selects, Bool.and_eq_true, decide_eq_true_eq]
    omega
  have hnew : (Query.after c.stream.tenant (c.checkpoint - 1)).selects
      (CommitRow.ofCommit layout c) = true := by
    rw [Query.selects, CommitRow.ofTenant_ofCommit, decide_eq_true rfl, Bool.true_and,
      decide_eq_true_eq]
    exact Int.sub_one_lt_of_le (Int.le_refl _)
  rw [h.commits, List.filter_append, hold, List.nil_append, List.filter_cons_of_pos hnew,
    List.filter_nil]

/-- At the revisions of the new commit its stream has the new row only. -/
theorem filter_revisions (h : Accepts layout a t c t') (ht : t.Written) (ha : a.Writable)
    (hne : a.events ≠ []) :
    t'.commits.filter (Query.revisions c.stream c.firstRevision c.revision).selects
      = [CommitRow.ofCommit layout c] := by
  obtain ⟨-, -, r, hr, hle⟩ := h.numbers ht.commits
  have hstream : c.stream = a.stream := congrArg (·.stream) h.confirmed
  have hrevision : c.revision = a.revision := congrArg (·.revision) h.confirmed
  have hevents : c.events = a.events := congrArg (·.events) h.confirmed
  have hmax : c.revision ≤ maxRevision := hrevision ▸ ha.revision_le
  have hfirst : c.firstRevision = r + 1 :=
    Commit.firstRevision_eq (hevents ▸ hne) (by rw [hrevision, hevents, hr]) hmax
  have hpos := List.length_pos_iff.2 hne
  have hold : t.commits.filter
      (Query.revisions c.stream c.firstRevision c.revision).selects = [] := by
    refine List.filter_eq_nil_iff.2 fun row hrow => ?_
    obtain ⟨k, d, rfl⟩ := ht.commits row hrow
    rw [Query.selects, Bool.and_eq_true, Bool.and_eq_true]
    rintro ⟨⟨hof, hat⟩, -⟩
    have hd := hle k d (List.mem_filter.2 ⟨hrow, hstream ▸ hof⟩)
    have hat : (Cell.integer c.firstRevision).atMost (.integer d.revision) = true := hat
    rw [Cell.atMost_integer, decide_eq_true_eq] at hat
    omega
  have hnew : (Query.revisions c.stream c.firstRevision c.revision).selects
      (CommitRow.ofCommit layout c) = true := by
    show ((CommitRow.ofCommit layout c).ofStream c.stream
      && (Cell.integer c.firstRevision).atMost (.integer c.revision)
      && ((Cell.integer c.revision).sub? (.integer c.events.length)).any
        fun previous => previous.before (.integer c.revision)) = true
    have hn : c.events.length ≤ maxRevision := by
      rw [hevents]
      omega
    rw [CommitRow.ofStream_ofCommit, decide_eq_true rfl, Cell.atMost_integer,
      Cell.sub?_words hmax hn, Option.any_some, Cell.before_integer, Bool.true_and,
      Bool.and_eq_true, decide_eq_true_eq, decide_eq_true_eq, hevents]
    omega
  rw [h.commits, List.filter_append, hold, List.nil_append, List.filter_cons_of_pos hnew,
    List.filter_nil]

/-- The row that is found for the id of the new commit is the new row. -/
theorem find?_id (h : Accepts layout a t c t') :
    (t'.ofStream a.stream).find? (·.id.same (.text a.id.digits))
      = some (CommitRow.ofCommit layout c) := by
  have hstream : c.stream = a.stream := congrArg (·.stream) h.confirmed
  have hid : c.id = a.id := congrArg (·.id) h.confirmed
  have hnew : (CommitRow.ofCommit layout c).ofStream a.stream = true := by
    rw [CommitRow.ofStream_ofCommit, hstream, decide_eq_true rfl]
  have hsame : (Cell.text c.id.digits).same (.text a.id.digits) = true := by
    rw [Cell.same_text, hid, decide_eq_true rfl]
  rw [Tables.ofStream, h.commits, List.filter_append, List.find?_append]
  have hold : (t.commits.filter (·.ofStream a.stream)).find? (·.id.same (.text a.id.digits))
      = none := h.fresh
  rw [hold, Option.none_or, List.filter_cons_of_pos hnew, List.filter_nil]
  exact List.find?_cons_of_pos hsame

end Accepts

/-- Inserting a commit keeps rows written. -/
theorem Accepts.written (h : Accepts layout a t c t') (ht : t.Written) : t'.Written where
  commits r hr := by
    rw [h.commits] at hr
    rcases List.mem_append.1 hr with hr | hr
    · exact ht.commits r hr
    · exact ⟨layout, c, List.mem_singleton.1 hr⟩
  snapshots := h.snapshots ▸ ht.snapshots

/-- What recording a snapshot has met, if it was recorded, and what it leaves. -/
theorem addSnapshot_cases (layout : Layout) (s : Snapshot) (t : Tables) :
    ((t.addSnapshot layout s).1 ≠ .ok true ∧ (t.addSnapshot layout s).2 = t) ∨
    (s.stream.quotable = true ∧ (t.addSnapshot layout s).1 = .ok true ∧
      (t.addSnapshot layout s).2.commits = t.commits ∧
      (t.addSnapshot layout s).2.snapshots = t.snapshots ++ [SnapshotRow.ofSnapshot layout s]) := by
  unfold Tables.addSnapshot
  split
  case isFalse => exact .inl ⟨by simp, rfl⟩
  case isTrue hname =>
    split
    · exact .inl ⟨by simp, rfl⟩
    split
    · exact .inl ⟨by simp, rfl⟩
    split
    · exact .inl ⟨by simp, rfl⟩
    split
    · exact .inl ⟨by simp, rfl⟩
    · exact .inr ⟨hname, rfl, rfl, rfl⟩

theorem Written.of_subset (h : t.Written) (hc : ∀ r ∈ t'.commits, r ∈ t.commits)
    (hs : ∀ r ∈ t'.snapshots, r ∈ t.snapshots) : t'.Written :=
  ⟨fun r hr => h.commits r (hc r hr), fun r hr => h.snapshots r (hs r hr)⟩

end Tables

theorem TableOptions.one_le_rowsPerPage (o : TableOptions) : 1 ≤ o.rowsPerPage :=
  le_max_left ..

theorem TableOptions.rowsPerPage_le_maxPage_iff (o : TableOptions) :
    o.rowsPerPage ≤ maxPage ↔ o.pageSize ≤ maxPage :=
  max_le_iff.trans (and_iff_right (by decide))

namespace Database

/-- Every row of the tables, if they exist, was written for a commit or a snapshot. -/
def Written (db : Database) : Prop := ∀ t ∈ db, Tables.Written t

variable {o : TableOptions} {db : Database} {a : Attempt} {c : Commit} {op : Operation}

theorem commit_cases (o : TableOptions) (a : Attempt) (db : Database) :
    ((∀ c, (Database.commit o a db).1 ≠ .ok (some c)) ∧ (Database.commit o a db).2 = db) ∨
    ∃ t c t', db = some t ∧ a.events ≠ [] ∧ a.stream.quotable = true ∧
      t.append o.layout a = .ok (c, t') ∧ Database.commit o a db = (.ok (some c), some t') := by
  unfold Database.commit
  split
  · exact .inl ⟨by simp, rfl⟩
  · rename_i hne
    cases db with
    | none => exact .inl ⟨by simp, rfl⟩
    | some t =>
      simp only [Tables.commit]
      split
      case isFalse => exact .inl ⟨by simp, rfl⟩
      case isTrue hname =>
        cases happend : t.append o.layout a with
        | error e => exact .inl ⟨by simp, rfl⟩
        | ok r =>
          obtain ⟨c, t'⟩ := r
          refine .inr ⟨t, c, t', rfl, ?_, hname, happend, rfl⟩
          rwa [List.isEmpty_iff] at hne

/-- A change of the tables is refused, or made. -/
theorem update_cases (quotable : Bool) (change : Tables → Tables) (t : Tables) :
    update quotable change (some t) = (.error .database, some t) ∨
      update quotable change (some t) = (.ok (), some (change t)) := by
  rw [update]
  split
  · exact .inr rfl
  · exact .inl rfl

/-- What a change of the tables keeps, a refused one keeps as well. -/
theorem forall_update {P : Tables → Prop} (h : ∀ t ∈ db, P t) {quotable : Bool}
    {change : Tables → Tables} (hchange : ∀ t, P t → P (change t)) :
    ∀ t ∈ (Database.update quotable change db).2, P t := by
  cases db with
  | none => exact nofun
  | some t =>
    obtain he | he := update_cases quotable change t <;> rw [he]
    · exact h
    · rintro u ⟨rfl⟩
      exact hchange t (h t rfl)

/-- Every operation keeps rows written. -/
theorem Written.step (h : Written db) (o : TableOptions) (op : Operation) :
    Written (engine o op db).2 := by
  cases op with
  | commit a =>
    show Written (Database.commit o a db).2
    obtain ⟨-, he⟩ | ⟨t, c, t', rfl, -, -, happend, he⟩ := commit_cases o a db
    · rw [he]
      exact h
    · rw [he]
      rintro u ⟨rfl⟩
      exact (Tables.accepts_of_append happend).written (h t rfl)
  | read | snapshot | streamsToSnapshot => exact h
  | setUp =>
    cases db with
    | none =>
      rintro u ⟨rfl⟩
      exact ⟨fun _ hr => absurd hr List.not_mem_nil, fun _ hr => absurd hr List.not_mem_nil⟩
    | some t => exact h
  | dropStore => exact nofun
  | addSnapshot s =>
    cases db with
    | none => exact h
    | some t =>
      have ht := h t rfl
      rintro u ⟨rfl⟩
      show Tables.Written (t.addSnapshot o.layout s).2
      obtain ⟨-, he⟩ | ⟨-, -, hc, hs⟩ := t.addSnapshot_cases o.layout s
      · rw [he]
        exact ht
      · refine ⟨hc ▸ ht.commits, fun r hr => ?_⟩
        rw [hs] at hr
        rcases List.mem_append.1 hr with hr | hr
        · exact ht.snapshots r hr
        · exact ⟨o.layout, s, List.mem_singleton.1 hr⟩
  | purge tenant =>
    exact forall_update h fun t ht =>
      ht.of_subset (fun r hr => List.mem_of_mem_filter hr) fun r hr => List.mem_of_mem_filter hr
  | purgeAll =>
    exact forall_update h fun t ht =>
      ht.of_subset (fun r hr => absurd hr List.not_mem_nil) fun r hr => absurd hr List.not_mem_nil
  | deleteStream s =>
    exact forall_update h fun t ht =>
      ht.of_subset (fun r hr => List.mem_of_mem_filter hr) fun r hr => List.mem_of_mem_filter hr

/-- The database that a run leaves, each operation with the options of the store that it goes
through. -/
def after (run : List (TableOptions × Operation)) : Database :=
  run.foldl (fun db e => (engine e.1 e.2 db).2) none

theorem written_after (run : List (TableOptions × Operation)) : Written (after run) := by
  induction run using List.reverseRecOn with
  | nil => exact nofun
  | append_singleton run e ih =>
    rw [after, List.foldl_append]
    exact Written.step ih e.1 e.2

/-- A read that one row answers gives its commit, or something else, by the records and the number
of rows of a page. -/
theorem readRows_cases {q : Query} {rows : List CommitRow} (ha : a.Writable)
    (hs : a.sequence ≤ maxRevision) {k : Int}
    (hrows : rows.filter q.selects = [CommitRow.ofCommit o.layout (a.floored.confirm k)]) :
    (a.Readable ∧ o.pageSize ≤ maxPage) ∧
        readRows q o.rowsPerPage rows = [.ok (a.floored.confirm k)] ∨
      ¬ (a.Readable ∧ o.pageSize ≤ maxPage) ∧
        ∃ item, item ≠ .ok (a.floored.confirm k) ∧ readRows q o.rowsPerPage rows = [item] := by
  have hsize := o.one_le_rowsPerPage
  have hmax := o.rowsPerPage_le_maxPage_iff
  by_cases hpage : o.pageSize ≤ maxPage
  · have hread := readRows_one hrows hsize (hmax.2 hpage) fun d hd =>
      CommitRow.commitKey_decode o.layout ha hs k q hd
    obtain ⟨hgood, hdecode⟩ | ⟨hbad, hdecode⟩ := CommitRow.decode_cases o.layout ha hs k
    · exact .inl ⟨⟨hgood, hpage⟩, hread.trans (by rw [hdecode])⟩
    · exact .inr ⟨fun h => hbad h.1, _, hdecode, hread⟩
  · refine .inr ⟨fun h => hpage h.2, .error .database, nofun, ?_⟩
    rw [readRows, if_pos (Nat.not_le.1 (mt hmax.1 hpage))]

/-- What is read of a commit, and answered to its id, right after it was accepted. -/
theorem Written.commit (hw : Written db) (ha : a.Writable)
    (hc : (Database.commit o a db).1 = .ok (some c)) :
    c.toAttempt = a.floored ∧
    ((Database.read o (.after c.stream.tenant (c.checkpoint - 1))
        (Database.commit o a db).2).head? = some (.ok c) ↔ a.Readable ∧ o.pageSize ≤ maxPage) ∧
    (.ok c ∈ Database.read o (.revisions c.stream c.firstRevision c.revision)
        (Database.commit o a db).2 ↔ a.Readable ∧ o.pageSize ≤ maxPage) ∧
    ∀ b : Attempt, b.stream = a.stream → b.id = a.id → b.events ≠ [] →
      ((Database.commit o b (Database.commit o a db).2).1 = .error (.duplicate c) ↔ a.Readable) := by
  obtain ⟨hnone, -⟩ | ⟨t, d, t', rfl, hne, hname, happend, he⟩ := commit_cases o a db
  · exact absurd hc (hnone c)
  have haccepts := Tables.accepts_of_append happend
  rw [he] at hc ⊢
  obtain rfl : d = c := by
    cases hc
    rfl
  have ht := hw t rfl
  have hs := (haccepts.numbers ht.commits).1
  have hconfirmed := haccepts.confirmed
  have hafter := haccepts.filter_after
  have hrevisions := haccepts.filter_revisions ht ha hne
  have hfind := haccepts.find?_id
  have hstream : d.stream = a.stream := congrArg (·.stream) hconfirmed
  have hafterName : (Query.after d.stream.tenant (d.checkpoint - 1)).quotable = true :=
    hstream ▸ (Bool.and_eq_true_iff.1 hname).1
  have hrevisionsName : (Query.revisions d.stream d.firstRevision d.revision).quotable = true :=
    hstream ▸ hname
  refine ⟨by rw [hconfirmed]; rfl, ?_, ?_, fun b hstream hid hevents => ?_⟩
  · rw [Database.read_of_quotable hafterName]
    rw [hconfirmed] at hafter ⊢
    obtain ⟨hgood, hread⟩ | ⟨hbad, item, hitem, hread⟩ := readRows_cases ha hs hafter
    · rw [hread]
      exact iff_of_true rfl hgood
    · rw [hread]
      exact iff_of_false (fun h => hitem (Option.some.inj h)) hbad
  · rw [Database.read_of_quotable hrevisionsName]
    rw [hconfirmed] at hrevisions ⊢
    obtain ⟨hgood, hread⟩ | ⟨hbad, item, hitem, hread⟩ := readRows_cases ha hs hrevisions
    · rw [hread]
      exact iff_of_true (List.mem_singleton.2 rfl) hgood
    · rw [hread]
      exact iff_of_false (fun h => hitem (List.mem_singleton.1 h).symm) hbad
  · rw [Database.commit_some, if_neg hevents, Tables.commit, hstream, if_pos hname,
      Tables.append, hstream, hid, hfind, hconfirmed]
    obtain ⟨hgood, hdecode⟩ | ⟨hbad, hdecode⟩ := CommitRow.decode_cases o.layout ha hs t.nextRow
    · simp [hdecode, hgood, bind, Except.bind, throw, throwThe, MonadExceptOf.throw]
    · cases hrow : (CommitRow.ofCommit o.layout (a.floored.confirm t.nextRow)).decode with
      | error e =>
        obtain ⟨cause, rfl⟩ := CommitRow.eq_serialization_of_decode o.layout ha hs _ hrow
        simp [hrow, hbad, bind, Except.bind]
      | ok d =>
        have hne : d ≠ a.floored.confirm t.nextRow := by
          rintro rfl
          exact hdecode hrow
        simp [hrow, hbad, hne, bind, Except.bind, throw, throwThe, MonadExceptOf.throw]

end Database

namespace Tables

variable {t : Tables} {layout : Layout} {s : Snapshot}

/-- The last row is the latest if no row before it has a greater revision. -/
theorem latestRow_concat {rows : List SnapshotRow} {x : SnapshotRow}
    (h : ∀ r ∈ rows, x.revision.before r.revision = false) : latestRow (rows ++ [x]) = some x := by
  induction rows with
  | nil => rfl
  | cons r rows ih =>
    obtain ⟨hr, hrows⟩ := List.forall_mem_cons.1 h
    rw [List.cons_append, latestRow, ih hrows]
    simp [hr]

/-- What is found of a snapshot right after it was recorded. -/
theorem Written.addSnapshot (ht : t.Written) (hs : s.Writable)
    (h : (t.addSnapshot layout s).1 = .ok true) :
    (t.addSnapshot layout s).2.snapshot s.stream s.revision = .ok (some s) ↔ s.Readable := by
  obtain ⟨hne, -⟩ | ⟨hname, -, -, hrows⟩ := t.addSnapshot_cases layout s
  · exact absurd h hne
  have hnew : ((SnapshotRow.ofSnapshot layout s).ofStream s.stream
      && (SnapshotRow.ofSnapshot layout s).revision.atMost (.integer s.revision)) = true := by
    rw [SnapshotRow.ofStream_ofSnapshot, decide_eq_true rfl, Bool.true_and]
    show (Cell.integer s.revision).atMost (.integer s.revision) = true
    rw [Cell.atMost_integer, decide_eq_true (Int.le_refl _)]
  have hlatest : latestRow ((t.addSnapshot layout s).2.snapshots.filter fun r =>
      r.ofStream s.stream && r.revision.atMost (.integer s.revision))
      = some (SnapshotRow.ofSnapshot layout s) := by
    rw [hrows, List.filter_append, List.filter_cons, if_pos hnew, List.filter_nil]
    refine latestRow_concat fun r hr => ?_
    obtain ⟨hr, hupTo⟩ := List.mem_filter.1 hr
    obtain ⟨k, u, rfl⟩ := ht.snapshots r hr
    have hle : (Cell.integer u.revision).atMost (.integer s.revision) = true :=
      (Bool.and_eq_true_iff.1 hupTo).2
    show (Cell.integer s.revision).before (.integer u.revision) = false
    rw [Cell.atMost_integer, decide_eq_true_eq] at hle
    rw [Cell.before_integer, decide_eq_false (Int.not_lt.2 hle)]
  unfold Tables.snapshot
  simp only [hname, if_true, hlatest]
  obtain ⟨hgood, hdecode⟩ | ⟨hbad, hdecode⟩ := SnapshotRow.decode_cases layout hs
  · rw [hdecode]
    exact iff_of_true rfl hgood
  · refine iff_of_false (fun h => hdecode ?_) hbad
    cases hrow : (SnapshotRow.ofSnapshot layout s).decode s.stream with
    | error e =>
      rw [hrow] at h
      cases h
    | ok u =>
      rw [hrow] at h
      cases h
      rfl

end Tables

namespace Database

/-- **What is accepted can be read back if it is plain and shallow.**  Whatever ran before, an
attempt that was accepted is the first commit after the checkpoint before it and is read at its
revisions, if and only if no object in its records begins with `Json.rawKey`, they are no deeper
than what is read and a page is no greater than the database can be asked for; a second attempt
under its id is answered with it if and only if its records are such. A snapshot that was recorded
is found at its revision if and only if its payload is such. -/
theorem read_back_iff (o : TableOptions) (run : List (TableOptions × Operation)) :
    (∀ a c, a.Writable → (Database.commit o a (after run)).1 = .ok (some c) →
      c.toAttempt = a.floored ∧
      ((Database.read o (.after c.stream.tenant (c.checkpoint - 1))
          (Database.commit o a (after run)).2).head? = some (.ok c) ↔
        a.Readable ∧ o.pageSize ≤ maxPage) ∧
      (.ok c ∈ Database.read o (.revisions c.stream c.firstRevision c.revision)
          (Database.commit o a (after run)).2 ↔ a.Readable ∧ o.pageSize ≤ maxPage) ∧
      ∀ b : Attempt, b.stream = a.stream → b.id = a.id → b.events ≠ [] →
        ((Database.commit o b (Database.commit o a (after run)).2).1 = .error (.duplicate c) ↔
          a.Readable)) ∧
    ∀ s : Snapshot, s.Writable → (engine o (.addSnapshot s) (after run)).1.reply = .ok true →
      ((engine o (.snapshot s.stream s.revision) (engine o (.addSnapshot s) (after run)).2).1.reply
          = .ok (some s) ↔ s.Readable) := by
  have hw := written_after run
  constructor
  · intro a c ha hc
    exact hw.commit ha hc
  · intro s hs hs'
    cases hdb : after run with
    | none =>
      rw [hdb] at hs'
      exact nomatch hs'
    | some t =>
      rw [hdb] at hs'
      exact (hw t hdb).addSnapshot hs hs'

/-- A run that sets the tables up and writes two streams through stores of different layouts. -/
def twoWriters : List (TableOptions × Operation) :=
  [({}, .setUp), (⟨1, .indented⟩, .commit (Memory.sampleAttempt "a" 1 2 2 1)),
    ({}, .commit (Memory.sampleAttempt "b" 1 1 1 1))]

theorem read_back_iff_twoWriters :
    (Memory.sampleAttempt "a" 2 3 1 2).Writable ∧
      (Database.commit {} (Memory.sampleAttempt "a" 2 3 1 2) (after twoWriters)).1
        = .ok (some ((Memory.sampleAttempt "a" 2 3 1 2).confirm 3)) ∧
      (Database.read {} (.after "tenant" 2)
          (Database.commit {} (Memory.sampleAttempt "a" 2 3 1 2) (after twoWriters)).2).head?
        = some (.ok ((Memory.sampleAttempt "a" 2 3 1 2).confirm 3)) ∧
      (Database.commit {} (Memory.sampleAttempt "a" 5 9 2 2)
          (Database.commit {} (Memory.sampleAttempt "a" 2 3 1 2) (after twoWriters)).2).1
        = .error (.duplicate ((Memory.sampleAttempt "a" 2 3 1 2).confirm 3)) ∧
      (engine {} (.snapshot ⟨"tenant", "a"⟩ 2)
          (engine {} (.addSnapshot ⟨⟨"tenant", "a"⟩, 2, ⟨"state", .null⟩⟩)
            (after twoWriters)).2).1.reply
        = .ok (some ⟨⟨"tenant", "a"⟩, 2, ⟨"state", .null⟩⟩) := by
  have ha : (Memory.sampleAttempt "a" 2 3 1 2).Writable :=
    ⟨by decide, by decide, by decide, by decide, by decide +kernel⟩
  have hshallow : (Memory.sampleAttempt "a" 2 3 1 2).Readable := ⟨by decide, by decide⟩
  have hc : (Database.commit {} (Memory.sampleAttempt "a" 2 3 1 2) (after twoWriters)).1
      = .ok (some ((Memory.sampleAttempt "a" 2 3 1 2).confirm 3)) := by decide +kernel
  have hs : (engine {} (.addSnapshot ⟨⟨"tenant", "a"⟩, 2, ⟨"state", .null⟩⟩) (after twoWriters)).1.reply
      = .ok true := by
    have hmap : (after twoWriters).map
        (fun t => (t.addSnapshot .compact ⟨⟨"tenant", "a"⟩, 2, ⟨"state", .null⟩⟩).1)
        = some (.ok true) := by decide +kernel
    obtain ⟨t, ht, hs⟩ := Option.map_eq_some_iff.1 hmap
    rw [ht]
    exact hs
  obtain ⟨hcommits, hsnapshots⟩ := read_back_iff {} twoWriters
  obtain ⟨-, hread, -, hagain⟩ := hcommits _ _ ha hc
  exact ⟨ha, hc, hread.2 ⟨hshallow, by decide⟩,
    (hagain (Memory.sampleAttempt "a" 5 9 2 2) rfl rfl (by decide)).2 hshallow,
    (hsnapshots _ ⟨by decide, by decide⟩ hs).2 (by decide)⟩

/-- Arrays around a null, one in another. -/
def nested : Nat → Json
  | 0 => .null
  | n + 1 => .array [nested n]

/-- The attempt of one event whose data is nested so deep. -/
def nestedAttempt (n : Nat) : Attempt :=
  { Memory.sampleAttempt "a" 1 1 1 1 with events := [⟨⟨"event", nested n⟩, []⟩] }

/-- The attempt of one event whose data is an object with `Json.rawKey` as its only key. -/
def rawAttempt (text : String) : Attempt :=
  { Memory.sampleAttempt "a" 1 1 1 1 with
    events := [⟨⟨"event", .raw text⟩, []⟩] }

/-- The list of one event adds three to the depth of its data. An attempt that is one level too deep
is accepted all the same, and so are one whose data begins with `Json.rawKey` and any attempt where
pages are one row too great. No such commit is read back. -/
theorem accepted_not_read_back :
    (∃ c, (Database.commit {} (nestedAttempt 125) (some {})).1 = .ok (some c) ∧
      (Database.read {} (.after "tenant" (c.checkpoint - 1))
          (Database.commit {} (nestedAttempt 125) (some {})).2).head? ≠ some (.ok c) ∧
      (Database.commit {} (nestedAttempt 125)
          (Database.commit {} (nestedAttempt 125) (some {})).2).1 ≠ .error (.duplicate c)) ∧
    (∃ c, (Database.commit {} (rawAttempt "1") (some {})).1 = .ok (some c) ∧
      Database.read {} (.after "tenant" (c.checkpoint - 1))
          (Database.commit {} (rawAttempt "1") (some {})).2
        = [.ok { c with events := [⟨⟨"event", .int 1⟩, []⟩] }] ∧
      c.events ≠ [⟨⟨"event", .int 1⟩, []⟩]) ∧
    ∃ c, (Database.commit ⟨9223372036854775808, .compact⟩ (nestedAttempt 0) (some {})).1
        = .ok (some c) ∧
      Database.read ⟨9223372036854775808, .compact⟩ (.after "tenant" (c.checkpoint - 1))
          (Database.commit ⟨9223372036854775808, .compact⟩ (nestedAttempt 0) (some {})).2
        = [.error .database] := by
  have hw : Written (some {}) := by
    rintro t ⟨rfl⟩
    exact ⟨fun _ h => absurd h List.not_mem_nil, fun _ h => absurd h List.not_mem_nil⟩
  have ha : (nestedAttempt 125).Writable :=
    ⟨by decide, by decide, by decide, by decide, by decide +kernel⟩
  have hdeep : ¬ (nestedAttempt 125).Readable := fun h => absurd h.2 (by decide +kernel)
  have hc : (Database.commit {} (nestedAttempt 125) (some {})).1
      = .ok (some ((nestedAttempt 125).confirm 1)) := by decide +kernel
  obtain ⟨-, hread, -, hagain⟩ := hw.commit ha hc
  have hne : (nestedAttempt 125).events ≠ [] := List.cons_ne_nil _ _
  have hmissed := mt hread.1 fun h => hdeep h.1
  have hunknown := mt (hagain (nestedAttempt 125) rfl rfl hne).1 hdeep
  refine ⟨⟨_, hc, hmissed, hunknown⟩,
    ⟨(rawAttempt "1").confirm 1, by decide +kernel, by decide +kernel, by decide +kernel⟩,
    (nestedAttempt 0).confirm 1, by decide +kernel, by decide +kernel⟩

end Database
end EventSourcing
