import EventSourcing.Proofs.Paging

/-!
# Tables record ledgers

`Tables.Records t l` says that the tables `t` are the ledger `l` written down, each record in the
layout of the store that it came through: a row for each commit of the log, in its order, a row for
each head, and a row for each snapshot; the greatest row number given out is the last checkpoint.
Nothing is said of whether the records can be read back.

A column of the rows of a stream is a column of its commits (`Records.column_eq`). So the greatest
sequence and the greatest revision, which are found one by one, are both those of the last commit,
because both ascend (`greatest_ascending`), and the next row number is the next checkpoint. What is
written for a change of the ledger records the changed ledger (`Records.append`, `Records.record`,
`Records.retain`). Where the commits are numbered in words and the snapshots can be read back, what
the tables say of snapshots is what the ledger says (`Records.snapshot_eq`,
`Records.streamsToSnapshot_eq`).
-/

namespace EventSourcing
namespace Tables

/-- The greatest of ascending numbers is the last one. -/
theorem greatest_ascending {ns : List Int} (h : ns.Pairwise (· ≤ ·)) :
    greatest (ns.map .integer) = .integer (ns.getLast?.getD 0) := by
  induction ns using List.reverseRecOn with
  | nil => rfl
  | append_singleton ns n ih =>
    obtain ⟨hns, -, hle⟩ := List.pairwise_append.1 h
    have hlast := ih hns
    cases ns with
    | nil => rfl
    | cons m ms =>
      have hmem : ((m :: ms).getLast?).getD 0 ∈ m :: ms := by
        rw [List.getLast?_eq_some_getLast (List.cons_ne_nil m ms), Option.getD_some]
        exact List.getLast_mem _
      rw [List.map_cons, greatest] at hlast
      rw [List.map_append, List.map_cons, List.cons_append, greatest, List.foldl_append, hlast,
        List.getLast?_concat]
      show (Cell.integer _).later (.integer n) = .integer n
      rw [Cell.later_integer, max_eq_right (hle _ hmem n (by simp))]

theorem greatestRow_le {rows : List CommitRow} {n : Int} (h0 : 0 ≤ n)
    (h : ∀ r ∈ rows, r.checkpoint ≤ n) : greatestRow rows ≤ n := by
  cases rows with
  | nil => exact h0
  | cons r rows =>
    obtain ⟨hr, hrows⟩ := List.forall_mem_cons.1 h
    show rows.foldl (fun m s => max m s.checkpoint) r.checkpoint ≤ n
    clear h
    generalize r.checkpoint = k at hr ⊢
    induction rows generalizing k with
    | nil => exact hr
    | cons s rows ih =>
      obtain ⟨hs, hrows⟩ := List.forall_mem_cons.1 hrows
      exact ih hrows _ (max_le hr hs)

/-- The row of a commit in its layout. -/
def rowOf (w : Layout × Commit) : CommitRow := .ofCommit w.1 w.2

/-- The row of a snapshot in its layout. -/
def snapshotRowOf (w : Layout × Snapshot) : SnapshotRow := .ofSnapshot w.1 w.2

/-- The tables are a ledger written down, each record in some layout. -/
structure Records (t : Tables) (l : Ledger) : Prop where
  commits : ∃ ws : List (Layout × Commit), t.commits = ws.map rowOf ∧ l.log = ws.map (·.2)
  lastRow : t.lastRow = l.lastCheckpoint
  streams : t.streams = l.heads.map fun e => StreamRow.ofHead e.2
  snapshots : ∃ ws : List (Layout × Snapshot), t.snapshots = ws.map snapshotRowOf ∧
    ∀ s, (ws.map (·.2)).filter (·.stream = s) = l.snapshotsOf s
  keyed : l.heads.Keyed
  named : ∀ e ∈ l.heads, e.2.stream = e.1

namespace Records

variable {β : Type} {t : Tables} {l : Ledger} {s : StreamId}

theorem empty : Records {} {} where
  commits := ⟨[], rfl, rfl⟩
  lastRow := rfl
  streams := rfl
  snapshots := ⟨[], rfl, fun _ => rfl⟩
  keyed := List.nodup_nil
  named _ h := absurd h List.not_mem_nil

/-- The rows of a stream record the commits of the stream. -/
theorem ofStream (h : t.Records l) (s : StreamId) : ∃ ws : List (Layout × Commit),
    t.ofStream s = ws.map rowOf ∧ l.ofStream s = ws.map (·.2) := by
  obtain ⟨ws, hrows, hlog⟩ := h.commits
  refine ⟨ws.filter (·.2.stream = s), ?_, ?_⟩
  · rw [Tables.ofStream, hrows, List.filter_map]
    congr 1
    exact List.filter_congr fun w _ => CommitRow.ofStream_ofCommit
  · rw [Ledger.ofStream, hlog, List.filter_map]
    rfl

/-- A column of the rows of a stream is a column of its commits. -/
theorem column_eq (h : t.Records l) (s : StreamId) {f : CommitRow → β} {g : Commit → β}
    (hfg : ∀ layout c, f (.ofCommit layout c) = g c) :
    (t.ofStream s).map f = (l.ofStream s).map g := by
  obtain ⟨ws, hrows, hcommits⟩ := h.ofStream s
  rw [hrows, hcommits, List.map_map, List.map_map]
  exact List.map_congr_left fun w _ => hfg w.1 w.2

theorem ofStream_eq_nil_iff (h : t.Records l) (s : StreamId) :
    t.ofStream s = [] ↔ l.ofStream s = [] := by
  obtain ⟨ws, hrows, hcommits⟩ := h.ofStream s
  rw [hrows, hcommits, List.map_eq_nil_iff, List.map_eq_nil_iff]

/-- The greatest number in a column of a stream that ascends is that of its last commit. -/
theorem greatest_column (h : t.Records l) (s : StreamId) {f : CommitRow → Cell} {g : Commit → Nat}
    (hfg : ∀ layout c, f (.ofCommit layout c) = .integer (g c))
    (hasc : (l.ofStream s).Pairwise fun c d => g c ≤ g d) :
    greatest ((t.ofStream s).map f)
      = .integer (((l.ofStream s).getLast?.map g).getD 0 : Nat) := by
  have hcells : (t.ofStream s).map f
      = ((l.ofStream s).map fun c => (g c : Int)).map .integer := by
    rw [h.column_eq s hfg, List.map_map]
    rfl
  have hle : ((l.ofStream s).map fun c => (g c : Int)).Pairwise (· ≤ ·) :=
    List.pairwise_map.2 (hasc.imp Int.ofNat_le.2)
  rw [hcells, greatest_ascending hle, List.getLast?_map]
  cases (l.ofStream s).getLast? <;> rfl

/-- The greatest sequence and the greatest revision of a stream's rows are those of its head. -/
theorem greatest_eq (h : t.Records l) (hk : l.Kept) (s : StreamId) :
    greatest ((t.ofStream s).map (·.sequence)) = .integer (l.headOf s).1 ∧
      greatest ((t.ofStream s).map (·.revision)) = .integer (l.headOf s).2 := by
  have hasc := (hk.history s).pairwise
  have hsequence := h.greatest_column s (f := (·.sequence)) (g := (·.sequence)) (fun _ _ => rfl)
    (hasc.imp fun hcd => Nat.le_of_lt hcd.1)
  have hrevision := h.greatest_column s (f := (·.revision)) (g := (·.revision)) (fun _ _ => rfl)
    (hasc.imp fun hcd => (Nat.le_add_right ..).trans hcd.2.1)
  rw [hsequence, hrevision, Ledger.headOf, hk.streamCommits_eq]
  cases (l.ofStream s).getLast? <;> exact ⟨rfl, rfl⟩

/-- A new row gets the next checkpoint. -/
theorem nextRow_eq (h : t.Records l) (hk : l.Kept) (h0 : 0 ≤ l.lastCheckpoint) :
    t.nextRow = l.lastCheckpoint + 1 := by
  obtain ⟨ws, hrows, hlog⟩ := h.commits
  have hle : greatestRow t.commits ≤ l.lastCheckpoint := by
    refine greatestRow_le h0 fun r hr => ?_
    rw [hrows] at hr
    obtain ⟨w, hw, rfl⟩ := List.mem_map.1 hr
    exact (hk.checkpoints w.2 (hlog ▸ List.mem_map_of_mem hw)).2
  rw [nextRow, h.lastRow, max_eq_left hle]

/-- A stream has a row in the table of streams if it has a head, and one only. -/
theorem filter_streams (h : t.Records l) (s : StreamId) :
    t.streams.filter (·.ofStream s) = ((l.heads.find? s).map StreamRow.ofHead).toList := by
  rw [h.streams]
  have hkeyed := h.keyed
  have hnamed := h.named
  generalize l.heads = m at hkeyed hnamed
  induction m with
  | nil => rfl
  | cons e m ih =>
    obtain ⟨hnew, hm⟩ := List.nodup_cons.1 hkeyed
    obtain ⟨he, hrest⟩ := List.forall_mem_cons.1 hnamed
    rw [List.map_cons, List.filter_cons, StreamRow.ofStream_ofHead, he, StreamMap.find?_cons,
      ih hm hrest]
    by_cases hs : s = e.1
    · have hnone : StreamMap.find? s m = none := by
        rw [Option.eq_none_iff_forall_ne_some]
        intro head hf
        exact hnew (List.mem_map.2 ⟨_, StreamMap.mem_of_find? hf, hs⟩)
      rw [if_pos (decide_eq_true hs.symm), if_pos hs, hnone]
      rfl
    · rw [if_neg (fun hd => hs (of_decide_eq_true hd).symm), if_neg hs]

/-- A head is looked for among the rows of streams. -/
theorem find?_streams (h : t.Records l) (s : StreamId) :
    t.streams.find? (·.ofStream s) = (l.heads.find? s).map StreamRow.ofHead := by
  rw [← List.head?_filter, h.filter_streams]
  cases l.heads.find? s <;> rfl

/-- The snapshot rows of a stream record its snapshots. -/
theorem ofSnapshots (h : t.Records l) (s : StreamId) : ∃ ws : List (Layout × Snapshot),
    t.snapshots.filter (·.ofStream s) = ws.map snapshotRowOf ∧
      l.snapshotsOf s = ws.map (·.2) := by
  obtain ⟨ws, hrows, hof⟩ := h.snapshots
  refine ⟨ws.filter (·.2.stream = s), ?_, ?_⟩
  · rw [hrows, List.filter_map]
    congr 1
    exact List.filter_congr fun w _ => SnapshotRow.ofStream_ofSnapshot
  · rw [← hof, List.filter_map]
    rfl

theorem stream_of_find? (h : t.Records l) {head : StreamHead}
    (hf : l.heads.find? s = some head) : head.stream = s :=
  h.named _ (StreamMap.mem_of_find? hf)

/-- Setting the head of a stream in its table. -/
theorem setHead_eq {m : StreamMap StreamHead} (hm : ∀ e ∈ m, e.2.stream = e.1) (s : StreamId)
    (n : Nat) : setHead s n (m.map fun e => StreamRow.ofHead e.2)
      = (m.insert s { (m.find? s).getD ⟨s, 0, 0⟩ with head := n }).map
        fun e => StreamRow.ofHead e.2 := by
  induction m with
  | nil => rfl
  | cons e m ih =>
    obtain ⟨k, v⟩ := e
    obtain ⟨hv, hm⟩ := List.forall_mem_cons.1 hm
    rw [List.map_cons, setHead, StreamRow.ofStream_ofHead, StreamMap.find?_cons, StreamMap.insert]
    by_cases hks : k = s
    · rw [if_pos (decide_eq_true (hv.trans hks)), if_pos hks.symm, if_pos hks]
      rfl
    · rw [if_neg (fun hd => hks (hv.symm.trans (of_decide_eq_true hd))), if_neg (Ne.symm hks),
        if_neg hks, ih hm]
      rfl

/-- A commit at the end of the log, and the row of it at the end of its table. -/
theorem append (h : t.Records l) (layout : Layout) (c : Commit) :
    Records { t with
      commits := t.commits ++ [CommitRow.ofCommit layout c]
      streams := setHead c.stream c.revision t.streams
      lastRow := c.checkpoint } (l.append c) where
  commits := by
    obtain ⟨ws, hrows, hlog⟩ := h.commits
    refine ⟨ws ++ [(layout, c)], ?_, ?_⟩
    · show t.commits ++ _ = _
      rw [hrows, List.map_append]
      rfl
    · rw [Ledger.append, hlog, List.map_append]
      rfl
  lastRow := rfl
  streams := by
    rw [h.streams]
    exact setHead_eq h.named c.stream c.revision
  snapshots := h.snapshots
  keyed := h.keyed.insert
  named := StreamMap.forall_mem_insert h.named <| by
    show ((l.heads.find? c.stream).getD _).stream = c.stream
    cases hf : l.heads.find? c.stream with
    | none => rfl
    | some head => exact h.stream_of_find? hf

/-- A snapshot at a revision is looked for among the rows of snapshots. -/
theorem any_snapshots (h : t.Records l) (s : StreamId) (n : Nat) :
    (t.snapshots.any fun r => r.ofStream s && r.revision.same (.integer n))
      = (l.snapshotsOf s).any (·.revision = n) := by
  obtain ⟨ws, hrows, hsnapshots⟩ := h.ofSnapshots s
  rw [← List.any_filter, hrows, hsnapshots, List.any_map, List.any_map]
  congr 1
  funext w
  show (Cell.integer w.2.revision).same (.integer n) = decide (w.2.revision = n)
  rw [Cell.same_integer, decide_eq_decide]
  exact Int.ofNat_inj

/-- An attempt under a new id is checked against the head of the ledger. -/
theorem append_of_new (h : t.Records l) (hk : l.Kept) (layout : Layout) {a : Attempt}
    (hwords : ∀ c ∈ l.ofStream a.stream, c.sequence ≤ maxRevision ∧ c.revision ≤ maxRevision)
    (hid : ∀ c ∈ l.ofStream a.stream, c.id ≠ a.id) :
    t.append layout a = (a.validate (l.headOf a.stream).1 (l.headOf a.stream).2).bind
      fun _ => t.insert layout a := by
  obtain ⟨hsequence, hrevision⟩ := h.greatest_eq hk a.stream
  obtain ⟨hs, hr⟩ := hk.headOf_le hwords
  have hfind : (t.ofStream a.stream).find? (·.id.same (.text a.id.digits)) = none := by
    obtain ⟨ws, hrows, hcommits⟩ := h.ofStream a.stream
    rw [hrows, List.find?_eq_none]
    intro r hr
    obtain ⟨w, hw, rfl⟩ := List.mem_map.1 hr
    have hne := hid w.2 (hcommits ▸ List.mem_map_of_mem hw)
    show ¬ (Cell.text w.2.id.digits).same (.text a.id.digits) = true
    rw [Cell.same_text, decide_eq_true_eq, CommitId.digits_inj]
    exact hne
  rw [Tables.append, hfind]
  simp only [hsequence, hrevision, wordOf_integer _ hs, wordOf_integer _ hr, bind, Except.bind,
    Cell.asInteger_integer]

/-- An attempt under the next sequence and a new id finds its key free: it is inserted, unless the
row numbers have run out. -/
theorem insert_eq (h : t.Records l) (hk : l.Kept) (layout : Layout) {a : Attempt}
    (hid : ∀ c ∈ l.ofStream a.stream, c.id ≠ a.id)
    (hseq : a.sequence = (l.ofStream a.stream).length + 1) :
    t.insert layout a = if maxRow < t.nextRow then .error .database else
      .ok (a.floored.confirm t.nextRow, { t with
        commits := t.commits ++ [CommitRow.ofCommit layout (a.floored.confirm t.nextRow)]
        streams := setHead a.stream a.revision t.streams
        lastRow := t.nextRow }) := by
  have hfree : ((t.ofStream a.stream).any fun r =>
      r.sequence.same (.integer a.sequence) || r.id.same (.text a.id.digits)) = false := by
    obtain ⟨ws, hrows, hcommits⟩ := h.ofStream a.stream
    rw [hrows, List.any_map, List.any_eq_false]
    intro w hw
    have hc : w.2 ∈ l.ofStream a.stream := hcommits ▸ List.mem_map_of_mem hw
    have hle := ((hk.history a.stream).sequence_le hc).2
    have hne := hid w.2 hc
    show ¬ ((Cell.integer w.2.sequence).same (.integer a.sequence)
      || (Cell.text w.2.id.digits).same (.text a.id.digits)) = true
    rw [Cell.same_integer, Cell.same_text, Bool.or_eq_true, decide_eq_true_eq, decide_eq_true_eq,
      CommitId.digits_inj]
    rintro (he | he)
    · omega
    · exact hne he
  rw [Tables.insert]
  simp only [hfree, Bool.false_eq_true, if_false]
  rfl

/-- A snapshot at the end of its table, and in the row of its stream. -/
theorem record (h : t.Records l) (layout : Layout) {u : Snapshot} {head : StreamHead}
    (hf : l.heads.find? u.stream = some head) (n : Nat) :
    Records { t with
      snapshots := t.snapshots ++ [SnapshotRow.ofSnapshot layout u]
      streams := t.streams.map fun r =>
        if r.ofStream u.stream then { r with snapshot := .integer n } else r }
      { l with
        snapshots := l.snapshots.insert u.stream (l.snapshotsOf u.stream ++ [u])
        heads := l.heads.insert u.stream { head with snapshot := n } } where
  commits := h.commits
  lastRow := h.lastRow
  streams := by
    show t.streams.map _ = _
    rw [h.streams, StreamMap.insert_eq_map h.keyed hf, List.map_map, List.map_map]
    refine List.map_congr_left fun e he => ?_
    have hkey := h.named e he
    rw [Function.comp, Function.comp, StreamRow.ofStream_ofHead, hkey]
    by_cases hs : e.1 = u.stream
    · have hvalue := StreamMap.find?_of_mem h.keyed he
      rw [hs, hf] at hvalue
      rw [if_pos (decide_eq_true hs), if_pos hs, ← Option.some.inj hvalue]
      rfl
    · rw [if_neg (fun hd => hs (of_decide_eq_true hd)), if_neg hs]
  snapshots := by
    obtain ⟨ws, hrows, hof⟩ := h.snapshots
    refine ⟨ws ++ [(layout, u)], ?_, fun s => ?_⟩
    · show t.snapshots ++ _ = _
      rw [hrows, List.map_append]
      rfl
    · rw [List.map_append, List.filter_append, hof, Ledger.snapshotsOf_insert]
      by_cases hs : u.stream = s <;> simp [hs]
  keyed := h.keyed.insert
  named := StreamMap.forall_mem_insert h.named <| by
    show head.stream = u.stream
    exact h.stream_of_find? hf

/-- What a snapshot can meet, of a stream whose name can stand in a statement and whose commits are
numbered in words: it is turned away from the tables and from the ledger, or recorded in both. -/
theorem addSnapshot_cases (h : t.Records l) (hk : l.Kept) (layout : Layout) {u : Snapshot}
    (hname : u.stream.quotable = true)
    (hwords : ∀ c ∈ l.ofStream u.stream, c.sequence ≤ maxRevision ∧ c.revision ≤ maxRevision) :
    (t.addSnapshot layout u = (.ok false, t) ∧ l.addSnapshot u = (false, l)) ∨
    ∃ (head : StreamHead) (n : Nat), l.heads.find? u.stream = some head ∧
      t.addSnapshot layout u = (.ok true, { t with
        snapshots := t.snapshots ++ [SnapshotRow.ofSnapshot layout u]
        streams := t.streams.map fun r =>
          if r.ofStream u.stream then { r with snapshot := .integer n } else r }) ∧
      l.addSnapshot u = (true, { l with
        snapshots := l.snapshots.insert u.stream (l.snapshotsOf u.stream ++ [u])
        heads := l.heads.insert u.stream { head with snapshot := n } }) := by
  rw [Tables.addSnapshot, if_pos hname, Ledger.addSnapshot, h.find?_streams]
  cases hf : l.heads.find? u.stream with
  | none => exact .inl ⟨rfl, rfl⟩
  | some head =>
    have hany := h.any_snapshots u.stream u.revision
    obtain ⟨hsnapshot, hhead⟩ := hk.head_le hwords hf
    simp only [Option.map_some, StreamRow.revisions_ofHead hhead (hsnapshot.trans hhead), hany,
      Ledger.snapshotsOf]
    split
    · exact .inl ⟨rfl, rfl⟩
    split
    · exact .inl ⟨rfl, rfl⟩
    · exact .inr ⟨head, _, rfl, rfl, rfl⟩

/-- The latest of some rows is the row of the latest snapshot. -/
theorem latestRow_map (ws : List (Layout × Snapshot)) : ∃ found : Option (Layout × Snapshot),
    latestRow (ws.map snapshotRowOf) = found.map snapshotRowOf ∧
      Ledger.latest (ws.map (·.2)) = found.map (·.2) := by
  induction ws with
  | nil => exact ⟨none, rfl, rfl⟩
  | cons w ws ih =>
    obtain ⟨found, hrow, hlatest⟩ := ih
    rw [List.map_cons, List.map_cons, latestRow, hrow, Ledger.latest, hlatest]
    cases found with
    | none => exact ⟨some w, rfl, rfl⟩
    | some v =>
      refine ⟨some (if v.2.revision < w.2.revision then w else v), ?_, ?_⟩
      · show some (if (Cell.integer v.2.revision).before (.integer w.2.revision) then _ else _) = _
        rw [Cell.before_integer]
        by_cases hvw : v.2.revision < w.2.revision
        · rw [if_pos hvw, if_pos (by simpa using hvw)]
          rfl
        · rw [if_neg hvw, if_neg (by simpa using hvw)]
          rfl
      · by_cases hvw : v.2.revision < w.2.revision <;> simp [hvw]

/-- The row of the latest snapshot is the one that is read. -/
theorem snapshot_cases (h : t.Records l) (hk : l.Kept) {s : StreamId} (hname : s.quotable = true)
    (last : Nat) : (l.snapshot s last = none ∧ t.snapshot s last = .ok none) ∨
      ∃ (layout : Layout) (u : Snapshot), u ∈ l.snapshotsOf s ∧ u.stream = s ∧
        l.snapshot s last = some u ∧
        t.snapshot s last = ((SnapshotRow.ofSnapshot layout u).decode u.stream).map some := by
  obtain ⟨ws, hrows, hsnapshots⟩ := h.ofSnapshots s
  have hfilter : t.snapshots.filter (fun r => r.ofStream s && r.revision.atMost (.integer last))
      = (ws.filter (·.2.revision ≤ last)).map snapshotRowOf := by
    have hand : (fun r : SnapshotRow => r.ofStream s && r.revision.atMost (.integer last))
        = fun r => r.revision.atMost (.integer last) && r.ofStream s :=
      funext fun r => Bool.and_comm ..
    rw [hand, ← List.filter_filter, hrows, List.filter_map]
    congr 1
    refine List.filter_congr fun w _ => ?_
    show (Cell.integer w.2.revision).atMost (.integer last) = _
    rw [Cell.atMost_integer]
    exact decide_eq_decide.2 Int.ofNat_le
  have hof : (l.snapshotsOf s).filter (·.revision ≤ last)
      = (ws.filter (·.2.revision ≤ last)).map (·.2) := by
    rw [hsnapshots, List.filter_map]
    rfl
  obtain ⟨found, hrow, hlatest⟩ := latestRow_map (ws.filter (·.2.revision ≤ last))
  rw [← hof] at hlatest
  rw [Tables.snapshot, if_pos hname, Ledger.snapshot, ← Ledger.snapshotsOf, hlatest]
  simp only [hfilter, hrow]
  cases found with
  | none => exact .inl ⟨rfl, rfl⟩
  | some w =>
    have hmem : w.2 ∈ l.snapshotsOf s := List.mem_of_mem_filter (Ledger.mem_of_latest hlatest)
    obtain ⟨hstream, -⟩ := (hk.snapshots s).2 w.2 hmem
    exact .inr ⟨w.1, w.2, hmem, hstream, rfl, hstream ▸ rfl⟩

/-- The latest snapshot is read back from its row. -/
theorem snapshot_eq (h : t.Records l) (hk : l.Kept) {s : StreamId} (hname : s.quotable = true)
    (hstorable : ∀ u ∈ l.snapshotsOf s, u.Storable) (last : Nat) :
    t.snapshot s last = .ok (l.snapshot s last) := by
  obtain ⟨hl, ht⟩ | ⟨layout, u, hu, -, hl, ht⟩ := h.snapshot_cases hk hname last <;> rw [hl, ht]
  rw [SnapshotRow.decode_ofSnapshot (hstorable u hu)]
  rfl

/-- Streams in need of a snapshot are found and read back. -/
theorem streamsToSnapshot_eq (h : t.Records l) (hk : l.Kept)
    (hwords : ∀ s, ∀ c ∈ l.ofStream s, c.sequence ≤ maxRevision ∧ c.revision ≤ maxRevision)
    {tenant : String} (hname : quotable tenant = true) (threshold : Nat) :
    t.streamsToSnapshot tenant threshold = (l.streamsToSnapshot tenant threshold).map .ok := by
  have hheads : ∀ head ∈ l.heads.map (·.2),
      head.snapshot ≤ head.head ∧ head.head ≤ maxRevision := by
    intro head hhead
    obtain ⟨e, he, rfl⟩ := List.mem_map.1 hhead
    exact hk.head_le (hwords e.1) (StreamMap.find?_of_mem h.keyed he)
  have hstreams : t.streams = (l.heads.map (·.2)).map StreamRow.ofHead := by
    rw [h.streams, List.map_map]
    rfl
  rw [Tables.streamsToSnapshot, if_pos hname, Ledger.streamsToSnapshot, hstreams]
  generalize l.heads.map (·.2) = heads at hheads
  have hwanted : ∀ head ∈ heads, ((StreamRow.ofHead head).ofTenant tenant
      && ((StreamRow.ofHead head).head.sub? (StreamRow.ofHead head).snapshot).any
        fun n => (Cell.integer threshold).before n)
      = (decide (head.stream.tenant = tenant) && decide (threshold < head.unsnapshotted)) := by
    intro head hhead
    obtain ⟨hsnapshot, hmax⟩ := hheads head hhead
    show (_ && ((Cell.integer head.head).sub? (.integer head.snapshot)).any _) = _
    rw [StreamRow.ofTenant_ofHead, Cell.sub?_words hmax (hsnapshot.trans hmax), Option.any_some,
      Cell.before_integer]
    congr 1
    rw [decide_eq_decide, StreamHead.unsnapshotted]
    omega
  have hfilter : (heads.map StreamRow.ofHead).filter (fun r =>
      r.ofTenant tenant && (r.head.sub? r.snapshot).any fun n => (Cell.integer threshold).before n)
      = (heads.filter fun head =>
        head.stream.tenant = tenant && threshold < head.unsnapshotted).map StreamRow.ofHead := by
    rw [List.filter_map]
    congr 1
    exact List.filter_congr hwanted
  rw [hfilter, ← List.map_mergeSort, List.map_map]
  · refine List.map_congr_left fun head hhead => ?_
    obtain ⟨hsnapshot, hmax⟩ := hheads head (List.mem_of_mem_filter (List.mem_mergeSort.1 hhead))
    exact StreamRow.decode_ofHead hmax (hsnapshot.trans hmax)
  · intro a _ b _
    exact Cell.atMost_text.symm

/-- Rows that belong to streams that are not to stay are deleted from all three tables. -/
theorem retain (h : t.Records l) (keep : StreamId → Bool) {p : CommitRow → Bool}
    {q : StreamRow → Bool} {r : SnapshotRow → Bool}
    (hp : ∀ layout c, p (.ofCommit layout c) = keep c.stream)
    (hq : ∀ head, q (.ofHead head) = keep head.stream)
    (hr : ∀ layout u, r (.ofSnapshot layout u) = keep u.stream) :
    Records { t with
      commits := t.commits.filter p
      streams := t.streams.filter q
      snapshots := t.snapshots.filter r } (l.retain keep) where
  commits := by
    obtain ⟨ws, hrows, hlog⟩ := h.commits
    refine ⟨ws.filter fun w => keep w.2.stream, ?_, ?_⟩
    · show t.commits.filter p = _
      rw [hrows, List.filter_map]
      congr 1
      exact List.filter_congr fun w _ => hp w.1 w.2
    · rw [Ledger.retain, hlog, List.filter_map]
      rfl
  lastRow := h.lastRow
  streams := by
    show t.streams.filter q = _
    rw [h.streams, List.filter_map]
    congr 1
    exact List.filter_congr fun e he => (hq e.2).trans (congrArg keep (h.named e he))
  snapshots := by
    obtain ⟨ws, hrows, hof⟩ := h.snapshots
    refine ⟨ws.filter fun w => keep w.2.stream, ?_, fun s => ?_⟩
    · show t.snapshots.filter r = _
      rw [hrows, List.filter_map]
      congr 1
      exact List.filter_congr fun w _ => hr w.1 w.2
    · have hkeep : (ws.filter fun w => keep w.2.stream).map (·.2)
          = (ws.map (·.2)).filter fun u => keep u.stream := by
        rw [List.filter_map]
        rfl
      rw [hkeep, List.filter_filter, Ledger.snapshotsOf_retain, ← hof]
      split <;> rename_i hs
      · refine List.filter_congr fun u _ => ?_
        by_cases hu : u.stream = s <;> simp [hu, hs]
      · refine List.filter_eq_nil_iff.2 fun u _ => ?_
        by_cases hu : u.stream = s <;> simp [hu, hs]
  keyed := h.keyed.keep keep
  named e he := h.named e (List.mem_of_mem_filter he)

theorem dropTenant (h : t.Records l) (tenant : String) :
    (t.dropTenant tenant).Records (l.retain (·.tenant ≠ tenant)) :=
  h.retain _ (fun _ _ => by simp) (fun _ => by simp) (fun _ _ => by simp)

theorem dropStream (h : t.Records l) (s : StreamId) :
    (t.dropStream s).Records (l.retain (· ≠ s)) :=
  h.retain _ (fun _ _ => by simp) (fun _ => by simp) (fun _ _ => by simp)

theorem clear (h : t.Records l) : t.clear.Records l.clear :=
  { empty with lastRow := h.lastRow }

end Records
end Tables
end EventSourcing
