import EventSourcing.Proofs.Records

/-!
# Tables hold ledgers

`Tables.Holds layout t l` says that the tables `t` are the ledger `l` written down: a row for each
commit of the log, in its order, a row for each head, and a row for each snapshot; the greatest row
number given out is the last checkpoint. Every operation answers the same on both and leaves tables
that hold the new ledger. The two compute the answers differently. The head of a stream is found as
the greatest sequence and the greatest revision of its rows, which are those of its last commit
because both ascend (`Tables.Records.greatest_eq`); the next checkpoint is found from the row
numbers; and a statement over all rows of a table takes the place of a look-up by stream.
-/

namespace EventSourcing

namespace Tables

/-- The tables are a ledger written down. -/
structure Holds (layout : Layout) (t : Tables) (l : Ledger) : Prop where
  commits : t.commits = l.log.map (CommitRow.ofCommit layout)
  lastRow : t.lastRow = l.lastCheckpoint
  streams : t.streams = l.heads.map fun e => StreamRow.ofHead e.2
  snapshots : ∃ ss : List Snapshot, t.snapshots = ss.map (SnapshotRow.ofSnapshot layout) ∧
    (∀ s, ss.filter (·.stream = s) = l.snapshotsOf s) ∧ ∀ u ∈ ss, u.Storable
  keyed : l.heads.Keyed
  named : ∀ e ∈ l.heads, e.2.stream = e.1
  stored : ∀ c ∈ l.log, c.Stored

namespace Holds

variable {layout : Layout} {t : Tables} {l : Ledger} {a : Attempt} {s : StreamId}

theorem empty : Holds layout {} {} where
  commits := rfl
  lastRow := rfl
  streams := rfl
  snapshots := ⟨[], rfl, fun _ => rfl, fun _ h => absurd h List.not_mem_nil⟩
  keyed := List.nodup_nil
  named _ h := absurd h List.not_mem_nil
  stored _ h := absurd h List.not_mem_nil

theorem ofStream_eq (h : Holds layout t l) (s : StreamId) :
    t.ofStream s = (l.ofStream s).map (CommitRow.ofCommit layout) := by
  rw [Tables.ofStream, h.commits, List.filter_map, Ledger.ofStream]
  congr 1
  exact List.filter_congr fun c _ => CommitRow.ofStream_ofCommit

/-- Tables that hold a ledger record it, all in one layout. -/
theorem records (h : Holds layout t l) : t.Records l where
  commits := ⟨l.log.map (layout, ·), by rw [h.commits, List.map_map]; rfl,
    by rw [List.map_map]; exact (List.map_id _).symm⟩
  lastRow := h.lastRow
  streams := h.streams
  snapshots := by
    obtain ⟨ss, hss, hof, -⟩ := h.snapshots
    refine ⟨ss.map (layout, ·), by rw [hss, List.map_map]; rfl, fun s => ?_⟩
    rw [List.map_map, ← hof]
    exact congrArg (List.filter _) (List.map_id ss)
  keyed := h.keyed
  named := h.named

/-- A commit at the end of the log, and the row of it at the end of its table. -/
theorem append (h : Holds layout t l) {c : Commit} (hc : c.Stored) :
    Holds layout { t with
      commits := t.commits ++ [CommitRow.ofCommit layout c]
      streams := setHead c.stream c.revision t.streams
      lastRow := c.checkpoint } (l.append c) :=
  { h.records.append layout c with
    commits := by
      rw [h.commits, Ledger.append, List.map_append]
      rfl
    snapshots := h.snapshots
    stored := fun d hd => by
      rcases List.mem_append.1 hd with hd | hd
      · exact h.stored d hd
      · rw [List.mem_singleton.1 hd]
        exact hc }

/-- The commits of a stream are numbered in words. -/
theorem words (h : Holds layout t l) (s : StreamId) :
    ∀ c ∈ l.ofStream s, c.sequence ≤ maxRevision ∧ c.revision ≤ maxRevision := fun c hc =>
  have hstored := h.stored c (Ledger.mem_ofStream.1 hc).1
  ⟨hstored.sequence_le, hstored.revision_le⟩

/-- An id is looked for among the digits of the rows. -/
theorem find?_eq (h : Holds layout t l) (a : Attempt) :
    (t.ofStream a.stream).find? (·.id.same (.text a.id.digits))
      = ((l.ofStream a.stream).find? (·.id = a.id)).map (CommitRow.ofCommit layout) := by
  rw [h.ofStream_eq, List.find?_map]
  congr 2
  funext c
  show (Cell.text c.id.digits).same (.text a.id.digits) = _
  rw [Cell.same_text, decide_eq_decide, CommitId.digits_inj]

/-- An attempt that fits is inserted under the next checkpoint. -/
theorem insert_eq (h : Holds layout t l) (hk : l.Kept) (h0 : 0 ≤ l.lastCheckpoint)
    (hrow : l.lastCheckpoint < maxRow)
    (hid : ∀ c ∈ l.ofStream a.stream, c.id ≠ a.id)
    (hfits : a.validate (l.headOf a.stream).1 (l.headOf a.stream).2 = .ok ()) :
    t.insert layout a = .ok (a.floored.confirm (l.lastCheckpoint + 1), { t with
      commits := t.commits
        ++ [CommitRow.ofCommit layout (a.floored.confirm (l.lastCheckpoint + 1))]
      streams := setHead a.stream a.revision t.streams
      lastRow := l.lastCheckpoint + 1 }) := by
  rw [Attempt.validate_eq_ok_iff, Attempt.verdict_eq_fits_iff, hk.headOf_eq] at hfits
  rw [h.records.insert_eq hk layout hid hfits.1, h.records.nextRow_eq hk h0, if_neg (by omega)]

/-- **Attempts.**  An attempt is answered from the rows of its stream as it is from the log. -/
theorem commit (h : Holds layout t l) (hk : l.Kept) (h0 : 0 ≤ l.lastCheckpoint)
    (hrow : l.lastCheckpoint < maxRow) (ha : a.Storable) (hname : a.stream.quotable = true) :
    (t.commit layout a).1 = (l.commit a.floored).1 ∧
      Holds layout (t.commit layout a).2 (l.commit a.floored).2 := by
  have hfind : (l.streamCommits a.floored.stream).find? (·.id = a.floored.id)
      = (l.ofStream a.stream).find? (·.id = a.id) := by
    rw [hk.streamCommits_eq]
    rfl
  have hvalidate : a.floored.validate (l.headOf a.floored.stream).1 (l.headOf a.floored.stream).2
      = a.validate (l.headOf a.stream).1 (l.headOf a.stream).2 := rfl
  rw [Tables.commit, if_pos hname]
  cases hd : (l.ofStream a.stream).find? (·.id = a.id) with
  | some c =>
    have hc := h.stored c (Ledger.mem_ofStream.1 (List.mem_of_find?_eq_some hd)).1
    have happend : t.append layout a = .error (.duplicate c) := by
      rw [Tables.append, h.find?_eq, hd]
      simp only [Option.map_some, hc.decode]
      rfl
    have hl : l.commit a.floored = (.error (.duplicate c), l) := by
      rw [Ledger.commit, hfind, hd]
    rw [happend, hl]
    exact ⟨rfl, h⟩
  | none =>
    have hid : ∀ c ∈ l.ofStream a.stream, c.id ≠ a.id := fun c hc => by
      simpa using List.find?_eq_none.1 hd c hc
    rw [h.records.append_of_new hk layout (h.words a.stream) hid]
    cases hv : a.validate (l.headOf a.stream).1 (l.headOf a.stream).2 with
    | error e =>
      have hl : l.commit a.floored = (.error e, l) := by
        simp only [Ledger.commit, hfind, hd, hvalidate, hv]
      rw [hl]
      exact ⟨rfl, h⟩
    | ok _ =>
      have hl : l.commit a.floored = (.ok (some (a.floored.confirm (l.lastCheckpoint + 1))),
          l.append (a.floored.confirm (l.lastCheckpoint + 1))) := by
        simp only [Ledger.commit, hfind, hd, hvalidate, hv]
      rw [hl, Except.bind, h.insert_eq hk h0 hrow hid hv]
      exact ⟨rfl, h.append ⟨a, ha, rfl⟩⟩

/-- A snapshot at the end of its table, and in the row of its stream. -/
theorem record (h : Holds layout t l) {u : Snapshot} (hu : u.Storable) {head : StreamHead}
    (hf : l.heads.find? u.stream = some head) (n : Nat) :
    Holds layout { t with
      snapshots := t.snapshots ++ [SnapshotRow.ofSnapshot layout u]
      streams := t.streams.map fun r =>
        if r.ofStream u.stream then { r with snapshot := .integer n } else r }
      { l with
        snapshots := l.snapshots.insert u.stream (l.snapshotsOf u.stream ++ [u])
        heads := l.heads.insert u.stream { head with snapshot := n } } :=
  { h.records.record layout hf n with
    commits := h.commits
    snapshots := by
      obtain ⟨ss, hss, hof, hstorable⟩ := h.snapshots
      refine ⟨ss ++ [u], ?_, fun s => ?_, ?_⟩
      · show t.snapshots ++ _ = _
        rw [hss, List.map_append]
        rfl
      · rw [List.filter_append, hof, Ledger.snapshotsOf_insert]
        by_cases hs : u.stream = s <;> simp [hs]
      · intro v hv
        rcases List.mem_append.1 hv with hv | hv
        · exact hstorable v hv
        · rw [List.mem_singleton.1 hv]
          exact hu
    stored := h.stored }

/-- **Snapshots.**  A snapshot is recorded in the tables if it is in the ledger. -/
theorem addSnapshot (h : Holds layout t l) (hk : l.Kept) {u : Snapshot} (hu : u.Storable)
    (hname : u.stream.quotable = true) :
    (t.addSnapshot layout u).1 = .ok (l.addSnapshot u).1 ∧
      Holds layout (t.addSnapshot layout u).2 (l.addSnapshot u).2 := by
  obtain ⟨ht, hl⟩ | ⟨head, n, hf, ht, hl⟩ :=
    h.records.addSnapshot_cases hk layout hname (h.words u.stream) <;> rw [ht, hl]
  · exact ⟨rfl, h⟩
  · exact ⟨rfl, h.record hu hf n⟩

/-- The latest snapshot is read back from its row. -/
theorem snapshot_eq (h : Holds layout t l) (hk : l.Kept) (hname : s.quotable = true) (last : Nat) :
    t.snapshot s last = .ok (l.snapshot s last) := by
  obtain ⟨ss, -, hof, hstorable⟩ := h.snapshots
  refine h.records.snapshot_eq hk hname (fun u hu => ?_) last
  rw [← hof] at hu
  exact hstorable u (List.mem_of_mem_filter hu)

/-- Rows that belong to streams that are not to stay are deleted from all three tables. -/
theorem retain (h : Holds layout t l) (keep : StreamId → Bool) {p : CommitRow → Bool}
    {q : StreamRow → Bool} {r : SnapshotRow → Bool}
    (hp : ∀ layout c, p (.ofCommit layout c) = keep c.stream)
    (hq : ∀ head, q (.ofHead head) = keep head.stream)
    (hr : ∀ layout u, r (.ofSnapshot layout u) = keep u.stream) :
    Holds layout { t with
      commits := t.commits.filter p
      streams := t.streams.filter q
      snapshots := t.snapshots.filter r } (l.retain keep) :=
  { h.records.retain keep hp hq hr with
    commits := by
      show t.commits.filter p = _
      rw [h.commits, List.filter_map]
      congr 1
      exact List.filter_congr fun c _ => hp layout c
    snapshots := by
      obtain ⟨ss, hss, hof, hstorable⟩ := h.snapshots
      refine ⟨ss.filter fun u => keep u.stream, ?_, fun s => ?_, fun u hu => ?_⟩
      · show t.snapshots.filter r = _
        rw [hss, List.filter_map]
        congr 1
        exact List.filter_congr fun u _ => hr layout u
      · rw [List.filter_filter, Ledger.snapshotsOf_retain, ← hof]
        split <;> rename_i hs
        · refine List.filter_congr fun u _ => ?_
          by_cases hu : u.stream = s <;> simp [hu, hs]
        · refine List.filter_eq_nil_iff.2 fun u _ => ?_
          by_cases hu : u.stream = s <;> simp [hu, hs]
      · exact hstorable u (List.mem_of_mem_filter hu)
    stored := fun c hc => h.stored c (List.mem_of_mem_filter hc) }

theorem dropTenant (h : Holds layout t l) (tenant : String) :
    Holds layout (t.dropTenant tenant) (l.retain (·.tenant ≠ tenant)) :=
  h.retain _ (fun _ _ => by simp) (fun _ => by simp) (fun _ _ => by simp)

theorem dropStream (h : Holds layout t l) (s : StreamId) :
    Holds layout (t.dropStream s) (l.retain (· ≠ s)) :=
  h.retain _ (fun _ _ => by simp) (fun _ => by simp) (fun _ _ => by simp)

theorem clear (h : Holds layout t l) : Holds layout t.clear l.clear :=
  { empty with lastRow := h.lastRow }

end Holds
end Tables
end EventSourcing
