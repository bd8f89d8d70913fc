import EventSourcing.Proofs.JsonExtent
import EventSourcing.Proofs.ReadBack

/-!
# The order of rows

Rows are inserted in the order of their checkpoints, and the rows of one stream in the order of
their sequences. Rows are only ever appended or taken out, so this is so whatever ran before
(`Database.ordered_after`).

A row that can be read need not give back the commit it was written for, since its records may have
changed on the way. But everything that a query looks at is kept: the stream, the numbers, the stamp
in whole microseconds, and the number of events (`CommitRow.readAs_of_decode`). So a query sees
readable rows as their commits (`Tables.InOrder.sees`).
-/

namespace EventSourcing

section Reading

theorem Event.length_of_mapM {items : List Json} {events : List Event}
    (h : items.mapM ofJson? = some events) : events.length = items.length := by
  induction items generalizing events with
  | nil =>
    cases h
    rfl
  | cons item items ih =>
    rw [List.mapM_cons] at h
    obtain ⟨e, -, h⟩ := Option.bind_eq_some_iff.1 h
    obtain ⟨es, hes, h⟩ := Option.bind_eq_some_iff.1 h
    cases h
    exact congrArg (· + 1) (ih hes)

/-- Events that are read at all are as many as were written. -/
theorem Event.length_of_recordOf {layout : Layout} {events found : List Event}
    (h : recordOf listCodec (serialize listCodec layout events) = .ok found) :
    found.length = events.length := by
  rw [recordOf, deserialize, readJson, serialize, Utf8.decode_encode] at h
  simp only at h
  cases hread : Json.read ((listCodec.write events).text layout) with
  | error e =>
    rw [hread] at h
    cases h
  | ok w =>
    obtain ⟨items, rfl, hlength⟩ := Json.read_array_length hread
    rw [hread] at h
    simp only at h
    cases hitems : listCodec.read? (.array items) with
    | none =>
      rw [hitems] at h
      cases h
    | some found' =>
      rw [hitems] at h
      cases h
      rw [length_of_mapM hitems, hlength, List.length_map]

/-- What the row of a commit and the commit that is read from it have in common. -/
structure Commit.ReadAs (c d : Commit) : Prop where
  stream : d.stream = c.stream
  sequence : d.sequence = c.sequence
  revision : d.revision = c.revision
  checkpoint : d.checkpoint = c.checkpoint
  stamp : d.stamp = .ofMicros c.stamp.micros
  length : d.events.length = c.events.length
  revision_le : d.revision ≤ maxRevision

theorem Cell.asInteger_eq_ok {cell : Cell} {n : Int} (h : cell.asInteger = .ok n) :
    cell = .integer n := by
  match cell with
  | .number (.integer m) => rw [Except.ok.inj h, integer]
  | .number (.real x) | .text s | .bytes bs => cases h

theorem wordOf_le {column : String} {c : Cell} {n : Nat} (h : wordOf column c = .ok n) :
    n ≤ maxRevision := by
  obtain ⟨m, -, h⟩ := exists_of_bind h
  split at h
  · cases h
    omega
  · cases h

theorem stampOf_eq_ok {n : Int} {t : Stamp} (h : stampOf (.integer n) = .ok t) :
    t = .ofMicros n := by
  obtain ⟨m, hm, h⟩ := exists_of_bind h
  obtain rfl : n = m := Except.ok.inj hm
  cases ht : Stamp.ofMicros? n with
  | none =>
    rw [ht] at h
    cases h
  | some u =>
    rw [ht] at h
    obtain rfl : u = t := Except.ok.inj h
    unfold Stamp.ofMicros? at ht
    split at ht
    · exact (Option.some.inj ht).symm
    · cases ht

/-- A row that can be read stands where its commit stands. -/
theorem CommitRow.rowKey_of_decode {r : CommitRow} {d : Commit} (h : r.decode = .ok d) (q : Query) :
    q.rowKey r = q.commitKey d := by
  obtain ⟨_, -, h⟩ := exists_of_bind h
  obtain ⟨stamp, hstamp, h⟩ := exists_of_bind h
  obtain ⟨_, -, h⟩ := exists_of_bind h
  obtain ⟨_, -, h⟩ := exists_of_bind h
  obtain ⟨_, -, h⟩ := exists_of_bind h
  obtain ⟨_, -, h⟩ := exists_of_bind h
  obtain ⟨_, -, h⟩ := exists_of_bind h
  obtain ⟨sequence, hsequence, h⟩ := exists_of_bind h
  obtain ⟨_, -, h⟩ := exists_of_bind h
  obtain ⟨_, -, hd⟩ := exists_of_bind h
  obtain rfl := Except.ok.inj hd
  obtain ⟨n, hn, -⟩ := exists_of_bind hstamp
  obtain ⟨m, hm, -⟩ := exists_of_bind hsequence
  have hn := Cell.asInteger_eq_ok hn
  have hm := Cell.asInteger_eq_ok hm
  rw [hn] at hstamp
  rw [hm] at hsequence
  cases q with
  | revisions => rw [Query.rowKey, Query.commitKey, hm, Tables.wordOf_eq_ok hsequence]
  | after => rfl
  | during => rw [Query.rowKey, Query.commitKey, hn, stampOf_eq_ok hstamp, Stamp.micros_ofMicros]

theorem CommitRow.readAs_of_decode {layout : Layout} {c d : Commit}
    (h : (ofCommit layout c).decode = .ok d) : c.ReadAs d := by
  obtain ⟨id, -, h⟩ := exists_of_bind h
  obtain ⟨stamp, hstamp, h⟩ := exists_of_bind h
  obtain ⟨_, -, h⟩ := exists_of_bind h
  obtain ⟨payload, hpayload, h⟩ := exists_of_bind h
  obtain ⟨tenant, htenant, h⟩ := exists_of_bind h
  obtain ⟨stream, hstream, h⟩ := exists_of_bind h
  obtain ⟨revision, hrevision, h⟩ := exists_of_bind h
  obtain ⟨sequence, hsequence, h⟩ := exists_of_bind h
  obtain ⟨_, -, h⟩ := exists_of_bind h
  obtain ⟨events, hevents, hd⟩ := exists_of_bind h
  obtain rfl : serialize Event.listCodec layout c.events = payload := Except.ok.inj hpayload
  obtain rfl : c.stream.tenant = tenant := Except.ok.inj htenant
  obtain rfl : c.stream.stream = stream := Except.ok.inj hstream
  obtain rfl := Except.ok.inj hd
  exact
    { stream := rfl
      sequence := (Int.ofNat.inj (Tables.wordOf_eq_ok hsequence)).symm
      revision := (Int.ofNat.inj (Tables.wordOf_eq_ok hrevision)).symm
      checkpoint := rfl
      stamp := stampOf_eq_ok hstamp
      length := Event.length_of_recordOf hevents
      revision_le := wordOf_le hrevision }

end Reading

section Queries

variable {c d : Commit}

/-- A query selects the row that a commit is read from if the commit answers it. -/
theorem Commit.ReadAs.selects_eq (h : c.ReadAs d) (hne : c.events ≠ [])
    (hle : c.events.length ≤ c.revision) (q : Query) (layout : Layout) :
    q.selects (CommitRow.ofCommit layout c) = Ledger.answers q.floored d := by
  have hrow : q.selects (CommitRow.ofCommit layout c)
      = q.selects (CommitRow.ofCommit layout d) := by
    have hcolumns : CommitRow.ofCommit layout c = { CommitRow.ofCommit layout d with
        id := (CommitRow.ofCommit layout c).id
        sequence := (CommitRow.ofCommit layout c).sequence
        headers := (CommitRow.ofCommit layout c).headers
        payload := (CommitRow.ofCommit layout c).payload } := by
      simp only [CommitRow.ofCommit, h.stream, h.revision, h.checkpoint, h.stamp, h.length,
        Stamp.micros_ofMicros]
    rw [hcolumns]
    cases q <;> rfl
  have hpos : 0 < d.events.length := h.length ▸ List.length_pos_iff.2 hne
  rw [hrow, q.selects_ofCommit (List.ne_nil_of_length_pos hpos) ?_ h.revision_le ?_]
  · rw [h.length, h.revision]
    exact hle
  · rw [h.stamp, Stamp.micros_ofMicros]
    rfl

end Queries

/-- One commit is before another in the store, and before it in their stream if they have one. -/
def Commit.Precedes (c d : Commit) : Prop :=
  c.checkpoint < d.checkpoint ∧ (c.stream = d.stream → c.sequence < d.sequence)

namespace Tables

variable {rows : List CommitRow} {log : List Commit} {t t' : Tables} {layout : Layout} {a : Attempt}
  {c : Commit}

/-- Rows of commits with events, in the order of their checkpoints and, where they are of one
stream, of their sequences. -/
structure InOrder (rows : List CommitRow) : Prop where
  written : ∀ r ∈ rows, ∃ layout c, r = CommitRow.ofCommit layout c ∧ c.events ≠ [] ∧
    c.events.length ≤ c.revision
  checkpoints : rows.Pairwise fun r s => r.checkpoint < s.checkpoint
  sequences : rows.Pairwise fun r s => ∀ stream, r.ofStream stream = true →
    s.ofStream stream = true → r.sequence.before s.sequence = true

namespace InOrder

theorem nil : InOrder [] := ⟨fun _ hr => absurd hr List.not_mem_nil, .nil, .nil⟩

theorem sublist (h : InOrder rows) {kept : List CommitRow} (hkept : kept.Sublist rows) :
    InOrder kept where
  written r hr := h.written r (hkept.mem hr)
  checkpoints := h.checkpoints.sublist hkept
  sequences := h.sequences.sublist hkept

/-- An accepted attempt goes to the end of the order. -/
theorem accepts (h : InOrder t.commits) (haccepts : Accepts layout a t c t') (hne : a.events ≠ []) :
    InOrder t'.commits := by
  obtain ⟨hmax, hbefore, r, hrevision, -⟩ := haccepts.numbers fun r hr =>
    (h.written r hr).imp fun _ => Exists.imp fun _ => And.left
  have hc := haccepts.confirmed
  rw [haccepts.commits]
  refine ⟨fun r hr => ?_, List.pairwise_append.2 ⟨h.checkpoints, List.pairwise_singleton .., ?_⟩,
    List.pairwise_append.2 ⟨h.sequences, List.pairwise_singleton .., ?_⟩⟩
  · rcases List.mem_append.1 hr with hr | hr
    · exact h.written r hr
    · refine ⟨layout, c, List.mem_singleton.1 hr, hc ▸ hne, ?_⟩
      rw [hc]
      exact hrevision ▸ Nat.le_add_left ..
  · intro r hr s hs
    rw [List.mem_singleton.1 hs, hc]
    exact checkpoint_lt_nextRow hr
  · intro r hr s hs stream hrs hss
    obtain ⟨k, d, rfl, -, -⟩ := h.written r hr
    rw [List.mem_singleton.1 hs] at hss ⊢
    have hstream : c.stream = a.stream := congrArg (·.stream) hc
    have hsequence : c.sequence = a.sequence := congrArg (·.sequence) hc
    rw [CommitRow.ofStream_ofCommit, decide_eq_true_eq] at hss
    have hlt := hbefore k d (List.mem_filter.2 ⟨hr, by rw [← hstream, hss, hrs]⟩)
    show (Cell.integer d.sequence).before (.integer c.sequence) = true
    rw [Cell.before_integer, decide_eq_true_eq, hsequence]
    omega

/-- A query sees readable rows as their commits. -/
theorem sees (h : InOrder rows) (hread : ∀ r ∈ rows, r.decode = .ok r.commit) (q : Query) :
    q.Sees rows := by
  refine ⟨hread, fun r hr => ?_, fun r hr => ?_⟩ <;>
    obtain ⟨layout, c, rfl, hne, hle⟩ := h.written r hr <;>
    have hc := CommitRow.readAs_of_decode (hread _ hr)
  · exact CommitRow.rowKey_of_decode (hread _ hr) q
  · exact hc.selects_eq hne hle q layout

/-- The commits of readable rows are in the order of their rows. -/
theorem pairwise_commit (h : InOrder rows) (hread : ∀ r ∈ rows, r.decode = .ok r.commit) :
    (rows.map CommitRow.commit).Pairwise Commit.Precedes := by
  refine List.pairwise_map.2 ((h.checkpoints.and h.sequences).imp_of_mem ?_)
  intro r s hr hs hrs
  obtain ⟨hcheckpoint, hsequence⟩ := hrs
  obtain ⟨k, c, rfl, -, -⟩ := h.written r hr
  obtain ⟨l, d, rfl, -, -⟩ := h.written s hs
  have hc := CommitRow.readAs_of_decode (hread _ hr)
  have hd := CommitRow.readAs_of_decode (hread _ hs)
  rw [Commit.Precedes, hc.checkpoint, hd.checkpoint, hc.stream, hd.stream, hc.sequence,
    hd.sequence]
  refine ⟨hcheckpoint, fun hstream => ?_⟩
  have hlt := hsequence c.stream (by rw [CommitRow.ofStream_ofCommit, decide_eq_true rfl])
    (by rw [CommitRow.ofStream_ofCommit, hstream, decide_eq_true rfl])
  have hlt : (Cell.integer c.sequence).before (.integer d.sequence) = true := hlt
  rw [Cell.before_integer, decide_eq_true_eq] at hlt
  omega

end InOrder
end Tables

namespace Database

/-- The rows of commits are in order, if there are tables. -/
def Ordered (db : Database) : Prop := ∀ t ∈ db, Tables.InOrder t.commits

variable {o : TableOptions} {db : Database} {a : Attempt}

theorem Ordered.commit (h : Ordered db) (o : TableOptions) (a : Attempt) :
    Ordered (Database.commit o a db).2 := by
  obtain ⟨-, he⟩ | ⟨t, c, t', rfl, hne, -, happend, he⟩ := commit_cases o a db
  · rw [he]
    exact h
  · rw [he]
    rintro u ⟨rfl⟩
    exact (h t rfl).accepts (Tables.accepts_of_append happend) hne

/-- Every operation keeps rows in order. -/
theorem Ordered.step (h : Ordered db) (o : TableOptions) (op : Operation) :
    Ordered (engine o op db).2 := by
  cases op with
  | commit a => exact h.commit o a
  | read | snapshot | streamsToSnapshot => exact h
  | setUp =>
    cases db with
    | none =>
      rintro u ⟨rfl⟩
      exact .nil
    | some t => exact h
  | dropStore => exact nofun
  | addSnapshot s =>
    cases db with
    | none => exact h
    | some t =>
      show Ordered (some (t.addSnapshot o.layout s).2)
      rintro u ⟨rfl⟩
      obtain ⟨-, he⟩ | ⟨-, -, hc, -⟩ := t.addSnapshot_cases o.layout s
      · rw [he]
        exact h t rfl
      · rw [hc]
        exact h t rfl
  | purge | deleteStream => exact forall_update h fun t ht => ht.sublist List.filter_sublist
  | purgeAll => exact forall_update h fun _ _ => .nil

theorem ordered_after (run : List (TableOptions × Operation)) : Ordered (after run) := by
  induction run using List.reverseRecOn with
  | nil => exact nofun
  | append_singleton run e ih =>
    rw [after, List.foldl_append]
    exact Ordered.step ih e.1 e.2

end Database
end EventSourcing
