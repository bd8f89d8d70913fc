import EventSourcing.Proofs.ReadBack
import EventSourcing.Proofs.Records
import EventSourcing.Tables.Overwrite

/-!
# The tables never disagree

The tables keep some numbers more than once: a row of commits counts its events beside holding them,
and the row of a stream tells the head and the latest snapshot that can be found in the other two
tables. `Tables.Tally t s` says that for a stream all of these agree. Its rows of commits follow one
another without gap from the first sequence and the first revision, each with the number of events
that its payload holds; and just if there are such rows there is one row of the stream, whose head
is the greatest revision and the number of all events, and whose snapshot is the greatest revision
of its snapshots.

Every operation leaves tables that record some ledger that is kept (`Database.Recorded.step`),
whatever it asks for: a refused one changes nothing, and an accepted one changes the tables as it
would the ledger. Since a ledger is kept, an attempt that passes the checks finds its keys free, so
no insert hits a key of another row (`Database.tables_agree`).
-/

namespace EventSourcing

theorem StreamId.eq_of {r s : StreamId} (ht : r.tenant = s.tenant) (hs : r.stream = s.stream) :
    r = s := by
  cases r
  cases s
  cases ht
  cases hs
  rfl

/-- What holds between any two items of one class that stand one before the other. -/
theorem pairwise_of_classes {α β : Type*} [DecidableEq β] {R : α → α → Prop} {f : α → β}
    {l : List α} (h : ∀ b, (l.filter (f · = b)).Pairwise R) :
    l.Pairwise fun x y => f x = f y → R x y := by
  refine List.pairwise_iff_forall_sublist.2 fun {x y} hxy heq => ?_
  have hsub := hxy.filter (f · = f y)
  rw [show [x, y].filter (f · = f y) = [x, y] by simp [heq]] at hsub
  exact List.pairwise_iff_forall_sublist.1 (h (f y)) hsub

namespace Tables

variable {t : Tables} {l : Ledger} {layout : Layout} {a : Attempt} {s : StreamId}

/-- Rows that follow one another from a sequence and a revision, each counting the events that its
payload holds. -/
def Follow : (sequence revision : Nat) → List CommitRow → Prop
  | _, _, [] => True
  | sequence, revision, r :: rs => ∃ (layout : Layout) (events : List Event), events ≠ [] ∧
    r.payload = .bytes (serialize Event.listCodec layout events) ∧
    r.items = .integer events.length ∧ r.sequence = .integer (sequence + 1 : Nat) ∧
    r.revision = .integer (revision + events.length : Nat) ∧
    Follow (sequence + 1) (revision + events.length) rs

theorem follow_of_continues {ws : List (Layout × Commit)} {m n : Nat}
    (h : Continues m n (ws.map (·.2))) : Follow m n (ws.map rowOf) := by
  induction ws generalizing m n with
  | nil => trivial
  | cons w ws ih =>
    obtain ⟨hne, hs, hr, hrest⟩ := h
    rw [hs, hr] at hrest
    refine ⟨w.1, w.2.events, hne, rfl, rfl, ?_, ?_, ih hrest⟩
    · rw [← hs]
      rfl
    · rw [← hr]
      rfl

/-- What the three tables say of a stream agrees. -/
structure Tally (t : Tables) (s : StreamId) : Prop where
  follow : Follow 0 0 (t.ofStream s)
  absent : t.ofStream s = [] →
    t.streams.filter (·.ofStream s) = [] ∧ t.snapshots.filter (·.ofStream s) = []
  present : t.ofStream s ≠ [] → ∃ head last, t.streams.filter (·.ofStream s) = [head] ∧
    last ∈ t.ofStream s ∧ greatest ((t.ofStream s).map (·.sequence)) = last.sequence ∧
    greatest ((t.ofStream s).map (·.revision)) = last.revision ∧ head.head = last.revision ∧
    (∃ counts : List Nat,
      (t.ofStream s).map (·.items) = counts.map (fun n : Nat => .integer n) ∧
      head.head = .integer (counts.sum : Nat)) ∧
    head.snapshot = greatest ((t.snapshots.filter (·.ofStream s)).map (·.revision)) ∧
    head.snapshot.atMost head.head = true

/-- Every row belongs to a stream. -/
structure Placed (t : Tables) : Prop where
  commits : ∀ r ∈ t.commits, ∃ s, r.ofStream s = true
  streams : ∀ r ∈ t.streams, ∃ s, r.ofStream s = true
  snapshots : ∀ r ∈ t.snapshots, ∃ s, r.ofStream s = true

/-- The greatest of some natural numbers. -/
theorem greatest_naturals (ns : List Nat) :
    greatest (ns.map fun n : Nat => .integer n) = .integer (ns.foldl max 0 : Nat) := by
  have hfold (k : Nat) : (ns.map fun n : Nat => Cell.integer n).foldl Cell.later (.integer k)
      = .integer (ns.foldl max k : Nat) := by
    induction ns generalizing k with
    | nil => rfl
    | cons n ns ih =>
      rw [List.map_cons, List.foldl_cons, Cell.later_integer, ← Nat.cast_max, ih,
        List.foldl_cons]
  cases ns with
  | nil => rfl
  | cons n ns =>
    have hfirst := hfold 0
    rw [List.map_cons, List.foldl_cons, Cell.later_integer, ← Nat.cast_max, Nat.zero_max]
      at hfirst
    exact hfirst

namespace Records

/-- **Tables that record a kept ledger agree about every stream.** -/
theorem tally (h : t.Records l) (hk : l.Kept) (s : StreamId) : t.Tally s := by
  obtain ⟨ws, hrows, hcommits⟩ := h.ofStream s
  obtain ⟨us, hsnapshots, hofsnapshots⟩ := h.ofSnapshots s
  have hstreams := h.filter_streams s
  rw [hk.heads, Ledger.headFrom] at hstreams
  refine ⟨hrows ▸ follow_of_continues (hcommits ▸ hk.history s), fun hnil => ?_, fun hne => ?_⟩
  · rw [h.ofStream_eq_nil_iff] at hnil
    rw [hnil] at hstreams
    refine ⟨hstreams, ?_⟩
    have hnone : l.snapshotsOf s = [] := List.eq_nil_iff_forall_not_mem.2 fun u hu => by
      have := (hk.snapshots s).2 u hu
      rw [hnil, eventsOf_nil, List.length_nil] at this
      omega
    rw [hofsnapshots, List.map_eq_nil_iff] at hnone
    rw [hsnapshots, hnone, List.map_nil]
  · obtain ⟨w, hw⟩ : ∃ w, ws.getLast? = some w := by
      rw [hrows] at hne
      exact ⟨_, List.getLast?_eq_some_getLast fun hws => hne (by rw [hws, List.map_nil])⟩
    have hlast : (l.ofStream s).getLast? = some w.2 := by
      rw [hcommits, List.getLast?_map, hw, Option.map_some]
    have hrevision := ((hk.history s).getLast hlast).2.2
    rw [Nat.zero_add] at hrevision
    obtain ⟨hs, hr⟩ := h.greatest_eq hk s
    rw [Ledger.headOf, hk.streamCommits_eq, hlast] at hs hr
    rw [hlast] at hstreams
    refine ⟨_, rowOf w, hstreams, ?_, hs, hr, rfl, ⟨(l.ofStream s).map (·.events.length), ?_, ?_⟩,
      ?_, ?_⟩
    · rw [hrows]
      exact List.mem_map_of_mem (List.mem_of_getLast? hw)
    · rw [h.column_eq s (f := (·.items)) (g := fun c => .integer c.events.length) fun _ _ => rfl,
        List.map_map]
      rfl
    · rw [← List.length_flatMap]
      show Cell.integer w.2.revision = .integer (eventsOf (l.ofStream s)).length
      rw [hrevision]
    · rw [hsnapshots, List.map_map]
      show Cell.integer (Ledger.greatestRevision (l.snapshotsOf s)) = _
      rw [Ledger.greatestRevision, ← greatest_naturals, hofsnapshots, List.map_map, List.map_map]
      rfl
    · show (Cell.integer (Ledger.greatestRevision (l.snapshotsOf s))).atMost
        (.integer w.2.revision) = true
      have hle : Ledger.greatestRevision (l.snapshotsOf s) ≤ w.2.revision :=
        hrevision ▸ Ledger.greatestRevision_le fun u hu => ((hk.snapshots s).2 u hu).2.2
      rw [Cell.atMost_integer, decide_eq_true_eq]
      exact Int.ofNat_le.2 hle

theorem placed (h : t.Records l) : t.Placed where
  commits r hr := by
    obtain ⟨ws, hrows, -⟩ := h.commits
    obtain ⟨w, -, rfl⟩ := List.mem_map.1 (hrows ▸ hr)
    exact ⟨w.2.stream, CommitRow.ofStream_ofCommit.trans (decide_eq_true rfl)⟩
  streams r hr := by
    obtain ⟨e, -, rfl⟩ := List.mem_map.1 (h.streams ▸ hr)
    exact ⟨e.2.stream, StreamRow.ofStream_ofHead.trans (decide_eq_true rfl)⟩
  snapshots r hr := by
    obtain ⟨us, hrows, -⟩ := h.snapshots
    obtain ⟨u, -, rfl⟩ := List.mem_map.1 (hrows ▸ hr)
    exact ⟨u.2.stream, SnapshotRow.ofStream_ofSnapshot.trans (decide_eq_true rfl)⟩

/-- **No two rows of a table have one key.** -/
theorem keysDistinct (h : t.Records l) (hk : l.Kept) : t.keysDistinct = true := by
  obtain ⟨ws, hrows, hlog⟩ := h.commits
  obtain ⟨us, hsnapshots, hof⟩ := h.snapshots
  have hlift {R : Commit → Commit → Prop} (hR : l.log.Pairwise R) :
      ws.Pairwise fun v w => R v.2 w.2 := List.pairwise_map.1 (hlog ▸ hR)
  have hcheckpoints := hlift hk.ascending
  have hsequences := hlift <| pairwise_of_classes fun s => (hk.history s).pairwise.imp And.left
  have hids := hlift <| pairwise_of_classes fun s => List.pairwise_map.1 (hk.ids s)
  have hheads : l.heads.Pairwise fun d e => d.2.stream ≠ e.2.stream :=
    (List.pairwise_map.1 h.keyed).imp_of_mem fun hd he hne => by
      rwa [h.named _ hd, h.named _ he]
  have hrevisions : us.Pairwise fun v w => v.2.stream = w.2.stream → v.2.revision ≠ w.2.revision :=
    List.pairwise_map.1 <| pairwise_of_classes fun s =>
      List.pairwise_map.1 (hof s ▸ (hk.snapshots s).1)
  -- each key says of two records what the ledger denies: one number, or one number of one stream
  simp only [Tables.keysDistinct, distinctBy, Bool.and_eq_true, decide_eq_true_eq,
    List.pairwise_map, hrows, hsnapshots, h.streams]
  refine ⟨⟨⟨⟨hcheckpoints.imp ?_, hsequences.imp ?_⟩, hids.imp ?_⟩, hheads.imp ?_⟩,
    hrevisions.imp ?_⟩ <;> intro v w hvw <;>
    simp only [rowOf, snapshotRowOf, CommitRow.ofCommit, StreamRow.ofHead, SnapshotRow.ofSnapshot,
      List.zipWith_cons_cons, List.zipWith_nil_left, List.all_cons, List.all_nil, id,
      Cell.same_integer, Cell.same_text, Bool.and_true, Bool.and_eq_true, decide_eq_true_eq,
      CommitId.digits_inj, Int.ofNat_inj]
  · exact ne_of_lt hvw
  · rintro ⟨htenant, hname, heq⟩
    exact absurd heq (ne_of_lt (hvw (StreamId.eq_of htenant hname)))
  · rintro ⟨htenant, hname, heq⟩
    exact hvw (StreamId.eq_of htenant hname) heq
  · rintro ⟨htenant, hname⟩
    exact hvw (StreamId.eq_of htenant hname)
  · rintro ⟨htenant, hname, heq⟩
    exact hvw (StreamId.eq_of htenant hname) heq

/-- An attempt that passes the checks goes on from the head of its stream under a new id. -/
theorem of_passes (h : t.Records l) (hk : l.Kept) (hp : t.Passes a) :
    (∀ c ∈ l.ofStream a.stream, c.id ≠ a.id) ∧ a.sequence = (l.ofStream a.stream).length + 1 ∧
      a.revision = (eventsOf (l.ofStream a.stream)).length + a.events.length := by
  obtain ⟨s, r, hs, hr, hfits⟩ := hp.fits
  obtain ⟨hsequence, hrevision⟩ := h.greatest_eq hk a.stream
  rw [hsequence, hk.headOf_eq] at hs
  rw [hrevision, hk.headOf_eq] at hr
  obtain rfl := Int.ofNat_inj.1 (wordOf_eq_ok hs)
  obtain rfl := Int.ofNat_inj.1 (wordOf_eq_ok hr)
  obtain ⟨hseq, hrev, -⟩ := (Attempt.verdict_eq_fits_iff ..).1 hfits
  refine ⟨fun c hc he => ?_, hseq, hrev⟩
  obtain ⟨ws, hrows, hcommits⟩ := h.ofStream a.stream
  rw [hcommits] at hc
  obtain ⟨w, hw, rfl⟩ := List.mem_map.1 hc
  have hfresh := List.find?_eq_none.1 hp.fresh (rowOf w) (hrows ▸ List.mem_map_of_mem hw)
  have hfresh : ¬ (Cell.text w.2.id.digits).same (.text a.id.digits) = true := hfresh
  rw [he, Cell.same_text, decide_eq_true_eq] at hfresh
  exact hfresh rfl

/-- The commit of an attempt that passes the checks leaves the ledger kept. -/
theorem append_kept (h : t.Records l) (hk : l.Kept) (h0 : 0 ≤ l.lastCheckpoint)
    (hne : a.events ≠ []) (hp : t.Passes a) :
    (l.append (a.floored.confirm t.nextRow)).Kept := by
  obtain ⟨hid, hseq, hrev⟩ := h.of_passes hk hp
  exact hk.append hne hseq hrev hid (h.nextRow_eq hk h0) h0

/-- **An attempt that passes the checks hits no key.** -/
theorem keysDistinct_insert (h : t.Records l) (hk : l.Kept) (h0 : 0 ≤ l.lastCheckpoint)
    (hne : a.events ≠ []) (hp : t.Passes a) (layout : Layout) :
    Tables.keysDistinct { t with
      commits := t.commits ++ [CommitRow.ofCommit layout (a.floored.confirm t.nextRow)] }
      = true := by
  have hnow := h.keysDistinct hk
  have hnext := (h.append layout (a.floored.confirm t.nextRow)).keysDistinct
    (h.append_kept hk h0 hne hp)
  simp only [Tables.keysDistinct, Bool.and_eq_true] at hnow hnext ⊢
  exact ⟨⟨hnext.1.1, hnow.1.2⟩, hnow.2⟩

/-- A snapshot is turned away, or recorded as in the ledger. -/
theorem addSnapshot (h : t.Records l) (layout : Layout) (u : Snapshot) :
    (t.addSnapshot layout u).2 = t ∨ (t.addSnapshot layout u).2.Records (l.addSnapshot u).2 := by
  rw [Tables.addSnapshot, Ledger.addSnapshot, h.find?_streams]
  split
  case isFalse => exact .inl rfl
  cases hf : l.heads.find? u.stream with
  | none => exact .inl rfl
  | some head =>
    simp only [Option.map_some, h.any_snapshots, Ledger.snapshotsOf]
    cases hr : (StreamRow.ofHead head).revisions with
    | error e => exact .inl rfl
    | ok revisions =>
      obtain ⟨first, hfirst, hr⟩ := exists_of_bind hr
      obtain ⟨second, hsecond, hr⟩ := exists_of_bind hr
      obtain rfl := Int.ofNat_inj.1 (wordOf_eq_ok hfirst)
      obtain rfl := Int.ofNat_inj.1 (wordOf_eq_ok hsecond)
      cases hr
      dsimp only
      split
      · exact .inl rfl
      split
      · exact .inl rfl
      · exact .inr (h.record layout hf _)

end Records

/-- An attempt that passes the checks is inserted. -/
theorem append_of_passes (hp : t.Passes a) (layout : Layout) :
    t.append layout a = t.insert layout a := by
  obtain ⟨s, r, hs, hr, hfits⟩ := hp.fits
  obtain ⟨m, hm, -⟩ := exists_of_bind hs
  obtain ⟨n, hn, -⟩ := exists_of_bind hr
  have hvalid := (a.validate_eq_ok_iff s r).2 hfits
  rw [Tables.append, hp.fresh]
  simp only [bind, Except.bind, hm, hn, hs, hr, hvalid]

end Tables

namespace Database

variable {db : Database}

/-- The tables, if they exist, record a ledger that is kept. -/
def Recorded (db : Database) : Prop :=
  ∀ t ∈ db, ∃ l : Ledger, l.Kept ∧ 0 ≤ l.lastCheckpoint ∧ t.Records l

theorem recorded_some {t : Tables} {l : Ledger} (hk : l.Kept) (h0 : 0 ≤ l.lastCheckpoint)
    (h : t.Records l) : Recorded (some t) := by
  rintro u ⟨rfl⟩
  exact ⟨l, hk, h0, h⟩

/-- An attempt changes nothing, or is recorded. -/
theorem Recorded.commit (h : Recorded db) (o : TableOptions) (a : Attempt) :
    Recorded (Database.commit o a db).2 := by
  obtain ⟨-, he⟩ | ⟨t, c, t', rfl, hne, -, happend, he⟩ := commit_cases o a db <;> rw [he]
  · exact h
  obtain ⟨l, hk, h0, ht⟩ := h t rfl
  obtain ⟨hp, hinsert⟩ := Tables.passes_of_append happend
  obtain ⟨hid, hseq, -⟩ := ht.of_passes hk hp
  rw [ht.insert_eq hk o.layout hid hseq] at hinsert
  split at hinsert
  · cases hinsert
  · cases hinsert
    refine recorded_some (ht.append_kept hk h0 hne hp) ?_ (ht.append o.layout _)
    show 0 ≤ t.nextRow
    rw [ht.nextRow_eq hk h0]
    omega

/-- Every operation leaves tables that record a ledger that is kept. -/
theorem Recorded.step (h : Recorded db) (o : TableOptions) (op : Operation) :
    Recorded (engine o op db).2 := by
  cases op with
  | commit a => exact h.commit o a
  | read | snapshot | streamsToSnapshot => exact h
  | dropStore => exact nofun
  | setUp =>
    cases db with
    | none => exact recorded_some .empty (Int.le_refl 0) .empty
    | some t => exact h
  | addSnapshot u =>
    cases db with
    | none => exact h
    | some t =>
      obtain ⟨l, hk, h0, ht⟩ := h t rfl
      show Recorded (some (t.addSnapshot o.layout u).2)
      obtain he | ht' := ht.addSnapshot o.layout u
      · rw [he]
        exact h
      · have hkept := hk.addSnapshot u
        have hlast : 0 ≤ (l.addSnapshot u).2.lastCheckpoint := by
          obtain ⟨-, he⟩ | ⟨-, he⟩ := hk.addSnapshot_cases u <;> rw [he] <;> exact h0
        exact recorded_some hkept hlast ht'
  | purge tenant =>
    exact forall_update h fun t ⟨l, hk, h0, ht⟩ => ⟨_, hk.retain _, h0, ht.dropTenant tenant⟩
  | purgeAll => exact forall_update h fun t ⟨l, hk, h0, ht⟩ => ⟨_, .clear l, h0, ht.clear⟩
  | deleteStream s =>
    exact forall_update h fun t ⟨l, hk, h0, ht⟩ => ⟨_, hk.retain _, h0, ht.dropStream s⟩

theorem recorded_after (run : List (TableOptions × Operation)) : Recorded (after run) := by
  induction run using List.reverseRecOn with
  | nil => exact nofun
  | append_singleton run e ih =>
    rw [after, List.foldl_append]
    exact Recorded.step ih e.1 e.2

/-- **The tables never disagree.**  Whatever ran before, through stores of any options, every row
belongs to a stream, what the three tables say of a stream agrees, no two rows have one key, and an
attempt that passes the checks is inserted under keys that no other row has, unless the row numbers
have run out. -/
theorem tables_agree (run : List (TableOptions × Operation)) : ∀ t ∈ after run,
    t.Placed ∧ (∀ s, t.Tally s) ∧ t.keysDistinct = true ∧
      ∀ layout a, a.events ≠ [] → t.Passes a →
        Tables.keysDistinct { t with
          commits := t.commits ++ [CommitRow.ofCommit layout (a.floored.confirm t.nextRow)] }
          = true ∧
        t.append layout a = if Tables.maxRow < t.nextRow then .error .database else
          .ok (a.floored.confirm t.nextRow, { t with
            commits := t.commits ++ [CommitRow.ofCommit layout (a.floored.confirm t.nextRow)]
            streams := Tables.setHead a.stream a.revision t.streams
            lastRow := t.nextRow }) := by
  intro t ht
  obtain ⟨l, hk, h0, hrecords⟩ := recorded_after run t ht
  refine ⟨hrecords.placed, hrecords.tally hk, hrecords.keysDistinct hk,
    fun layout a hne hp => ?_⟩
  obtain ⟨hid, hseq, -⟩ := hrecords.of_passes hk hp
  refine ⟨hrecords.keysDistinct_insert hk h0 hne hp layout, ?_⟩
  rw [Tables.append_of_passes hp layout, hrecords.insert_eq hk layout hid hseq]

/-- The two writers go on: a snapshot of the first stream, the second one deleted, and the first
commit of the first stream sent again. -/
def snapshotAndDelete : List (TableOptions × Operation) :=
  twoWriters ++
    [(⟨1, .indented⟩, .addSnapshot ⟨⟨"tenant", "a"⟩, 2, ⟨"state", .null⟩⟩),
      (⟨128, .compact⟩, .deleteStream ⟨"tenant", "b"⟩),
      (⟨128, .compact⟩, .commit (Memory.sampleAttempt "a" 1 2 2 1))]

theorem tables_agree_snapshotAndDelete : ∃ t ∈ after snapshotAndDelete,
    t.Tally ⟨"tenant", "a"⟩ ∧ t.Tally ⟨"tenant", "b"⟩ ∧ t.keysDistinct = true ∧
      t.Passes (Memory.sampleAttempt "a" 2 3 1 2) ∧
      Tables.keysDistinct { t with commits := t.commits ++
        [CommitRow.ofCommit .compact
          ((Memory.sampleAttempt "a" 2 3 1 2).floored.confirm t.nextRow)] } = true := by
  have hok : (after snapshotAndDelete).map
      (fun t => (t.append .compact (Memory.sampleAttempt "a" 2 3 1 2)).toOption.isSome)
      = some true := by decide +kernel
  obtain ⟨t, ht, happend⟩ := Option.map_eq_some_iff.1 hok
  obtain ⟨-, htally, hkeys, hinsert⟩ := tables_agree snapshotAndDelete t ht
  have hp : t.Passes (Memory.sampleAttempt "a" 2 3 1 2) := by
    cases he : t.append .compact (Memory.sampleAttempt "a" 2 3 1 2) with
    | error e => rw [he] at happend; exact nomatch happend
    | ok r => exact (Tables.passes_of_append he).1
  exact ⟨t, ht, htally _, htally _, hkeys, hp, (hinsert .compact _ (by decide) hp).1⟩

end Database
end EventSourcing
