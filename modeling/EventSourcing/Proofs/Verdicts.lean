import EventSourcing.Proofs.Bookkeeping
import EventSourcing.Proofs.Parts

/-!
# What verdicts say of the contents

A store judges an attempt by the two numbers of its stream's last commit. What the verdict says of
the contents follows from the commits going on from each other without gap: every sequence and every
revision up to those of the last commit is taken by exactly one commit. So an attempt conflicts if
it claims a sequence or a revision that is taken, and it leaves a gap if all that it claims is free
and does not begin right after the last commit.

There is one exception. No commit has the sequence 0 or a revision below 1, but both are at or below
the head of every stream, and so an attempt that claims one of them is told of a conflict even where
nothing is stored (`Attempt.Before`). `judged` says for both stores what becomes of an attempt.
-/

namespace EventSourcing

/-- The sequence and the revision of the last of some commits, zero without any. -/
def lastNumbers (cs : List Commit) : Nat × Nat :=
  match cs.getLast? with
  | some c => (c.sequence, c.revision)
  | none => (0, 0)

namespace Attempt

/-- The sequence or a revision of the attempt is one of a commit. -/
def Meets (a : Attempt) (c : Commit) : Prop :=
  c.sequence = a.sequence ∨
    ∃ r : Int, (c.previousRevision < r ∧ r ≤ c.revision) ∧ a.previousRevision < r ∧ r ≤ a.revision

/-- The attempt claims the sequence 0 or a revision below 1. -/
def Before (a : Attempt) : Prop := a.sequence = 0 ∨ a.previousRevision < 0

instance (a : Attempt) : Decidable a.Before :=
  inferInstanceAs (Decidable (a.sequence = 0 ∨ a.previousRevision < 0))

/-- The attempt claims the next sequence after the last of some commits, and begins right after
it. -/
def Next (a : Attempt) (cs : List Commit) : Prop :=
  a.sequence = (lastNumbers cs).1 + 1 ∧ a.previousRevision = (lastNumbers cs).2

/-- What becomes of an attempt where these commits are stored, and of the store. -/
structure Judged {σ : Type} (a : Attempt) (cs : List Commit) (before : σ)
    (r : Except Fault (Option Commit) × σ) : Prop where
  /-- It is stored if it goes on from the last commit. -/
  stored : (∃ c, r.1 = .ok (some c)) ↔ a.Next cs
  /-- It conflicts if something that it claims is taken, or comes before every stream. -/
  conflict : r.1 = .error a.conflict ↔ (∃ c ∈ cs, a.Meets c) ∨ a.Before
  /-- In all other cases it leaves a gap. -/
  gap : r.1 = .error (.invalidAttempt (a.gapText (lastNumbers cs).1 (lastNumbers cs).2)) ↔
    ¬ a.Next cs ∧ ¬ ((∃ c ∈ cs, a.Meets c) ∨ a.Before)
  unchanged : ∀ e, r.1 = .error e → r.2 = before

end Attempt

namespace Continues

variable {s r n : Nat} {c : Commit} {cs : List Commit} {a : Attempt}

/-- Every revision of a history is one of a commit. -/
theorem exists_revision (h : Continues s r cs) (hlt : r < n)
    (hle : n ≤ r + (eventsOf cs).length) : ∃ c ∈ cs, c.previousRevision < n ∧ n ≤ c.revision := by
  induction cs generalizing s r with
  | nil =>
    rw [eventsOf_nil, List.length_nil] at hle
    omega
  | cons c cs ih =>
    obtain ⟨-, -, hr, hcs⟩ := h
    rw [eventsOf_cons, List.length_append] at hle
    rcases Nat.lt_or_ge c.revision n with hgt | hge
    · obtain ⟨d, hd, hcovers⟩ := ih hcs hgt (by omega)
      exact ⟨d, List.mem_cons_of_mem _ hd, hcovers⟩
    · refine ⟨c, List.mem_cons_self .., ?_, hge⟩
      rw [Attempt.previousRevision]
      omega

/-- Every sequence of a history is that of a commit. -/
theorem exists_sequence (h : Continues s r cs) (hlt : s < n) (hle : n ≤ s + cs.length) :
    ∃ c ∈ cs, c.sequence = n := by
  have hmem : n ∈ cs.map (·.sequence) := by
    rw [h.sequences_eq, List.mem_range'_1]
    omega
  exact List.mem_map.1 hmem

/-- The last commit of a history has the number of all commits and of all events. -/
theorem lastNumbers_eq (h : Continues 0 0 cs) :
    lastNumbers cs = (cs.length, (eventsOf cs).length) := by
  rw [lastNumbers]
  cases hl : cs.getLast? with
  | none => rw [List.getLast?_eq_none_iff.1 hl]; rfl
  | some c =>
    obtain ⟨-, hs, hr⟩ := h.getLast hl
    show (c.sequence, c.revision) = _
    rw [hs, hr, Nat.zero_add, Nat.zero_add]

/-- An attempt conflicts if something that it claims is taken, or comes before every stream. -/
theorem verdict_eq_occupied_iff (h : Continues 0 0 cs) (hne : a.events ≠ []) :
    a.verdict cs.length (eventsOf cs).length = .occupied ↔ (∃ c ∈ cs, a.Meets c) ∨ a.Before := by
  have hlen := List.length_pos_iff.2 hne
  rw [a.verdict_eq_occupied_iff]
  constructor
  · rintro (hs | hr)
    · rcases Nat.eq_zero_or_pos a.sequence with hzero | hpos
      · exact .inr (.inl hzero)
      · obtain ⟨c, hc, he⟩ := h.exists_sequence hpos (by omega)
        exact .inl ⟨c, hc, .inl he⟩
    · rcases lt_or_ge a.previousRevision 0 with hneg | hge
      · exact .inr (.inr hneg)
      · -- the first revision of the attempt is one of the stream
        rw [Attempt.previousRevision] at hge
        obtain ⟨c, hc, hlow, hhigh⟩ := h.exists_revision
          (n := a.revision - a.events.length + 1) (by omega) (by omega)
        refine .inl ⟨c, hc, .inr ⟨_, ⟨hlow, Int.ofNat_le.2 hhigh⟩, ?_, ?_⟩⟩
        · rw [Attempt.previousRevision]
          omega
        · omega
  · rintro (⟨c, hc, hs | ⟨r, ⟨-, hhigh⟩, hlow, -⟩⟩ | hs | hr)
    · have := (h.sequence_le hc).2
      omega
    · have := (h.revision_le hc).2
      rw [Attempt.previousRevision] at hlow
      omega
    · omega
    · rw [Attempt.previousRevision] at hr
      omega

theorem verdict_eq_fits_iff (h : Continues 0 0 cs) (hs : a.sequence ≤ maxRevision) :
    a.verdict cs.length (eventsOf cs).length = .fits ↔ a.Next cs := by
  rw [a.verdict_eq_fits_iff, Attempt.Next, h.lastNumbers_eq, Attempt.previousRevision]
  omega

/-- **An attempt that is validated against a history is judged by it.** -/
theorem judged (h : Continues 0 0 cs) (hne : a.events ≠ []) (hs : a.sequence ≤ maxRevision)
    {σ : Type} (before after : σ) (c : Commit) : a.Judged cs before
      (match a.validate cs.length (eventsOf cs).length with
        | .error e => (.error e, before)
        | .ok () => (.ok (some c), after)) := by
  have hoccupied := h.verdict_eq_occupied_iff hne
  have hfits := h.verdict_eq_fits_iff hs
  unfold Attempt.validate
  cases hv : a.verdict cs.length (eventsOf cs).length with
  | fits =>
    rw [hv] at hoccupied hfits
    have hnot : ¬ ((∃ c ∈ cs, a.Meets c) ∨ a.Before) := fun hc => nomatch hoccupied.2 hc
    have hnext : a.Next cs := hfits.1 rfl
    exact ⟨⟨fun _ => hnext, fun _ => ⟨c, rfl⟩⟩, ⟨nofun, fun hc => absurd hc hnot⟩,
      ⟨nofun, fun hc => absurd hnext hc.1⟩, nofun⟩
  | occupied =>
    rw [hv] at hoccupied hfits
    have hnot : ¬ a.Next cs := fun hc => nomatch hfits.2 hc
    have htaken := hoccupied.1 rfl
    exact ⟨⟨nofun, fun hc => absurd hc hnot⟩, ⟨fun _ => htaken, fun _ => rfl⟩,
      ⟨nofun, fun hc => absurd htaken hc.2⟩, fun _ _ => rfl⟩
  | gap =>
    rw [hv] at hoccupied hfits
    have hnot : ¬ a.Next cs := fun hc => nomatch hfits.2 hc
    have hfree : ¬ ((∃ c ∈ cs, a.Meets c) ∨ a.Before) := fun hc => nomatch hoccupied.2 hc
    exact ⟨⟨nofun, fun hc => absurd hc hnot⟩, ⟨nofun, fun hc => absurd hc hfree⟩,
      ⟨fun _ => ⟨hnot, hfree⟩, fun _ => by rw [h.lastNumbers_eq]⟩, fun _ _ => rfl⟩

end Continues

/-- The store in memory judges an attempt by the commits of its stream. -/
theorem Memory.judged {m : Memory} (hk : m.ledger.Kept) (hm : m.commitsDisabled = false)
    {a : Attempt} (hne : a.events ≠ []) (hs : a.sequence ≤ maxRevision)
    (hnew : ∀ c ∈ m.ledger.ofStream a.stream, c.id ≠ a.id) :
    a.Judged (m.ledger.ofStream a.stream) m (Memory.commit a m) := by
  have hfind : (m.ledger.ofStream a.stream).find? (fun c => decide (c.id = a.id)) = none :=
    List.find?_eq_none.2 fun c hc => by simpa using hnew c hc
  have hj := (hk.history a.stream).judged hne hs m
    { m with ledger := m.ledger.append (a.confirm (m.ledger.lastCheckpoint + 1)) }
    (a.confirm (m.ledger.lastCheckpoint + 1))
  rw [Memory.commit_eq hm, if_neg hne, hk.commit_eq, hfind]
  cases hv : a.validate (m.ledger.ofStream a.stream).length
      (eventsOf (m.ledger.ofStream a.stream)).length with
  | error e =>
    rw [hv] at hj
    exact hj
  | ok u =>
    rw [hv] at hj
    exact hj

namespace Database

variable {o : TableOptions} {db : Database} {op : Operation} {t : Tables} {r : CommitRow}

/-- One operation adds no row but the one of its attempt. -/
theorem mem_commits_step (ht : (engine o op db).2 = some t) (hr : r ∈ t.commits) :
    (∃ u, db = some u ∧ r ∈ u.commits) ∨
      ∃ a k, op = .commit a ∧ r = CommitRow.ofCommit o.layout (a.floored.confirm k) := by
  cases op with
  | commit a =>
    change (Database.commit o a db).2 = some t at ht
    obtain ⟨-, he⟩ | ⟨u, c, t', rfl, -, -, happend, he⟩ := commit_cases o a db <;> rw [he] at ht
    · exact .inl ⟨t, ht, hr⟩
    · cases ht
      have haccepts := Tables.accepts_of_append happend
      rw [haccepts.commits] at hr
      rcases List.mem_append.1 hr with hr | hr
      · exact .inl ⟨u, rfl, hr⟩
      · exact .inr ⟨a, _, rfl, haccepts.confirmed ▸ List.mem_singleton.1 hr⟩
  | addSnapshot s =>
    cases db with
    | none => cases ht
    | some u =>
      obtain rfl : (u.addSnapshot o.layout s).2 = t := Option.some.inj ht
      obtain ⟨-, he⟩ | ⟨-, -, hc, -⟩ := u.addSnapshot_cases o.layout s
      · exact .inl ⟨u, rfl, he ▸ hr⟩
      · exact .inl ⟨u, rfl, hc ▸ hr⟩
  | read | snapshot | streamsToSnapshot => exact .inl ⟨t, ht, hr⟩
  | setUp =>
    cases db with
    | none =>
      cases ht
      exact absurd hr List.not_mem_nil
    | some u => exact .inl ⟨t, ht, hr⟩
  | dropStore => cases ht
  | purge | deleteStream =>
    cases db with
    | none => cases ht
    | some u =>
      change (update _ _ (some u)).2 = some t at ht
      obtain he | he := update_cases _ _ u <;> rw [he] at ht <;> cases ht
      · exact .inl ⟨_, rfl, hr⟩
      · exact .inl ⟨_, rfl, List.mem_of_mem_filter hr⟩
  | purgeAll =>
    cases db with
    | none => cases ht
    | some u =>
      cases ht
      exact absurd hr List.not_mem_nil

/-- Every row was written for an attempt of the run. -/
theorem attempted_of_mem_after {run : List (TableOptions × Operation)} (ht : after run = some t)
    (hr : r ∈ t.commits) : ∃ o a k, (o, Operation.commit a) ∈ run ∧
      r = CommitRow.ofCommit o.layout (a.floored.confirm k) := by
  induction run using List.reverseRecOn generalizing t with
  | nil => cases ht
  | append_singleton run e ih =>
    rw [after, List.foldl_append] at ht
    obtain ⟨u, hu, hr⟩ | ⟨a, k, hop, he⟩ := mem_commits_step ht hr
    · obtain ⟨o, a, k, hmem, he⟩ := ih hu hr
      exact ⟨o, a, k, List.mem_append_left _ hmem, he⟩
    · refine ⟨e.1, a, k, List.mem_append_right _ ?_, he⟩
      rw [← hop]
      exact List.mem_singleton_self _

end Database

namespace Tables

variable {t : Tables} {l : Ledger} {s : StreamId} {a : Attempt} {cs : List Commit}

/-- The rows of a stream are these commits written down. -/
def Lists (t : Tables) (s : StreamId) (cs : List Commit) : Prop :=
  ∃ ws : List (Layout × Commit), t.ofStream s = ws.map rowOf ∧ cs = ws.map (·.2)

/-- The store in tables judges an attempt by the commits that its rows record. -/
theorem Records.judged (h : t.Records l) (hk : l.Kept) (o : TableOptions) (hne : a.events ≠ [])
    (hs : a.sequence ≤ maxRevision) (hname : a.stream.quotable = true) (hrow : t.nextRow ≤ maxRow)
    (hwords : ∀ c ∈ l.ofStream a.stream, c.sequence ≤ maxRevision ∧ c.revision ≤ maxRevision)
    (hnew : ∀ c ∈ l.ofStream a.stream, c.id ≠ a.id) :
    a.Judged (l.ofStream a.stream) (some t) (Database.commit o a (some t)) := by
  have hj := (hk.history a.stream).judged (σ := Database) hne hs (some t)
    (some { t with
      commits := t.commits ++ [CommitRow.ofCommit o.layout (a.floored.confirm t.nextRow)]
      streams := setHead a.stream a.revision t.streams
      lastRow := t.nextRow }) (a.floored.confirm t.nextRow)
  have hfits := a.verdict_eq_fits_iff (l.ofStream a.stream).length
    (eventsOf (l.ofStream a.stream)).length
  rw [Database.commit, if_neg (by rwa [List.isEmpty_iff])]
  simp only [Tables.commit, hname, if_true]
  rw [h.append_of_new hk o.layout hwords hnew, hk.headOf_eq]
  cases hv : a.validate (l.ofStream a.stream).length (eventsOf (l.ofStream a.stream)).length with
  | error e =>
    rw [hv] at hj
    exact hj
  | ok u =>
    rw [hv] at hj
    have hseq := (hfits.1 ((a.validate_eq_ok_iff _ _).1 hv)).1
    rw [Except.bind, h.insert_eq hk o.layout hnew hseq, if_neg (Int.not_lt.2 hrow)]
    exact hj

end Tables

/-- The commits of recorded rows have the numbers of attempts of the run. -/
theorem Database.words_of_lists {run : List (TableOptions × Operation)}
    (hrun : ∀ e ∈ run, e.2.InWords) {t : Tables} (ht : after run = some t) {s : StreamId}
    {cs : List Commit} (hcs : t.Lists s cs) :
    ∀ c ∈ cs, c.sequence ≤ maxRevision ∧ c.revision ≤ maxRevision := by
  obtain ⟨ws, hrows, rfl⟩ := hcs
  intro c hc
  obtain ⟨w, hw, rfl⟩ := List.mem_map.1 hc
  have hmem : Tables.rowOf w ∈ t.commits :=
    List.mem_of_mem_filter (hrows ▸ List.mem_map_of_mem hw : Tables.rowOf w ∈ t.ofStream s)
  obtain ⟨o, a, k, hrun', he⟩ := attempted_of_mem_after ht hmem
  obtain ⟨hrevision, hsequence⟩ := hrun _ hrun'
  have hseq : w.2.sequence = a.sequence := by
    have hcell : Cell.integer w.2.sequence = .integer a.sequence := congrArg CommitRow.sequence he
    simpa [Cell.integer] using hcell
  have hrev : w.2.revision = a.revision := by
    have hcell : Cell.integer w.2.revision = .integer a.revision := congrArg CommitRow.revision he
    simpa [Cell.integer] using hcell
  rw [hseq, hrev]
  exact ⟨hsequence, hrevision⟩

/-- **Verdicts and contents.**  Whatever a store went through, an attempt with events under a new id
is stored if and only if it claims the sequence after the last commit of its stream and begins right
after it. It is told of a conflict if and only if a stored commit of the stream has its sequence or
one of its revisions, or if it claims the sequence 0 or a revision below 1, which no commit has. In
all other cases it is told of a gap. Refusals leave the store as it is. The store in tables refuses
every attempt whose stream cannot be named in a statement, whatever it claims. -/
theorem judged_by_contents (a : Attempt) (hne : a.events ≠ []) (hs : a.sequence ≤ maxRevision) :
    (∀ m : Memory, m.Reachable → m.commitsDisabled = false →
      (∀ c ∈ m.ledger.ofStream a.stream, c.id ≠ a.id) →
        a.Judged (m.ledger.ofStream a.stream) m (Memory.commit a m)) ∧
    ∀ (run : List (TableOptions × Operation)) (o : TableOptions) (t : Tables),
      (∀ e ∈ run, e.2.InWords) → Database.after run = some t → t.nextRow ≤ Tables.maxRow →
        ∃ cs, t.Lists a.stream cs ∧
          (a.stream.quotable = true → (∀ c ∈ cs, c.id ≠ a.id) →
            a.Judged cs (some t) (Database.commit o a (some t))) ∧
          (a.stream.quotable = false →
            Database.commit o a (some t) = (.error .database, some t)) := by
  refine ⟨fun m hm hc hnew => Memory.judged hm.kept hc hne hs hnew, fun run o t hrun ht hrow => ?_⟩
  obtain ⟨l, hk, -, hrecords⟩ := Database.recorded_after run t ht
  have hlists : t.Lists a.stream (l.ofStream a.stream) := hrecords.ofStream a.stream
  refine ⟨_, hlists, fun hname hnew => ?_, fun hname => ?_⟩
  · exact hrecords.judged hk o hne hs hname hrow (Database.words_of_lists hrun ht hlists) hnew
  · rw [Database.commit_some, if_neg hne, Tables.commit, if_neg (by simp [hname])]

/-- An attempt with a free sequence and a taken revision, on a stream of two events, in both
stores. -/
theorem judged_by_contents_taken_revision :
    (Memory.sampleAttempt "a" 5 3 2 9).events ≠ [] ∧
      (Memory.commit (Memory.sampleAttempt "a" 5 3 2 9)
        (Memory.after (Database.twoWriters.map (·.2)))).1 = .error (.conflict ⟨"tenant", "a"⟩ 3 5) ∧
      ∃ t cs, Database.after Database.twoWriters = some t ∧ t.Lists ⟨"tenant", "a"⟩ cs ∧
        ∃ c ∈ cs, (Memory.sampleAttempt "a" 5 3 2 9).Meets c := by
  have hne : (Memory.sampleAttempt "a" 5 3 2 9).events ≠ [] := by decide
  obtain ⟨hmemory, htables⟩ := judged_by_contents _ hne (by decide)
  refine ⟨hne, ?_, ?_⟩
  · refine (hmemory _ (Memory.reachable_after _) (by decide +kernel) (by decide +kernel)).conflict.2
      (.inl ⟨(Memory.sampleAttempt "a" 1 2 2 1).confirm 1, by decide +kernel, .inr ⟨2, ?_⟩⟩)
    decide
  · have hafter : (Database.after Database.twoWriters).isSome = true := by decide +kernel
    obtain ⟨t, ht⟩ := Option.isSome_iff_exists.1 hafter
    have hrun : ∀ e ∈ Database.twoWriters, e.2.InWords := by decide
    have hrow : ∀ u ∈ Database.after Database.twoWriters, u.nextRow ≤ Tables.maxRow := by
      decide +kernel
    have hids : ∀ u ∈ Database.after Database.twoWriters, ∀ r ∈ u.ofStream ⟨"tenant", "a"⟩,
        r.id ≠ .text (Memory.sampleAttempt "a" 5 3 2 9).id.digits := by decide +kernel
    have hanswer : (Database.commit {} (Memory.sampleAttempt "a" 5 3 2 9)
        (Database.after Database.twoWriters)).1
          = .error (Memory.sampleAttempt "a" 5 3 2 9).conflict := by
      decide +kernel
    obtain ⟨cs, hcs, hjudged, -⟩ := htables Database.twoWriters {} t hrun ht (hrow t ht)
    rw [ht] at hanswer
    refine ⟨t, cs, ht, hcs,
      ((hjudged (by decide) fun c hc he => ?_).conflict.1 hanswer).resolve_right ?_⟩
    · obtain ⟨ws, hrows, rfl⟩ := hcs
      obtain ⟨w, hw, rfl⟩ := List.mem_map.1 hc
      have hne := hids t ht _ (hrows ▸ List.mem_map_of_mem hw)
      exact hne (congrArg (fun i : CommitId => Cell.text i.digits) he)
    · decide

/-- Nothing is stored, and an attempt at the sequence 0 is told that its place is taken. -/
theorem conflict_with_nothing_stored :
    ¬ (∃ c ∈ ({} : Ledger).ofStream ⟨"tenant", "a"⟩, (Memory.sampleAttempt "a" 0 1 1 1).Meets c) ∧
      (Memory.commit (Memory.sampleAttempt "a" 0 1 1 1) {}).1
        = .error (Memory.sampleAttempt "a" 0 1 1 1).conflict ∧
      (Database.commit {} (Memory.sampleAttempt "a" 0 1 1 1) (some {})).1
        = .error (Memory.sampleAttempt "a" 0 1 1 1).conflict := by
  refine ⟨?_, by decide +kernel, by decide +kernel⟩
  rintro ⟨c, hc, -⟩
  exact absurd hc List.not_mem_nil

end EventSourcing
