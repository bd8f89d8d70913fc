import EventSourcing.Proofs.CatchUp
import EventSourcing.Proofs.ExactlyOnce

/-!
# Starting from a snapshot

A handle that starts from a snapshot reads the commit that holds the snapshot's revision, for its
sequence, and skips the events that the snapshot stands for. `Handle.Shows` is how a handle stands
that shows a stream from after a base to a last revision. Opening the whole stream and opening from
a snapshot both come to it (`Handle.shows_of_merge`), with the same last revision and different
bases, also where a base or a last revision lies inside a commit.

What a commit by a handle comes to does not depend on its base. On a store that answers, committing
what is staged is submitting one attempt, of which a commit that was recorded before counts as
applied (`Handle.run_commitChanges`), and the attempt is made of the revision and the sequence of
the handle and what is staged. So the two handles write the same (`Handle.openFromSnapshot_agrees`).
-/

namespace EventSourcing

namespace Memory

variable {m : Memory}

theorem readsDisabled_commit (a : Attempt) (m : Memory) :
    (Memory.commit a m).2.readsDisabled = m.readsDisabled := by
  unfold Memory.commit
  split
  · rfl
  split <;> rfl

/-- The stamp of an attempt decides nothing but the stamp of its commit. -/
theorem commit_restamp (a : Attempt) (stamp : Stamp) (m : Memory) :
    (Memory.commit { a with stamp := stamp } m = Memory.commit a m ∧
        (Memory.commit a m).2 = m) ∨
      ∃ c, Memory.commit a m = (.ok (some c), { m with ledger := m.ledger.append c }) ∧
        Memory.commit { a with stamp := stamp } m = (.ok (some { c with stamp := stamp }),
          { m with ledger := m.ledger.append { c with stamp := stamp } }) := by
  unfold Memory.commit
  dsimp only
  by_cases hempty : a.events.isEmpty
  · rw [if_pos hempty, if_pos hempty]
    exact .inl ⟨rfl, rfl⟩
  by_cases hoff : m.commitsDisabled
  · rw [if_neg hempty, if_neg hempty, if_pos hoff, if_pos hoff]
    exact .inl ⟨rfl, rfl⟩
  rw [if_neg hempty, if_neg hempty, if_neg hoff, if_neg hoff]
  unfold Ledger.commit
  dsimp only
  cases (m.ledger.streamCommits a.stream).find? (·.id = a.id) with
  | some existing => exact .inl ⟨rfl, rfl⟩
  | none =>
    have hvalidate (s r : Nat) :
        ({ a with stamp := stamp } : Attempt).validate s r = a.validate s r := rfl
    simp only [hvalidate]
    cases a.validate (m.ledger.headOf a.stream).1 (m.ledger.headOf a.stream).2 with
    | error e => exact .inl ⟨rfl, rfl⟩
    | ok => exact .inr ⟨a.confirm (m.ledger.lastCheckpoint + 1), rfl, rfl⟩

end Memory

namespace Handle

variable {h : Handle} {m : Memory}

/-- What a writer is told of the answer of a store: what was recorded before counts as applied. -/
def report : Except Fault (Option Commit) → Except Fault (Option Commit)
  | .error (.duplicate existing) => .ok (some existing)
  | answer => answer

theorem run_reload (hr : m.readsDisabled = false) (h : Handle) (settle : Handle → Handle)
    (result : Except Fault (Option Commit)) :
    ((h.reload settle result).run Memory.engine m).value
        = (settle (h.refreshed m.ledger), result) ∧
      ((h.reload settle result).run Memory.engine m).state = m := by
  obtain ⟨ns, hs⟩ := h.step_reload hr settle result
  obtain ⟨hvalue, hstate⟩ := Program.run_step Memory.engine (h.reload settle result) m
  rw [hs] at hvalue hstate
  exact ⟨hvalue.symm, hstate.symm⟩

/-- Whatever the store has answered, taking it over changes nothing in the store. -/
theorem run_settle (hr : m.readsDisabled = false) (h : Handle)
    (answer : Except Fault (Option Commit)) :
    ((h.settle answer).run Memory.engine m).value.2 = report answer ∧
      ((h.settle answer).run Memory.engine m).state = m := by
  cases answer with
  | ok c => cases c <;> exact ⟨rfl, rfl⟩
  | error e =>
    cases e with
    | duplicate existing =>
      obtain ⟨hvalue, hstate⟩ := run_reload hr h clearChanges (.ok (some existing))
      exact ⟨congrArg Prod.snd hvalue, hstate⟩
    | conflict stream revision sequence =>
      obtain ⟨hvalue, hstate⟩ :=
        run_reload hr h (fun g => g) (.error (.conflict stream revision sequence))
      exact ⟨congrArg Prod.snd hvalue, hstate⟩
    | _ => exact ⟨rfl, rfl⟩

theorem run_submit (hr : m.readsDisabled = false) (h : Handle) (id : CommitId) (stamp : Stamp) :
    ((h.submit id stamp).run Memory.engine m).value.2
        = report (Memory.commit (h.attempt id stamp) m).1 ∧
      ((h.submit id stamp).run Memory.engine m).state
        = (Memory.commit (h.attempt id stamp) m).2 := by
  obtain ⟨hvalue, hstate⟩ := Program.run_step Memory.engine (h.submit id stamp) m
  rw [step_submit] at hvalue hstate
  obtain ⟨hanswer, hkept⟩ := run_settle ((Memory.readsDisabled_commit _ m).trans hr) h
    (Memory.commit (h.attempt id stamp) m).1
  exact ⟨(congrArg Prod.snd hvalue).symm.trans hanswer, hstate.symm.trans hkept⟩

/-- **Committing is submitting one attempt.**  A handle that has seen no other ids than those of its
stream writes what is staged as one attempt, and is told what the store made of it. -/
theorem run_commitChanges (hk : m.ledger.Kept) (hr : m.readsDisabled = false)
    (hm : m.commitsDisabled = false)
    (hseen : ∀ i ∈ h.seen, ∃ c ∈ m.ledger.ofStream h.stream, c.id = i) (id : CommitId)
    (stamp : Stamp) :
    ((h.commitChanges id stamp).run Memory.engine m).value.2
        = report (Memory.commit (h.attempt id stamp) m).1 ∧
      ((h.commitChanges id stamp).run Memory.engine m).state
        = (Memory.commit (h.attempt id stamp) m).2 := by
  by_cases hne : h.uncommitted = []
  · rw [Memory.commit_eq hm, attempt_events, if_pos hne, commitChanges, hne]
    exact ⟨rfl, rfl⟩
  by_cases hid : id ∈ h.seen
  · obtain ⟨c, hc, rfl⟩ := hseen id hid
    have hfind : (m.ledger.ofStream h.stream).find? (·.id = c.id) = some c := by
      rw [← List.head?_filter, hk.filter_id hc, List.head?_cons]
    have hread : m.ledger.read (.revisions h.stream 0 maxRevision)
        = m.ledger.ofStream h.stream := by
      rw [Ledger.read_revisions, List.filter_eq_self]
      intro d _
      simp [d.firstRevision_le_max]
    obtain ⟨ns, hs⟩ := step_commitChanges_seen hr hne stamp hid (hread.symm ▸ hfind)
    obtain ⟨hvalue, hstate⟩ := Program.run_step Memory.engine (h.commitChanges c.id stamp) m
    rw [hs] at hvalue hstate
    have hcommit : m.ledger.commit (h.attempt c.id stamp) = (.error (.duplicate c), m.ledger) := by
      rw [Ledger.commit, attempt_stream, attempt_id, hk.streamCommits_eq, hfind]
    rw [Memory.commit_eq hm, attempt_events, if_neg hne, hcommit]
    exact ⟨(congrArg Prod.snd hvalue).symm, hstate.symm⟩
  · rw [commitChanges, if_neg (by rwa [List.isEmpty_iff]), if_neg hid]
    exact run_submit hr h id stamp

/-- How a handle stands that shows a stream from after a base up to a last revision. -/
structure Shows (h : Handle) (stream : StreamId) (cs : List Commit) (base last : Nat) : Prop where
  stream : h.stream = stream
  committed : h.committed = ((eventsOf cs).take last).drop base
  revision : h.revision = min last (eventsOf cs).length
  /-- All commits count that start within the view. -/
  sequence : h.sequence = (cs.filter (·.firstRevision ≤ last)).length
  seen : ∀ i ∈ h.seen, ∃ c ∈ cs, c.id = i

/-- The commits of a history that start up to a revision reach it, or the end of the history. -/
theorem min_le_length_eventsOf {old post : List Commit} (hc : Continues 0 0 (old ++ post))
    (hm : (eventsOf (old ++ post)).length ≤ maxRevision) {last : Nat}
    (hlater : ∀ c ∈ post, last < c.firstRevision) :
    min last (eventsOf (old ++ post)).length ≤ (eventsOf old).length := by
  rcases Nat.lt_or_ge last (eventsOf (old ++ post)).length with hlt | hge
  · exact (Nat.min_le_left ..).trans (Opening.last_le_old hc hm hlt hlater)
  · cases post with
    | nil => rw [List.append_nil]; exact Nat.min_le_right ..
    | cons d post =>
      have hstart := hlater d (List.mem_cons_self ..)
      have hd : d ∈ old ++ d :: post := by simp
      have hfirst := hc.firstRevision_add hd (by rwa [Nat.zero_add])
      have hrevision := hc.revision_le hd
      have hevents := List.length_pos_iff.2 (hc.of_mem hd).choose_spec.choose_spec.2.1
      omega

/-- What merging a read makes of a new handle, if the read begins with the commit before the view
or with the first of the view. -/
theorem shows_of_merge {cs : List Commit} (stream : StreamId) (hc : Continues 0 0 cs)
    (hid : (cs.map (·.id)).Nodup) (hm : (eventsOf cs).length ≤ maxRevision) {lo first last : Nat}
    (hlo : lo ≤ first) (hlast : lo ≤ last) (hend : lo ≤ (eventsOf cs).length)
    (hh : h = (create stream).merge first last
      (cs.filter fun c => lo ≤ c.revision && c.firstRevision ≤ last)) :
    (first - 1 < min last (eventsOf cs).length → h.revision = min last (eventsOf cs).length) ∧
      { h with revision := min last (eventsOf cs).length }.Shows stream cs (first - 1) last := by
  obtain ⟨pre, mid, post, hcs, hmid, hpre, hpost, hmerge⟩ :=
    Handle.merge_between stream hc hid hm hlo last
  have hlen := length_window 0 first last (eventsOf cs)
  rw [Nat.sub_zero, Nat.sub_zero] at hlen
  have hreach := min_le_length_eventsOf (hcs ▸ hc) (hcs ▸ hm) hpost
  rw [← hcs] at hreach
  have hprefix : ∀ c ∈ pre, c.firstRevision ≤ last := by
    intro c hmem
    have hmem' : c ∈ cs := by rw [hcs]; simp [hmem]
    have hrevision := hpre c hmem
    have hfirst := hc.firstRevision_add hmem' (by rwa [Nat.zero_add])
    have hevents := List.length_pos_iff.2 (hc.of_mem hmem').choose_spec.choose_spec.2.1
    omega
  have hmiddle : ∀ c ∈ mid, c.firstRevision ≤ last := by
    intro c hmem
    rw [hmid] at hmem
    have := (List.mem_filter.1 hmem).2
    simp only [Bool.and_eq_true, decide_eq_true_eq] at this
    exact this.2
  have hstarted : cs.filter (·.firstRevision ≤ last) = pre ++ mid := by
    rw [hcs, List.filter_append, List.filter_eq_self.2, List.filter_eq_nil_iff.2, List.append_nil]
    · intro c hmem
      have := hpost c hmem
      simpa using this
    · intro c hmem
      rcases List.mem_append.1 hmem with hmem | hmem
      · simpa using hprefix c hmem
      · simpa using hmiddle c hmem
  rw [hh, ← hmid, hmerge]
  refine ⟨?_, rfl, rfl, rfl, ?_, ?_⟩
  · intro hlt
    show (if _ then _ else _) = _
    rw [if_neg]
    intro hnil
    rw [hnil, List.length_nil] at hlen
    omega
  · show (if mid = [] then 0 else (pre ++ mid).length) = _
    rw [hstarted]
    split
    · -- nothing was read: then no commit comes before the first revision that was asked for
      rename_i hnil
      rw [hnil, List.append_nil] at hreach hcs ⊢
      cases hl : pre.getLast? with
      | none => rw [List.getLast?_eq_none_iff.1 hl]; rfl
      | some c =>
        have hbefore := hpre c (List.mem_of_getLast? hl)
        rw [hcs, Continues.append_iff] at hc
        have hrevision := (hc.1.getLast hl).2.2
        omega
    · rfl
  · intro i hi
    obtain ⟨c, hmem, he⟩ := List.mem_map.1 (List.mem_reverse.1 hi)
    exact ⟨c, by rw [hcs]; simp [hmem], he⟩

/-- Commits events under headers through a handle that has nothing else staged. -/
def commitStaged (h : Handle) (staged : List Event) (headers : Fields) (id : CommitId)
    (stamp : Stamp) : Program (Handle × Except Fault (Option Commit)) :=
  { h with uncommitted := staged, uncommittedHeaders := headers }.commitChanges id stamp

/-- Two handles that stand at one place of a stream write the same, up to the stamp. -/
theorem commitStaged_agrees {g : Handle} (hk : m.ledger.Kept) (hr : m.readsDisabled = false)
    (hm : m.commitsDisabled = false) (hstream : h.stream = g.stream)
    (hrevision : h.revision = g.revision) (hsequence : h.sequence = g.sequence)
    (hh : ∀ i ∈ h.seen, ∃ c ∈ m.ledger.ofStream h.stream, c.id = i)
    (hg : ∀ i ∈ g.seen, ∃ c ∈ m.ledger.ofStream g.stream, c.id = i)
    (staged : List Event) (headers : Fields) (id : CommitId) (stamp stamp' : Stamp) :
    (((h.commitStaged staged headers id stamp).run Memory.engine m).value.2
          = ((g.commitStaged staged headers id stamp').run Memory.engine m).value.2 ∧
        ((h.commitStaged staged headers id stamp).run Memory.engine m).state = m ∧
        ((g.commitStaged staged headers id stamp').run Memory.engine m).state = m) ∨
      ∃ c, ((g.commitStaged staged headers id stamp').run Memory.engine m).value.2
          = .ok (some c) ∧
        ((g.commitStaged staged headers id stamp').run Memory.engine m).state
          = { m with ledger := m.ledger.append c } ∧
        ((h.commitStaged staged headers id stamp).run Memory.engine m).value.2
          = .ok (some { c with stamp := stamp }) ∧
        ((h.commitStaged staged headers id stamp).run Memory.engine m).state
          = { m with ledger := m.ledger.append { c with stamp := stamp } } := by
  obtain ⟨hanswer, hstate⟩ := run_commitChanges
    (h := { h with uncommitted := staged, uncommittedHeaders := headers }) hk hr hm hh id stamp
  obtain ⟨ganswer, gstate⟩ := run_commitChanges
    (h := { g with uncommitted := staged, uncommittedHeaders := headers }) hk hr hm hg id stamp'
  unfold commitStaged
  have hattempt : attempt id stamp
        { h with uncommitted := staged, uncommittedHeaders := headers }
      = { attempt id stamp' { g with uncommitted := staged, uncommittedHeaders := headers } with
          stamp := stamp } := by
    simp only [attempt, hstream, hrevision, hsequence]
  rw [hanswer, hstate, ganswer, gstate, hattempt]
  generalize attempt id stamp' _ = a
  obtain ⟨hsame, hkept⟩ | ⟨c, hc, hrestamped⟩ := Memory.commit_restamp a stamp m
  · rw [hsame]
    exact .inl ⟨rfl, hkept, hkept⟩
  · rw [hc, hrestamped]
    exact .inr ⟨c, rfl, rfl, rfl, rfl⟩

/-- **Starting from a snapshot agrees with replaying the whole stream.**  For a snapshot at a
revision that the stream has, and a last revision not below it, both handles are opened and stand at
the same revision and sequence; the one from the snapshot shows the same events without those that
the snapshot stands for. Whatever is then committed through either, the answer and the store after
it are the same, up to the stamp of a commit that is stored. -/
theorem openFromSnapshot_agrees (ops : List Operation) (hops : ∀ op ∈ ops, op.InWords)
    (t : Snapshot) (last : Nat) (hfirst : 1 ≤ t.revision)
    (hhead : t.revision ≤ (eventsOf ((Memory.after ops).ledger.ofStream t.stream)).length)
    (hlast : t.revision ≤ last) (hroom : t.revision < maxRevision) :
    ∃ part full : Handle,
      ((openFromSnapshot t last).run Memory.engine (Memory.after ops)).value = .ok part ∧
      ((openWindow t.stream 0 last).run Memory.engine (Memory.after ops)).value = .ok full ∧
      full.committed = (eventsOf ((Memory.after ops).ledger.ofStream t.stream)).take last ∧
      part.committed = full.committed.drop t.revision ∧
      part.revision = full.revision ∧ part.sequence = full.sequence ∧
      ∀ staged headers id stamp stamp',
        let atSnapshot := (part.commitStaged staged headers id stamp).run Memory.engine
          (Memory.after ops)
        let atStart := (full.commitStaged staged headers id stamp').run Memory.engine
          (Memory.after ops)
        (atSnapshot.value.2 = atStart.value.2 ∧ atSnapshot.state = Memory.after ops ∧
            atStart.state = Memory.after ops) ∨
          ∃ c, atStart.value.2 = .ok (some c) ∧
            atStart.state = { Memory.after ops with ledger := (Memory.after ops).ledger.append c } ∧
            atSnapshot.value.2 = .ok (some { c with stamp := stamp }) ∧
            atSnapshot.state = { Memory.after ops with
              ledger := (Memory.after ops).ledger.append { c with stamp := stamp } } := by
  have hs := Memory.sound_after ops
  have hm := Memory.length_eventsOf_le hops t.stream
  have hc := hs.kept.history t.stream
  have hid := hs.kept.ids t.stream
  have hnext : nextRevision t.revision = t.revision + 1 := Nat.min_eq_left hroom
  -- the whole stream
  obtain ⟨full, hfull⟩ : ∃ full, full = (create t.stream).merge 0 last
    (((Memory.after ops).ledger.ofStream t.stream).filter fun c =>
      0 ≤ c.revision && c.firstRevision ≤ last) := ⟨_, rfl⟩
  have hopen := run_openWindow hs.reads t.stream 0 last
  rw [if_neg (fun h => absurd h.1 (Nat.lt_irrefl 0)), Ledger.read_revisions, ← hfull] at hopen
  obtain ⟨hrevision, hshows⟩ := shows_of_merge t.stream hc hid hm (Nat.le_refl 0)
    (Nat.zero_le last) (Nat.zero_le _) hfull
  rw [← hrevision (by omega)] at hshows
  -- what comes after the snapshot
  obtain ⟨rest, hrest⟩ : ∃ rest, rest = (create t.stream).merge (t.revision + 1) last
    (((Memory.after ops).ledger.ofStream t.stream).filter fun c =>
      t.revision ≤ c.revision && c.firstRevision ≤ last) := ⟨_, rfl⟩
  have hpart := run_openFromSnapshot hs.reads t last
  rw [Ledger.read_revisions, hnext, ← hrest] at hpart
  obtain ⟨-, hshows'⟩ := shows_of_merge t.stream hc hid hm (Nat.le_succ t.revision)
    hlast hhead hrest
  have hcommitted : rest.committed = full.committed.drop t.revision := by
    rw [hshows'.committed, hshows.committed]
    rfl
  have hlength : t.revision + rest.committed.length
      = min last (eventsOf ((Memory.after ops).ledger.ofStream t.stream)).length := by
    rw [hshows'.committed, List.length_drop, List.length_take]
    omega
  rw [hlength] at hpart
  have hsequence := hshows'.sequence.trans hshows.sequence.symm
  refine ⟨_, full, hpart, hopen, hshows.committed, hcommitted, hshows.revision.symm, hsequence,
    fun staged headers id stamp stamp' => ?_⟩
  exact commitStaged_agrees hs.kept hs.reads hs.commits
    (hshows'.stream.trans hshows.stream.symm) hshows.revision.symm hsequence
    (hshows'.stream.symm ▸ hshows'.seen) (hshows.stream.symm ▸ hshows.seen)
    staged headers id stamp stamp'

/-- A stream of three events and then two, with a snapshot taken inside the first commit. -/
def longCommits : List Operation :=
  [.commit (Memory.sampleAttempt "a" 1 3 3 1), .commit (Memory.sampleAttempt "a" 2 5 2 2),
    .addSnapshot ⟨⟨"tenant", "a"⟩, 2, ⟨"state", .null⟩⟩]

/-- The view begins inside the first commit and ends inside the second. -/
theorem openFromSnapshot_agrees_longCommits :
    let t : Snapshot := ⟨⟨"tenant", "a"⟩, 2, ⟨"state", .null⟩⟩
    (∀ op ∈ longCommits, op.InWords) ∧ 1 ≤ t.revision ∧
      t.revision ≤ (eventsOf ((Memory.after longCommits).ledger.ofStream t.stream)).length ∧
      t.revision ≤ 4 ∧ t.revision < maxRevision ∧
      ∃ part full : Handle,
        ((openFromSnapshot t 4).run Memory.engine (Memory.after longCommits)).value = .ok part ∧
        ((openWindow t.stream 0 4).run Memory.engine (Memory.after longCommits)).value = .ok full ∧
        part.committed = full.committed.drop 2 ∧ full.committed.length = 4 ∧
        part.revision = full.revision ∧ part.sequence = full.sequence := by
  intro t
  have hops : ∀ op ∈ longCommits, op.InWords := by decide
  have hhead : t.revision
      ≤ (eventsOf ((Memory.after longCommits).ledger.ofStream t.stream)).length := by
    decide +kernel
  obtain ⟨part, full, hpart, hfull, hshown, hcommitted, hrevision, hsequence, -⟩ :=
    openFromSnapshot_agrees longCommits hops t 4 (by decide) hhead (by decide) (by decide)
  refine ⟨hops, by decide, hhead, by decide, by decide, part, full, hpart, hfull, hcommitted, ?_,
    hrevision, hsequence⟩
  rw [hshown]
  decide +kernel

end Handle
end EventSourcing
