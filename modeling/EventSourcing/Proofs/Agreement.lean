import EventSourcing.Proofs.ReadBack
import EventSourcing.Proofs.Replies
import EventSourcing.Proofs.Tables

/-!
# The two stores agree

A store in tables and the store in memory, both empty at first, give the same answers to every run
of operations (`Database.replies_eq_iff`), if the one in memory gets stamps in whole microseconds
and pages are no greater than the database can be asked for. Greater pages fail every read and
nothing else, so then the answers are the same just for the runs that never read.

The runs are those whose records are read back from rows (`Operation.Storable`) and whose names can
stand in statements, with no use of the store between dropping it and setting it up again, and no
longer than there are row numbers. One operation keeps `Agrees`: the tables hold the ledger, or
there are none and the ledger is empty. Data that begins with `Json.rawKey` is not read back, and
there the answers differ at any number of rows of a page (`Database.replies_ne_raw`).
-/

namespace EventSourcing

namespace Operation

/-- The operation with its stamps in whole microseconds. -/
def floored : Operation → Operation
  | .commit a => .commit a.floored
  | .read q => .read q.floored
  | op => op

/-- What an operation records is read back from rows. -/
def Storable : Operation → Prop
  | .commit a => a.Storable
  | .addSnapshot s => s.Storable
  | _ => True

instance : DecidablePred Storable
  | .commit a => inferInstanceAs (Decidable a.Storable)
  | .addSnapshot s => inferInstanceAs (Decidable s.Storable)
  | .read _ | .snapshot .. | .streamsToSnapshot .. | .setUp | .dropStore | .purge _ | .purgeAll
  | .deleteStream _ => .isTrue trivial

end Operation

namespace Database

/-- A store in tables and one in memory hold the same, after at most so many operations. -/
structure Agrees (o : TableOptions) (count : Nat) (db : Database) (m : Memory) : Prop where
  sound : ∃ ts, Memory.Sound m ts ∧ ts.length ≤ count
  holds : ∀ t ∈ db, Tables.Holds o.layout t m.ledger
  dropped : db = none → m.ledger = {}

variable {o : TableOptions} {n : Nat} {db : Database} {m : Memory} {op : Operation}
  {ops : List Operation}

theorem agrees_some {t : Tables} (hsound : ∃ ts, Memory.Sound m ts ∧ ts.length ≤ n)
    (ht : Tables.Holds o.layout t m.ledger) : Agrees o n (some t) m where
  sound := hsound
  holds := by
    rintro u ⟨rfl⟩
    exact ht
  dropped h := nomatch h

theorem agrees_empty (o : TableOptions) : Agrees o 0 (some {}) Memory.empty :=
  agrees_some ⟨[], Memory.sound_empty, Nat.le_refl 0⟩ .empty

theorem plain_read (o : TableOptions) (q : Query) (db : Database) :
    (Operation.read q).plain (engine o (.read q) db).1.reply = .read (Database.read o q db) :=
  congrArg PlainReply.read (Feed.items_ofItems _)

/-- An attempt on stores that hold the same, with events or without. -/
theorem commit_holds {t : Tables} {ts : List Int} {a : Attempt} (hsound : Memory.Sound m ts)
    (ht : Tables.Holds o.layout t m.ledger) (hlast : m.ledger.lastCheckpoint < Tables.maxRow)
    (ha : a.Storable) (hname : a.stream.quotable = true) :
    (Database.commit o a (some t)).1 = (Memory.commit a.floored m).1 ∧
      ∃ t', (Database.commit o a (some t)).2 = some t' ∧
        Tables.Holds o.layout t' (Memory.commit a.floored m).2.ledger := by
  have hevents : a.floored.events = a.events := rfl
  rw [commit_some, Memory.commit_eq hsound.commits, hevents]
  by_cases hne : a.events = []
  · rw [if_pos hne, if_pos hne]
    exact ⟨rfl, t, rfl, ht⟩
  · obtain ⟨he, ht'⟩ := ht.commit hsound.kept hsound.nonneg hlast ha hname
    rw [if_neg hne, if_neg hne]
    exact ⟨he, _, rfl, ht'⟩

/-- Only dropping the store leaves no tables. -/
theorem eq_dropStore_of_none (hset : db = none → op = .setUp) (h : (engine o op db).2 = none) :
    op = .dropStore := by
  cases db with
  | none =>
    rw [hset rfl] at h
    cases h
  | some t =>
    cases op with
    | dropStore => rfl
    | commit a =>
      change (Database.commit o a (some t)).2 = none at h
      rw [commit_some] at h
      split at h <;> cases h
    | purge | deleteStream =>
      change (update _ _ (some t)).2 = none at h
      rw [update] at h
      split at h <;> cases h
    | _ => cases h

/-- An operation on stores that hold the same is answered alike, and they hold the same after it. -/
theorem Agrees.step (h : Agrees o n db m) (hop : op.Storable) (hname : op.quotable = true)
    (hn : (n : Int) < Tables.maxRow)
    (hpage : o.pageSize ≤ maxPage ∨ ∀ q, op ≠ .read q) (hset : db = none → op = .setUp) :
    op.plain (engine o op db).1.reply = op.floored.plain (Memory.engine op.floored m).1.reply ∧
      Agrees o (n + 1) (engine o op db).2 (Memory.engine op.floored m).2 := by
  obtain ⟨ts, hsound, hts⟩ := h.sound
  have hnext : ∃ ts, Memory.Sound (Memory.engine op.floored m).2 ts ∧ ts.length ≤ n + 1 :=
    ⟨_, hsound.step op.floored, (Memory.length_handOut_le ts _ _).trans (Nat.succ_le_succ hts)⟩
  have hlast : m.ledger.lastCheckpoint < Tables.maxRow := by
    rw [hsound.last]
    omega
  cases db with
  | none =>
    rw [hset rfl] at hnext ⊢
    refine ⟨rfl, agrees_some hnext ?_⟩
    show Tables.Holds o.layout {} m.ledger
    rw [h.dropped rfl]
    exact .empty
  | some t =>
    have ht := h.holds t rfl
    cases op with
    | commit a =>
      obtain ⟨he, t', hdb, ht'⟩ := commit_holds hsound ht hlast hop hname
      refine ⟨congrArg PlainReply.commit he, ?_⟩
      show Agrees o (n + 1) (Database.commit o a (some t)).2 _
      rw [hdb]
      exact agrees_some hnext ht'
    | read q =>
      have hsize : o.pageSize ≤ maxPage := hpage.resolve_right fun hne => hne q rfl
      refine ⟨?_, agrees_some hnext ht⟩
      rw [Operation.floored, plain_read, Memory.plain_read, Memory.read_eq hsound.reads,
        read_of_quotable hname, ht.commits]
      exact congrArg PlainReply.read <|
        hsound.kept.readRows_eq ht.stored (le_max_left ..) (max_le (by decide) hsize) q
    | snapshot s last =>
      exact ⟨congrArg PlainReply.snapshot (ht.snapshot_eq hsound.kept hname last),
        agrees_some hnext ht⟩
    | addSnapshot u =>
      obtain ⟨he, ht'⟩ := ht.addSnapshot hsound.kept hop hname
      exact ⟨congrArg PlainReply.addSnapshot he, agrees_some hnext ht'⟩
    | streamsToSnapshot tenant threshold =>
      exact ⟨congrArg PlainReply.streamsToSnapshot
        (ht.records.streamsToSnapshot_eq hsound.kept ht.words hname threshold),
        agrees_some hnext ht⟩
    | setUp => exact ⟨rfl, agrees_some hnext ht⟩
    | dropStore => exact ⟨rfl, hnext, fun _ he => (nomatch he), fun _ => rfl⟩
    | purge tenant =>
      have hname : quotable tenant = true := hname
      simp only [engine, update_of_quotable hname]
      exact ⟨rfl, agrees_some hnext (ht.dropTenant tenant)⟩
    | purgeAll => exact ⟨rfl, agrees_some hnext ht.clear⟩
    | deleteStream s =>
      have hname : s.quotable = true := hname
      simp only [engine, update_of_quotable hname]
      exact ⟨rfl, agrees_some hnext (ht.dropStream s)⟩

/-- Runs on stores that hold the same are answered alike. -/
theorem Agrees.replies_eq (h : Agrees o n db m) (hops : ∀ op ∈ ops, op.Storable)
    (hnames : ∀ op ∈ ops, op.quotable = true)
    (hchain : ops.IsChain fun a b => a = .dropStore → b = .setUp)
    (hlength : (n + ops.length : Nat) ≤ Tables.maxRow)
    (hpage : o.pageSize ≤ maxPage ∨ ∀ q, .read q ∉ ops)
    (hset : db = none → ∀ op ∈ ops.head?, op = .setUp) :
    (engine o).replies db ops = Memory.engine.replies m (ops.map .floored) := by
  induction ops generalizing n db m with
  | nil => rfl
  | cons op ops ih =>
    obtain ⟨hop, hops⟩ := List.forall_mem_cons.1 hops
    obtain ⟨hname, hnames⟩ := List.forall_mem_cons.1 hnames
    rw [List.length_cons] at hlength
    obtain ⟨he, hnext⟩ := h.step hop hname (by omega)
      (hpage.imp_right fun hq q heq => hq q (heq ▸ List.mem_cons_self ..))
      (fun hnone => hset hnone op rfl)
    rw [Engine.replies_cons, List.map_cons, Engine.replies_cons, he]
    congr 1
    refine ih hnext hops hnames hchain.tail (by omega)
      (hpage.imp_right fun hq q hmem => hq q (List.mem_cons_of_mem _ hmem)) fun hnone b hb => ?_
    have hdrop := eq_dropStore_of_none (fun hnone => hset hnone op rfl) hnone
    cases ops with
    | nil => exact nomatch hb
    | cons c ops =>
      rw [← Option.some.inj hb]
      exact (List.isChain_cons_cons.1 hchain).1 hdrop

/-- A store whose pages are too great fails every read, and one in memory none. -/
theorem replies_ne_of_read (hpage : maxPage < o.pageSize) (hm : m.readsDisabled = false)
    {q : Query} (hq : .read q ∈ ops) :
    (engine o).replies db ops ≠ Memory.engine.replies m (ops.map .floored) := by
  induction ops generalizing db m with
  | nil => exact absurd hq List.not_mem_nil
  | cons op ops ih =>
    rw [Engine.replies_cons, List.map_cons, Engine.replies_cons]
    intro he
    obtain ⟨hhead, htail⟩ := List.cons.inj he
    rcases List.mem_cons.1 hq with rfl | hq
    · rw [Operation.floored, plain_read, Memory.plain_read, Memory.read_eq hm] at hhead
      have hrefused : Database.read o q db = [.error .database] := by
        cases db with
        | none => rfl
        | some t =>
          rw [Database.read]
          split
          · exact if_pos (lt_of_lt_of_le hpage (le_max_right ..))
          · rfl
      rw [hrefused] at hhead
      cases hread : m.ledger.read q.floored with
      | nil => rw [hread] at hhead; exact nomatch hhead
      | cons c cs => rw [hread] at hhead; exact nomatch hhead
    · exact ih ((Memory.engine_switches _ m).1.trans hm) hq htail

/-- **The two stores agree.**  From empty stores on, a run whose records are read back, under names
that a statement can hold, is answered by the tables as by the store in memory that gets its stamps
in whole microseconds, error for error and commit for commit, if and only if a page is no greater
than the database can be asked for or the run never reads. -/
theorem replies_eq_iff (o : TableOptions) (ops : List Operation)
    (hops : ∀ op ∈ ops, op.Storable) (hnames : ∀ op ∈ ops, op.quotable = true)
    (hchain : ops.IsChain fun a b => a = .dropStore → b = .setUp)
    (hlength : ops.length ≤ Tables.maxRow) :
    (engine o).replies (some {}) ops = Memory.engine.replies .empty (ops.map .floored) ↔
      o.pageSize ≤ maxPage ∨ ∀ q, .read q ∉ ops := by
  refine ⟨fun he => ?_, fun hpage => (agrees_empty o).replies_eq hops hnames hchain
    (by rwa [Nat.zero_add]) hpage fun hnone => nomatch hnone⟩
  by_contra hnot
  push Not at hnot
  obtain ⟨hpage, q, hq⟩ := hnot
  exact replies_ne_of_read hpage rfl hq he

/-- A run with attempts of every kind, one of them before 1970 and between two microseconds, a
snapshot, reads of every kind, and the store dropped and set up again before the last read. -/
def sampleRun : List Operation :=
  Memory.sampleRun ++
    [.commit { Memory.sampleAttempt "c" 1 1 1 6 with stamp := ⟨-1⟩ },
      .read (.revisions ⟨"tenant", "a"⟩ 1 9), .read (.during "tenant" ⟨-1⟩ none),
      .snapshot ⟨"tenant", "a"⟩ 4, .streamsToSnapshot "tenant" 0, .dropStore, .setUp,
      .read (.after "tenant" 0)]

theorem replies_eq_iff_sampleRun :
    (∀ op ∈ sampleRun, op.Storable) ∧ (∀ op ∈ sampleRun, op.quotable = true) ∧
      (sampleRun.IsChain fun a b => a = .dropStore → b = .setUp) ∧
      (sampleRun.length : Int) ≤ Tables.maxRow ∧
      (engine ⟨1, .indented⟩).replies (some {}) sampleRun
        = Memory.engine.replies .empty (sampleRun.map .floored) := by
  have hops : ∀ op ∈ sampleRun, op.Storable := by decide +kernel
  have hnames : ∀ op ∈ sampleRun, op.quotable = true := by decide +kernel
  have hchain : sampleRun.IsChain fun a b => a = .dropStore → b = .setUp := by decide +kernel
  have hlength : (sampleRun.length : Int) ≤ Tables.maxRow := by decide
  exact ⟨hops, hnames, hchain, hlength,
    (replies_eq_iff ⟨1, .indented⟩ sampleRun hops hnames hchain hlength).2 (.inl (by decide))⟩

/-- One row more than the database can be asked for: the empty store in tables refuses to read. -/
theorem replies_ne_great_page :
    (engine ⟨9223372036854775808, .compact⟩).replies (some {})
        [.read (.revisions ⟨"t", "s"⟩ 0 10)] = [.read [.error .database]] ∧
      Memory.engine.replies .empty ([.read (.revisions ⟨"t", "s"⟩ 0 10)].map .floored)
        = [.read []] ∧
      (engine ⟨9223372036854775808, .compact⟩).replies (some {})
          [.read (.revisions ⟨"t", "s"⟩ 0 10)]
        ≠ Memory.engine.replies .empty ([.read (.revisions ⟨"t", "s"⟩ 0 10)].map .floored) :=
  ⟨rfl, rfl, fun h => nomatch h⟩

/-- An accepted event whose data begins with `Json.rawKey` is read from the tables as the number
that its string spells, and from memory as it was. -/
theorem replies_ne_raw :
    read {} (.after "tenant" 0) (Database.commit {} (rawAttempt "1") (some {})).2
        = [.ok ({ rawAttempt "1" with events := [⟨⟨"event", .int 1⟩, []⟩] }.confirm 1)] ∧
      (engine {}).replies (some {}) [.commit (rawAttempt "1"), .read (.after "tenant" 0)]
        ≠ Memory.engine.replies .empty
          ([.commit (rawAttempt "1"), .read (.after "tenant" 0)].map .floored) := by
  have htables : read {} (.after "tenant" 0) (Database.commit {} (rawAttempt "1") (some {})).2
      = [.ok ({ rawAttempt "1" with events := [⟨⟨"event", .int 1⟩, []⟩] }.confirm 1)] := by
    decide +kernel
  have hmemory : Memory.read (.after "tenant" 0) (Memory.commit (rawAttempt "1").floored .empty).2
      = [.ok ((rawAttempt "1").confirm 1)] := by decide +kernel
  refine ⟨htables, fun he => ?_⟩
  obtain ⟨-, hrest⟩ := List.cons.inj he
  obtain ⟨hread, -⟩ := List.cons.inj hrest
  have hitems := PlainReply.read.inj <|
    (plain_read ..).symm.trans (hread.trans (Memory.plain_read ..))
  have hne : (Except.ok ({ rawAttempt "1" with events := [⟨⟨"event", .int 1⟩, []⟩] }.confirm 1)
      : Item) ≠ .ok ((rawAttempt "1").confirm 1) := by decide +kernel
  exact hne (List.cons.inj (htables.symm.trans (hitems.trans hmemory))).1

end Database
end EventSourcing
