import EventSourcing.Proofs.Derived
import EventSourcing.Proofs.Remote

/-!
# A remote store is as good as a local one

Let a server keep a store in memory and answer as the service documents (`Remote.Serves`), and let a
client send what loses nothing on the way (`Remote.Portable`). The commits, snapshots and heads that
the store tells of were sent to it before. So the client gets the answers that the store in memory
gives, if and only if it takes every message that comes back (`Remote.client_transparent`). It takes
them all if the records that are sent leave a little room in a message (`Remote.takesAll_of_small`).
`Remote.memoryServer` is such a server.
-/

namespace EventSourcing
namespace Remote

open Wire

/-! ## Runs -/

section Runs

variable {past : List Operation}

/-- What a store tells of was sent to it before. -/
theorem stored_of_mem (hpast : ∀ op ∈ past, Portable op)
    (hlength : past.length ≤ 9223372036854775807) {c : Commit}
    (hc : c ∈ (Memory.after past).ledger.log) : Stored c where
  sent := (hpast _ (Memory.commit_mem_of_mem_log hc)).carried
  checkpoint_mem := by
    have hsound := Memory.sound_after past
    have htokens := Memory.length_tokens_le past
    obtain ⟨hfirst, hlast⟩ := hsound.kept.checkpoints c hc
    rw [hsound.last] at hlast
    omega

/-- An attempt is answered with a commit of the store, or refused. -/
theorem commit_comes {P : Commit → Prop} {a : Attempt} (hne : a.events ≠ [])
    (h : ∀ c ∈ (Memory.after (past ++ [.commit a])).ledger.log, P c) :
    Comes P a (Memory.commit a (Memory.after past)).1 := by
  have hsound := Memory.sound_after past
  have hafter : Memory.after (past ++ [.commit a]) = (Memory.commit a (Memory.after past)).2 :=
    Memory.after_concat ..
  rw [hafter, Memory.commit_eq hsound.commits, if_neg hne] at h
  rw [Memory.commit_eq hsound.commits, if_neg hne]
  obtain ⟨c, hc, -, he⟩ | ⟨-, ⟨-, he⟩ | ⟨-, he⟩ | ⟨-, he⟩⟩ := hsound.kept.commit_cases a <;>
    rw [he] at h ⊢
  · exact .duplicate (h c (Ledger.mem_ofStream.1 hc).1)
  · exact .conflict
  · exact .gap _ _
  · exact .committed (h _ (List.mem_append_right _ (List.mem_singleton_self _)))

/-- Heads have revisions that were sent. -/
theorem heads_fit (hpast : ∀ op ∈ past, Portable op)
    (hlength : past.length ≤ 9223372036854775807) {tenant : String} {threshold : Nat}
    {h : StreamHead} (hh : h ∈ (Memory.after past).ledger.streamsToSnapshot tenant threshold) :
    h.head ≤ maxRevision ∧ h.snapshot ≤ maxRevision := by
  obtain ⟨c, hc, -, hhead, hsnapshot⟩ := (Memory.sound_after
    past).kept.exists_of_mem_streamsToSnapshot (Memory.filed_after past) hh
  have hrevision := (stored_of_mem hpast hlength hc).sendable.revision_le
  exact ⟨hhead ▸ hrevision, hsnapshot.trans hrevision⟩

variable {σ : Type} {layout : Layout} {server : Server σ} {store : σ → Memory}

/-- **One operation through a server is answered as by its store**, if the client takes every
message that comes back. -/
theorem Serves.step (hserver : Serves layout server store) (clients : Layout) {s : σ}
    (hs : store s = Memory.after past) {op : Operation} (hop : Portable op)
    (hpast : ∀ op ∈ past, Portable op) (hlength : past.length < 9223372036854775807) :
    (op.plain (engine clients server op s).1.reply
        = op.plain (Memory.engine op (Memory.after past)).1.reply ↔
      takes clients server s op = true) ∧
      store (engine clients server op s).2 = Memory.after (past ++ [op]) := by
  rw [Memory.after_concat, ← hs]
  by_cases hsent : ∀ a, op = .commit a → a.events ≠ []
  · obtain ⟨htells, hstate⟩ := hserver.send clients hop s
    rw [engine_eq clients server s hsent, takes_eq clients server s hsent]
    refine ⟨?_, hstate⟩
    rw [hs] at htells ⊢
    cases op with
    | commit a =>
      have hcomes := commit_comes (hsent a rfl) fun c => stored_of_mem
        (List.forall_mem_append.2 ⟨hpast, List.forall_mem_singleton.2 hop⟩)
        (by rw [List.length_append, List.length_singleton]; omega)
      rw [← answer_commit_iff hcomes htells]
      exact PlainReply.commit.injEq .. ▸ Iff.rfl
    | read q =>
      have hread : Feed.items (Memory.engine (.read q) (Memory.after past)).1.reply
          = ((Memory.after past).ledger.read q).map .ok :=
        (Feed.items_ofItems _).trans (Memory.read_eq (Memory.sound_after past).reads q)
      have hstored : ∀ c ∈ (Memory.after past).ledger.read q, Stored c := fun c hc =>
        stored_of_mem hpast (Nat.le_of_lt hlength) (Ledger.mem_read.1 hc).1
      rw [← answer_read_iff hstored hread htells, ← hread]
      exact PlainReply.read.injEq .. ▸ Iff.rfl
    | snapshot stream last =>
      rw [← answer_snapshot_iff (fun u hu => (hpast _
        (Memory.addSnapshot_mem_of_mem_snapshotsOf (Ledger.mem_of_snapshot hu))).carried) htells]
      exact PlainReply.snapshot.injEq .. ▸ Iff.rfl
    | addSnapshot t =>
      obtain ⟨hanswer, hshort⟩ := answer_addSnapshot htells
      exact iff_of_true (congrArg PlainReply.addSnapshot hanswer) hshort
    | streamsToSnapshot tenant threshold =>
      rw [← answer_heads_iff (fun h hh => heads_fit hpast (Nat.le_of_lt hlength) hh) htells]
      exact PlainReply.streamsToSnapshot.injEq .. ▸ Iff.rfl
    | setUp | dropStore | purge | purgeAll | deleteStream =>
      have hdone : (Remote.send server (request clients _) s).1 = .answered [[]] none := htells
      exact iff_of_true (congrArg (fun d => PlainReply.done (unitAnswer d)) hdone)
        (hdone ▸ rfl)
  · -- an attempt without events is not sent, and the store would not have changed either
    push Not at hsent
    obtain ⟨a, rfl, ha⟩ := hsent
    have hnone : Memory.commit a (store s) = (.ok none, store s) := by
      rw [Memory.commit, if_pos (List.isEmpty_iff.2 ha)]
    have hunsent : engine clients server (.commit a) s = (⟨.ok none, []⟩, s) :=
      if_pos (List.isEmpty_iff.2 ha)
    rw [hunsent, takes, List.isEmpty_iff.2 ha, Bool.true_or]
    exact ⟨iff_of_true (congrArg PlainReply.commit (congrArg Prod.fst hnone).symm) rfl,
      (congrArg Prod.snd hnone).symm⟩

/-- A run through a server is answered as by its store, whatever went before, if the client takes
every message that comes back. -/
theorem Serves.run (hserver : Serves layout server store) (clients : Layout) {s : σ}
    (hs : store s = Memory.after past) {ops : List Operation} (hpast : ∀ op ∈ past, Portable op)
    (hops : ∀ op ∈ ops, Portable op)
    (hlength : past.length + ops.length ≤ 9223372036854775807) :
    (engine clients server).replies s ops = Memory.engine.replies (Memory.after past) ops ↔
      takesAll clients server s ops = true := by
  induction ops generalizing s past with
  | nil => exact iff_of_true rfl rfl
  | cons op ops ih =>
    obtain ⟨hop, hops⟩ := List.forall_mem_cons.1 hops
    rw [List.length_cons] at hlength
    obtain ⟨hreply, hnext⟩ := hserver.step clients hs hop hpast (by omega)
    have hpast' : ∀ o ∈ past ++ [op], Portable o :=
      List.forall_mem_append.2 ⟨hpast, List.forall_mem_singleton.2 hop⟩
    rw [Engine.replies_cons, Engine.replies_cons, List.cons.injEq, hreply, ← Memory.after_concat,
      ih hnext hpast' hops (by rw [List.length_append, List.length_singleton]; omega), takesAll,
      Bool.and_eq_true]

end Runs

/-! ## Small records

Every message that comes back carries a commit or a snapshot that was sent, or no record at all, and
little besides. So a client takes them all if the records that are sent are small. -/

/-- A record that leaves room in a message for what comes with it, as a server writes it. -/
def Small (layout : Layout) : Operation → Prop
  | .commit a => (CommitMessage.ofAttempt layout a).encode.length + 64 ≤ maxMessage
  | .addSnapshot t => (SnapshotMessage.ofSnapshot layout t).encode.length + 64 ≤ maxMessage
  | _ => True

instance (layout : Layout) : DecidablePred (Small layout)
  | .commit _ | .addSnapshot _ => inferInstanceAs (Decidable (_ ≤ maxMessage))
  | .read _ | .snapshot .. | .streamsToSnapshot .. | .setUp | .dropStore | .purge _ | .purgeAll
  | .deleteStream _ => inferInstanceAs (Decidable True)

/-- A commit of an attempt with a small record. -/
def SmallCommit (layout : Layout) (c : Commit) : Prop := Small layout (.commit c.toAttempt)

/-- A checkpoint is all that a commit has more than its attempt. -/
theorem length_ofCommit (layout : Layout) (c : Commit) :
    (CommitMessage.ofCommit layout c).encode.length
      = (CommitMessage.ofAttempt layout c.toAttempt).encode.length
        + (Protobuf.integer 7 c.checkpoint).length := by
  have hblank : Protobuf.integer 7 0 = [] := rfl
  simp only [CommitMessage.encode, CommitMessage.ofAttempt, CommitMessage.ofCommit,
    List.length_append, hblank, List.length_nil]
  omega

theorem SmallCommit.length_le {layout : Layout} {c : Commit} (h : SmallCommit layout c) {bs : Bytes}
    (hbs : (CommitMessage.ofCommit layout c).Writes bs) : bs.length + 44 ≤ maxMessage := by
  have hsmall : (CommitMessage.ofAttempt layout c.toAttempt).encode.length + 64 ≤ maxMessage := h
  have hcheckpoint := Protobuf.length_integer_le 7 c.checkpoint
  rw [CommitMessage.length_of_writes hbs, length_ofCommit]
  omega

theorem SmallCommit.length_reply_le {layout : Layout} {c : Commit} (h : SmallCommit layout c)
    {o : CommitOutcome} {bs : Bytes}
    (hbs : CommitReply.Writes o (some (.ofCommit layout c)) bs) : bs.length ≤ maxMessage := by
  obtain ⟨cs, hcs, rfl⟩ := hbs
  have hcommit := h.length_le hcs
  have houtcome := Protobuf.length_integer_le 1 o.number
  have hmessage := Protobuf.length_message_le 2 cs
  rw [List.length_append]
  omega

section Small

variable {past : List Operation} {layout : Layout} {d : Delivery}

theorem smallCommit_of_mem (hpast : ∀ op ∈ past, Small layout op) {c : Commit}
    (hc : c ∈ (Memory.after past).ledger.log) : SmallCommit layout c :=
  hpast _ (Memory.commit_mem_of_mem_log hc)

theorem short_commit {a : Attempt} {r : Except Fault (Option Commit)}
    (hr : Comes (SmallCommit layout) a r) (h : Tells layout (.commit a) r d) : d.short = true := by
  cases hr with
  | committed hc | duplicate hc =>
    obtain ⟨bs, hbs, rfl⟩ := h
    exact short_singleton.2 (hc.length_reply_le hbs)
  | conflict =>
    obtain ⟨status, -, rfl⟩ := h
    rfl
  | gap s r =>
    obtain rfl := h
    rfl

theorem short_read {q : Query} {feed : Feed} {cs : List Commit}
    (hcs : ∀ c ∈ cs, SmallCommit layout c) (hfeed : Feed.items feed = cs.map .ok)
    (h : Tells layout (.read q) feed d) : d.short = true := by
  obtain ⟨bss, hbss, rfl⟩ := h cs hfeed
  show bss.all _ = true
  clear hfeed h
  induction hbss with
  | nil => rfl
  | cons hbs _ ih =>
    obtain ⟨hc, hcs⟩ := List.forall_mem_cons.1 hcs
    rw [List.all_cons, ih hcs, Bool.and_true]
    exact decide_eq_true ((Nat.le_add_right _ _).trans (hc.length_le hbs))

theorem short_snapshot {stream : StreamId} {last : Nat} {t : Option Snapshot}
    (ht : ∀ u ∈ t, Small layout (.addSnapshot u))
    (h : Tells layout (.snapshot stream last) (.ok t) d) : d.short = true := by
  obtain rfl := h
  rw [short_singleton]
  cases t with
  | none => exact Nat.zero_le _
  | some u =>
    have hsmall : (SnapshotMessage.ofSnapshot layout u).encode.length + 64 ≤ maxMessage := ht u rfl
    have hmessage := Protobuf.length_message_le 1 (SnapshotMessage.ofSnapshot layout u).encode
    show (Protobuf.message 1 _).length ≤ _
    omega

/-- A head has the names of a commit and two numbers. -/
theorem short_heads {tenant : String} {threshold : Nat} {hs : List StreamHead}
    (hhs : ∀ h ∈ hs, ∃ c, SmallCommit layout c ∧ c.stream = h.stream)
    (h : Tells layout (.streamsToSnapshot tenant threshold) (hs.map .ok) d) : d.short = true := by
  obtain rfl := h hs rfl
  refine List.all_eq_true.2 fun bs hbs => decide_eq_true ?_
  obtain ⟨h, hh, rfl⟩ := List.mem_map.1 hbs
  obtain ⟨c, hc, hstream⟩ := hhs h hh
  have hcommit := hc.length_le (CommitMessage.writes_encode _)
  have hhead := Protobuf.length_word_le 3 h.head
  have hsnapshot := Protobuf.length_word_le 4 h.snapshot
  simp only [CommitMessage.encode, CommitMessage.ofCommit, HeadMessage.encode, HeadMessage.ofHead,
    List.length_append, hstream] at hcommit ⊢
  omega

variable {σ : Type} {server : Server σ} {store : σ → Memory}

/-- One operation is answered with messages that the client takes, if all records are small. -/
theorem Serves.takes_of_small (hserver : Serves layout server store) (clients : Layout) {s : σ}
    (hs : store s = Memory.after past) {op : Operation} (hop : Portable op)
    (hpast : ∀ op ∈ past, Small layout op) (hsmall : Small layout op) :
    takes clients server s op = true := by
  by_cases hsent : ∀ a, op = .commit a → a.events ≠ []
  · obtain ⟨htells, -⟩ := hserver.send clients hop s
    rw [takes_eq clients server s hsent]
    rw [hs] at htells
    cases op with
    | commit a =>
      exact short_commit (commit_comes (hsent a rfl) fun c => smallCommit_of_mem
        (List.forall_mem_append.2 ⟨hpast, List.forall_mem_singleton.2 hsmall⟩)) htells
    | read q =>
      exact short_read (fun c hc => smallCommit_of_mem hpast (Ledger.mem_read.1 hc).1)
        ((Feed.items_ofItems _).trans (Memory.read_eq (Memory.sound_after past).reads q)) htells
    | snapshot stream last =>
      exact short_snapshot (fun u hu => hpast _
        (Memory.addSnapshot_mem_of_mem_snapshotsOf (Ledger.mem_of_snapshot hu))) htells
    | addSnapshot t => exact (answer_addSnapshot htells).2
    | streamsToSnapshot tenant threshold =>
      refine short_heads (fun h hh => ?_) htells
      obtain ⟨c, hc, hstream, -⟩ := (Memory.sound_after
        past).kept.exists_of_mem_streamsToSnapshot (Memory.filed_after past) hh
      exact ⟨c, smallCommit_of_mem hpast hc, hstream⟩
    | setUp | dropStore | purge | purgeAll | deleteStream =>
      have hdone : (Remote.send server (request clients _) s).1 = .answered [[]] none := htells
      exact hdone ▸ rfl
  · push Not at hsent
    obtain ⟨a, rfl, ha⟩ := hsent
    rw [takes, List.isEmpty_iff.2 ha, Bool.true_or]

/-- **A client takes every message that comes back in a run of small records.** -/
theorem takesAll_of_small (hserver : Serves layout server store) (clients : Layout) {s : σ}
    (hs : store s = Memory.after past) {ops : List Operation}
    (hpast : ∀ op ∈ past, Portable op ∧ Small layout op)
    (hops : ∀ op ∈ ops, Portable op ∧ Small layout op)
    (hlength : past.length + ops.length ≤ 9223372036854775807) :
    takesAll clients server s ops = true := by
  induction ops generalizing s past with
  | nil => rfl
  | cons op ops ih =>
    obtain ⟨⟨hop, hsmall⟩, hops⟩ := List.forall_mem_cons.1 hops
    rw [List.length_cons] at hlength
    have hnext := (hserver.step clients hs hop (fun o ho => (hpast o ho).1) (by omega)).2
    have hpast' : ∀ o ∈ past ++ [op], Portable o ∧ Small layout o :=
      List.forall_mem_append.2 ⟨hpast, List.forall_mem_singleton.2 ⟨hop, hsmall⟩⟩
    rw [takesAll, Bool.and_eq_true]
    exact ⟨hserver.takes_of_small clients hs hop (fun o ho => (hpast o ho).2) hsmall,
      ih hnext hpast' hops (by rw [List.length_append, List.length_singleton]; omega)⟩

end Small

section Transparent

variable {σ : Type} {layout : Layout} {server : Server σ} {store : σ → Memory}

/-- **A remote store is as good as a local one.**  Let a server keep a store in memory, empty at
first, and answer as the service documents. Then a client gets from it, for every run of operations
that lose nothing on their way, the answers that the store itself gives (a duplicate with the stored
commit, a conflict with the fields of the attempt, a gap with its text, reads in the same order), if
and only if no message that comes back has more bytes than the client takes. -/
theorem client_transparent (clients : Layout) (hserver : Serves layout server store) (s : σ)
    (hs : store s = .empty) (ops : List Operation) (hops : ∀ op ∈ ops, Portable op)
    (hlength : ops.length ≤ 9223372036854775807) :
    (engine clients server).replies s ops = Memory.engine.replies .empty ops ↔
      takesAll clients server s ops = true := by
  have hfirst : store s = Memory.after [] := hs
  exact hserver.run clients hfirst (List.forall_mem_nil _) hops
    (by rw [List.length_nil, Nat.zero_add]; exact hlength)

end Transparent

/-! ## A server -/

/-- What a server sends back for an answer of its store. -/
def deliver (layout : Layout) : (op : Operation) → op.Reply → Delivery
  | .commit _, .ok none => .answered [CommitReply.encode ⟨CommitOutcome.empty.number, none⟩] none
  | .commit _, .ok (some c) =>
    .answered [CommitReply.encode ⟨CommitOutcome.committed.number, some (.ofCommit layout c)⟩] none
  | .commit _, .error (.duplicate c) =>
    .answered [CommitReply.encode ⟨CommitOutcome.duplicate.number, some (.ofCommit layout c)⟩] none
  | .commit _, .error (.conflict ..) => .answered [] (some ⟨.aborted, "conflict"⟩)
  | .commit _, .error (.invalidAttempt text) => .answered [] (some ⟨.invalidArgument, text⟩)
  | .read _, feed => .answered ((Feed.items feed).filterMap fun i =>
      i.toOption.map fun c => (CommitMessage.ofCommit layout c).encode) none
  | .snapshot _ _, .ok t => .answered [SnapshotReply.encode ⟨t.map (.ofSnapshot layout)⟩] none
  | .addSnapshot _, .ok added => .answered [AddedReply.encode ⟨added⟩] none
  | .streamsToSnapshot _ _, heads => .answered (heads.filterMap fun h =>
      h.toOption.map fun h => (HeadMessage.ofHead h).encode) none
  | .setUp, _ | .dropStore, _ | .purge _, _ | .purgeAll, _ | .deleteStream _, _ =>
    .answered [[]] none
  | _, _ => .answered [] (some ⟨.internal, ""⟩)

/-- A server over a store in memory. Requests that ask for nothing are refused. -/
def memoryServer (layout : Layout) : Server Memory := fun method bs m =>
  match (Request.decode? method bs).bind operation? with
  | none => (.answered [] (some ⟨.invalidArgument, "unreadable request"⟩), m)
  | some op =>
    let (response, m) := Memory.engine op m
    (deliver layout op response.reply, m)

/-- What is delivered for an answer tells it. -/
theorem tells_deliver (layout : Layout) (op : Operation) (r : op.Reply) :
    Tells layout op r (deliver layout op r) := by
  cases op with
  | commit a =>
    match r with
    | .ok none => exact ⟨_, CommitReply.writes_encode .empty none, rfl⟩
    | .ok (some c) => exact ⟨_, CommitReply.writes_encode .committed _, rfl⟩
    | .error e =>
      cases e with
      | duplicate c => exact ⟨_, CommitReply.writes_encode .duplicate _, rfl⟩
      | conflict stream revision sequence =>
        exact ⟨⟨.aborted, "conflict"⟩, by decide +kernel, rfl⟩
      | invalidAttempt text => rfl
      | _ => trivial
  | read q =>
    intro cs hcs
    refine ⟨cs.map fun c => (CommitMessage.ofCommit layout c).encode, ?_, ?_⟩
    · rw [List.forall₂_map_right_iff, List.forall₂_same]
      exact fun c _ => CommitMessage.writes_encode _
    · show Delivery.answered ((Feed.items r).filterMap _) none = _
      rw [hcs, List.filterMap_map, ← List.filterMap_eq_map]
      rfl
  | snapshot stream last =>
    cases r with
    | ok t => rfl
    | error e => trivial
  | addSnapshot t =>
    cases r with
    | ok added => rfl
    | error e => trivial
  | streamsToSnapshot tenant threshold =>
    rintro hs rfl
    show Delivery.answered ((hs.map Except.ok).filterMap _) none = _
    rw [List.filterMap_map, ← List.filterMap_eq_map]
    rfl
  | setUp | dropStore | purge | purgeAll | deleteStream => rfl

theorem serves_memoryServer (layout : Layout) : Serves layout (memoryServer layout) id where
  tells hread hop m := by
    rw [memoryServer, hread, Option.bind_some, hop]
    exact tells_deliver layout _ _
  state hread hop m := by
    rw [memoryServer, hread, Option.bind_some, hop]
    rfl

/-- Two writers on one stream: the same commit twice, one that comes too late, one too early, one
without events and one that fits, then a snapshot, a read of each kind, and everything deleted. -/
def sampleRun : List Operation :=
  [.commit (Memory.sampleAttempt "a" 1 2 2 1), .commit (Memory.sampleAttempt "a" 1 2 2 1),
    .commit (Memory.sampleAttempt "a" 1 1 1 2), .commit (Memory.sampleAttempt "a" 3 4 1 3),
    .commit (Memory.sampleAttempt "a" 2 2 0 4), .commit (Memory.sampleAttempt "a" 2 3 1 5),
    .addSnapshot ⟨⟨"tenant", "a"⟩, 2, ⟨"state", .null⟩⟩, .read (.revisions ⟨"tenant", "a"⟩ 2 9),
    .read (.after "tenant" (-1)), .read (.during "tenant" ⟨-1000000000⟩ (some ⟨1000000000⟩)),
    .snapshot ⟨"tenant", "a"⟩ 9, .streamsToSnapshot "tenant" 0, .deleteStream ⟨"tenant", "a"⟩,
    .purge "tenant", .purgeAll]

theorem carried_sampleAttempt (stream : String) {sequence revision events : Nat} (id : UInt8)
    (hsequence : sequence ≤ maxRevision) (hrevision : revision ≤ maxRevision)
    (hevents : events ≤ maxRevision) :
    Carried (.commit (Memory.sampleAttempt stream sequence revision events id)) := by
  have hall {P : Json → Prop} (hP : ∀ n < events, P (.int n)) :
      ((Memory.sampleAttempt stream sequence revision events id).confirm 0).EveryValue P P := by
    refine ⟨List.forall_mem_nil _, fun e he => ?_⟩
    obtain ⟨n, hn, rfl⟩ := List.mem_map.1 he
    obtain ⟨k, hk, rfl⟩ : ∃ k < events, n = (k : Int) := by simpa using hn
    exact ⟨hP k hk, List.forall_mem_nil _⟩
  have hregular : ∀ n < events, (Json.int n).Regular := fun n hn => by
    show exactInt n = true
    unfold maxRevision at hevents
    simp only [exactInt, Bool.and_eq_true, decide_eq_true_eq]
    omega
  have hsorted : ∀ e ∈ (Memory.sampleAttempt stream sequence revision events id).events,
      Fields.Sorted e.headers := fun e he => by
    obtain ⟨n, -, rfl⟩ := List.mem_map.1 he
    exact List.Pairwise.nil
  have hmin : Stamp.minSeconds ≤ (Stamp.mk 0).seconds := by decide
  have hmax : (Stamp.mk 0).seconds ≤ Stamp.maxSeconds := by decide
  have hzero : -9223372036854775808 ≤ (0 : Int) ∧ (0 : Int) < 9223372036854775808 := by decide
  have hdepths := hall (P := fun v => v.depth < Json.maxDepth) fun _ _ => (by decide : 0 < 127)
  exact {
    sendable := ⟨hrevision, hsequence, hmin, hmax, hzero, List.Pairwise.nil, hsorted,
      hall hregular⟩
    whole := hall fun _ _ => trivial
    plain := hall fun _ _ => rfl
    shallow := ⟨List.forall_mem_nil _, fun e he =>
      ⟨(hdepths.events e he).data, fun f hf => Nat.le_of_lt ((hdepths.events e he).headers f hf)⟩⟩
    onSecond := rfl }

theorem client_transparent_sampleRun :
    Serves .indented (memoryServer .indented) id ∧ (∀ op ∈ sampleRun, Portable op) ∧
      sampleRun.length ≤ 9223372036854775807 ∧
      takesAll .compact (memoryServer .indented) .empty sampleRun = true ∧
      (engine .compact (memoryServer .indented)).replies .empty sampleRun
        = Memory.engine.replies .empty sampleRun := by
  have hcarried : ∀ op ∈ sampleRun, Carried op := by
    intro op hop
    simp only [sampleRun, List.mem_cons, List.not_mem_nil, or_false] at hop
    rcases hop with rfl | rfl | rfl | rfl | rfl | rfl | rfl | rfl | rfl | rfl | rfl | rfl | rfl |
      rfl | rfl
    any_goals exact carried_sampleAttempt "a" _ (by decide) (by decide) (by decide)
    any_goals exact trivial
    · exact ⟨⟨by decide, trivial⟩, trivial, rfl, by decide⟩
    · exact ⟨by decide, by decide⟩
    · refine ⟨rfl, fun t ht => ?_⟩
      obtain rfl := Option.some.inj ht
      rfl
  have hwords : ∀ op ∈ sampleRun, op.InWords := by decide
  have hlengths : ∀ op ∈ sampleRun, (request .compact op).encode.length ≤ 9223372036854775807 ∧
      (request .indented op).encode.length ≤ 9223372036854775807 := by decide +kernel
  have hops : ∀ op ∈ sampleRun, Portable op := fun op hop =>
    ⟨hwords op hop, hcarried op hop, fun layout => by
      cases layout
      · exact (hlengths op hop).1
      · exact (hlengths op hop).2⟩
  have hlength : sampleRun.length ≤ 9223372036854775807 := by decide
  have hsmall : ∀ op ∈ sampleRun, Small .indented op := by decide +kernel
  have hserves := serves_memoryServer .indented
  have hfirst : id Memory.empty = Memory.after [] := rfl
  have htakes : takesAll .compact (memoryServer .indented) .empty sampleRun = true :=
    takesAll_of_small hserves .compact hfirst (List.forall_mem_nil _)
      (fun op hop => ⟨hops op hop, hsmall op hop⟩) (by decide)
  exact ⟨hserves, hops, hlength, htakes,
    (client_transparent .compact hserves .empty rfl sampleRun hops hlength).2 htakes⟩

/-- A commit that is accepted and whose message has more bytes than the client takes is stored, and
answered as a failure of the transport. -/
theorem Serves.accepted_long {σ : Type} {layout : Layout} {server : Server σ} {store : σ → Memory}
    (hserver : Serves layout server store) (clients : Layout) {a : Attempt}
    (ha : Portable (.commit a)) {s : σ} {c : Commit}
    (haccepted : (Memory.commit a (store s)).1 = .ok (some c))
    (hlong : maxMessage < (CommitMessage.ofCommit layout c).encode.length) :
    (∃ n, maxMessage < n ∧ (engine clients server (.commit a) s).1.reply
        = (.error (Status.tooLarge n).fault : Except Fault (Option Commit))) ∧
      store (engine clients server (.commit a) s).2 = (Memory.commit a (store s)).2 := by
  have hsent : ∀ b, Operation.commit a = .commit b → b.events ≠ [] := by
    rintro b ⟨⟩ hnil
    rw [Memory.commit, if_pos (List.isEmpty_iff.2 hnil)] at haccepted
    cases haccepted
  obtain ⟨htells, hstate⟩ := hserver.send clients ha s
  rw [engine_eq clients server s hsent]
  refine ⟨?_, hstate⟩
  have htells' : Tells layout (.commit a) (.ok (some c))
      (Remote.send server (request clients (.commit a)) s).1 := haccepted ▸ htells
  obtain ⟨bs, ⟨cs, hcs, rfl⟩, hd⟩ := htells'
  have hmessage : cs.length ≤ (Protobuf.message 2 cs).length := by
    rw [Protobuf.message, Protobuf.delimited, List.length_append, List.length_append]
    omega
  rw [← CommitMessage.length_of_writes hcs] at hlong
  refine ⟨_, ?_, (congrArg (answer (.commit a)) hd).trans (answer_commit_long ?_)⟩
  all_goals rw [List.length_append]; omega

/-- An attempt on a stream with a name of so many letters. -/
def namedAttempt (letters : Nat) : Attempt :=
  Memory.sampleAttempt (String.ofList (List.replicate letters 'a')) 1 1 1 1

/-- The name is all that makes the message of such an attempt long. -/
theorem length_namedAttempt (layout : Layout) (letters : Nat) :
    letters ≤ (CommitMessage.ofAttempt layout (namedAttempt letters)).encode.length ∧
      (CommitMessage.ofAttempt layout (namedAttempt letters)).encode.length ≤ letters + 200 := by
  have hname : (Utf8.ofString (String.ofList (List.replicate letters 'a'))).length = letters := by
    have hletter : 'a'.utf8Size = 1 := by decide
    simp [Utf8.ofString, Utf8.encode, List.length_flatMap, hletter]
  have htext : letters ≤ (Protobuf.text 2 (String.ofList (List.replicate letters 'a'))).length ∧
      (Protobuf.text 2 (String.ofList (List.replicate letters 'a'))).length ≤ letters + 20 := by
    have hmessage := Protobuf.length_message_le 2
      (Utf8.ofString (String.ofList (List.replicate letters 'a')))
    rw [hname] at hmessage
    rw [Protobuf.text]
    split
    · rename_i hempty
      rw [String.isEmpty_iff.1 hempty] at hname
      exact ⟨Nat.le_of_eq hname.symm, Nat.zero_le _⟩
    · refine ⟨?_, hmessage⟩
      rw [Protobuf.someText, Protobuf.message, Protobuf.delimited, List.length_append,
        List.length_append, hname]
      omega
  have hrest : (CommitMessage.ofAttempt layout (Memory.sampleAttempt "" 1 1 1 1)).encode.length
      ≤ 180 := by
    cases layout <;> decide +kernel
  have hsplit : (CommitMessage.ofAttempt layout (namedAttempt letters)).encode.length
      = (Protobuf.text 2 (String.ofList (List.replicate letters 'a'))).length
        + (CommitMessage.ofAttempt layout (Memory.sampleAttempt "" 1 1 1 1)).encode.length := by
    have hblank : Protobuf.text 2 "" = [] := rfl
    simp only [CommitMessage.encode, CommitMessage.ofAttempt, namedAttempt, Memory.sampleAttempt,
      List.length_append, hblank, List.length_nil]
    omega
  omega

theorem portable_namedAttempt {letters : Nat} (h : letters ≤ 9223372036854775000) :
    Portable (.commit (namedAttempt letters)) where
  words := by show 1 ≤ maxRevision ∧ 1 ≤ maxRevision; decide
  carried := carried_sampleAttempt _ _ (by decide) (by decide) (by decide)
  length_le layout := by
    have hlength := (length_namedAttempt layout letters).2
    show (CommitMessage.ofAttempt layout (namedAttempt letters)).encode.length ≤ _
    omega

theorem accepted_namedAttempt (letters : Nat) : (Memory.commit (namedAttempt letters) .empty).1
    = .ok (some ((namedAttempt letters).confirm 1)) := rfl

theorem memory_replies_namedAttempt (letters : Nat) :
    Memory.engine.replies .empty [.commit (namedAttempt letters)]
      = [.commit (.ok (some ((namedAttempt letters).confirm 1)))] := rfl

/-- A name that is too long for a message makes the client fail. -/
theorem replies_namedAttempt {letters : Nat} (hlong : maxMessage < letters)
    (h : letters ≤ 9223372036854775000) : ∃ n, maxMessage < n ∧
      (engine .compact (memoryServer .compact)).replies .empty [.commit (namedAttempt letters)]
        = [.commit (.error (Status.tooLarge n).fault)] := by
  have hbytes : maxMessage
      < (CommitMessage.ofCommit .compact ((namedAttempt letters).confirm 1)).encode.length := by
    have hname := (length_namedAttempt .compact letters).1
    rw [length_ofCommit]
    exact Nat.lt_add_right _ (hlong.trans_le hname)
  have haccepted : (Memory.commit (namedAttempt letters) (id .empty)).1
      = .ok (some ((namedAttempt letters).confirm 1)) := accepted_namedAttempt letters
  obtain ⟨⟨n, hn, hfault⟩, -⟩ := (serves_memoryServer .compact).accepted_long .compact
    (portable_namedAttempt h) haccepted hbytes
  refine ⟨n, hn, ?_⟩
  rw [Engine.replies_cons]
  exact congrArg (fun r => [PlainReply.commit r]) hfault

/-- The answer to an attempt that has an object with `Json.rawKey` as its only key is read with a
number in its place, and an attempt on a stream whose name alone is too long for a message is stored
and answered with a fault. The store in memory answers both with the commit. -/
theorem raw_and_long_not_transparent :
    Memory.engine.replies .empty [.commit (rawCommit "1").toAttempt]
        = [.commit (.ok (some { rawCommit "1" with checkpoint := 1 }))] ∧
      (engine .compact (Server.constant (deliver .compact (.commit (rawCommit "1").toAttempt)
          (.ok (some { rawCommit "1" with checkpoint := 1 }))))).replies []
          [.commit (rawCommit "1").toAttempt]
        = [.commit (.ok (some { rawCommit "1" with
            checkpoint := 1, events := [⟨⟨"event", .int 1⟩, []⟩] }))] ∧
      Portable (.commit (namedAttempt 4194305)) ∧
      Memory.engine.replies .empty [.commit (namedAttempt 4194305)]
        = [.commit (.ok (some ((namedAttempt 4194305).confirm 1)))] ∧
      ∃ n, maxMessage < n ∧
        (engine .compact (memoryServer .compact)).replies .empty [.commit (namedAttempt 4194305)]
          = [.commit (.error (Status.tooLarge n).fault)] := by
  have hsent : (deliver .compact (.commit (rawCommit "1").toAttempt)
        (.ok (some { rawCommit "1" with checkpoint := 1 }))).single CommitReply.decode?
      = .ok ⟨CommitOutcome.committed.number,
        some (.ofCommit .compact { rawCommit "1" with checkpoint := 1 })⟩ := by
    decide +kernel
  have hread : (CommitMessage.ofCommit .compact { rawCommit "1" with checkpoint := 1 }).toCommit
      = .ok { rawCommit "1" with checkpoint := 1, events := [⟨⟨"event", .int 1⟩, []⟩] } := by
    decide +kernel
  have hraw : (engine .compact (Server.constant (deliver .compact
        (.commit (rawCommit "1").toAttempt) (.ok (some { rawCommit "1" with checkpoint := 1 }))))
        (.commit (rawCommit "1").toAttempt) []).1.reply
      = (.ok (some { rawCommit "1" with checkpoint := 1, events := [⟨⟨"event", .int 1⟩, []⟩] })
        : Except Fault (Option Commit)) := by
    rw [engine_eq _ _ _ (by rintro a ⟨⟩; exact List.cons_ne_nil _ _)]
    simp only [answer, Remote.send, Server.constant, hsent, commitAnswer,
      CommitOutcome.ofNumber?_number, hread]
    rfl
  refine ⟨rfl, ?_, portable_namedAttempt (by decide), memory_replies_namedAttempt 4194305,
    replies_namedAttempt (by decide) (by decide)⟩
  rw [Engine.replies_cons]
  exact congrArg (fun r => [PlainReply.commit r]) hraw

end Remote
end EventSourcing
