import EventSourcing.Proofs.Replies
import EventSourcing.Proofs.Requests
import EventSourcing.Proofs.Wire
import EventSourcing.Remote

/-!
# What a client and a server tell each other

A server `Serves` a store in memory if it reads each request as an operation (`Remote.operation?`),
carries that out on the store and answers as the service documents (`Remote.Tells`). Let what a
client sends be such that nothing is lost on the way (`Remote.Portable`): its records are plain and
read again, its stamps are whole seconds, and its requests are no longer than memory can hold.

A request is read back (`Remote.decode?_request`) and asks for its operation
(`Remote.operation?_request`), and the answer to it is read back as what it tells if and only if the
client takes every message of it (`Remote.answer_commit_iff` to `Remote.answer_heads_iff`). The
layouts of the client and of the server need not be the same.
-/

namespace EventSourcing

/-- A whole second that the calendar reaches. -/
def Stamp.OnSecond (t : Stamp) : Prop := ofSeconds? t.seconds = some t

instance : DecidablePred Stamp.OnSecond := fun t =>
  inferInstanceAs (Decidable (Stamp.ofSeconds? t.seconds = some t))

namespace Stamp.OnSecond

variable {t : Stamp}

theorem bounds (h : t.OnSecond) : minSeconds ≤ t.seconds ∧ t.seconds ≤ maxSeconds := by
  rw [OnSecond, ofSeconds?] at h
  split at h
  · assumption
  · cases h

theorem floorSeconds_eq (h : t.OnSecond) : t.floorSeconds = t := by
  have heq : ofSeconds? t.seconds = some t.floorSeconds := if_pos h.bounds
  exact Option.some.inj (heq.symm.trans h)

/-- The seconds of a calendar are integers of 64 bits. -/
theorem seconds_mem (h : t.OnSecond) :
    -9223372036854775808 ≤ t.seconds ∧ t.seconds < 9223372036854775808 := by
  have hmin : -8334601228800 ≤ t.seconds := h.bounds.1
  have hmax : t.seconds ≤ 8210266876799 := h.bounds.2
  omega

end Stamp.OnSecond

namespace Remote

open Wire

/-! ## Clients -/

/-- The request that an operation is sent as. -/
def request (layout : Layout) : Operation → Request
  | .commit a => .commit (.ofAttempt layout a)
  | .read q => readRequest q
  | .snapshot stream last => .snapshot stream.tenant stream.stream last
  | .addSnapshot s => .addSnapshot (.ofSnapshot layout s)
  | .streamsToSnapshot tenant threshold => .streamsToSnapshot tenant threshold
  | .setUp => .setUp
  | .dropStore => .drop
  | .purge tenant => .purge (some tenant)
  | .purgeAll => .purge none
  | .deleteStream stream => .deleteStream stream.tenant stream.stream

/-- The answer to an operation that a client reads from what comes back. -/
def answer : (op : Operation) → Delivery → op.Reply
  | .commit a, d =>
    match d.single CommitReply.decode? with
    | .error status => .error (commitFault a status)
    | .ok r => commitAnswer r
  | .read q, d => Feed.ofItems ((d.stream CommitMessage.decode?).map (readItem q))
  | .snapshot _ _, d =>
    match d.single SnapshotReply.decode? with
    | .error status => .error status.fault
    | .ok ⟨none⟩ => .ok none
    | .ok ⟨some m⟩ => m.toSnapshot.map some
  | .addSnapshot _, d => ((d.single AddedReply.decode?).map (·.added)).mapError Status.fault
  | .streamsToSnapshot _ _, d =>
    (d.stream HeadMessage.decode?).map fun r => (r.map HeadMessage.toHead).mapError Status.fault
  | .setUp, d | .dropStore, d | .purge _, d | .purgeAll, d | .deleteStream _, d => unitAnswer d

/-- An operation is sent, unless it is an attempt without events, and answered with what comes
back. -/
theorem engine_eq {σ : Type} (layout : Layout) (server : Server σ) (s : σ) {op : Operation}
    (h : ∀ a, op = .commit a → a.events ≠ []) : engine layout server op s
      = (⟨answer op (send server (request layout op) s).1, []⟩,
        (send server (request layout op) s).2) := by
  cases op with
  | commit a =>
    have hne : ¬ a.events.isEmpty = true := mt List.isEmpty_iff.1 (h a rfl)
    simp only [engine, if_neg hne, request, answer]
    cases (send server (.commit (.ofAttempt layout a)) s).1.single CommitReply.decode? <;> rfl
  | snapshot stream last =>
    simp only [engine, request, answer]
    cases (send server (.snapshot stream.tenant stream.stream last) s).1.single
      SnapshotReply.decode? with
    | error status => rfl
    | ok r => obtain ⟨_ | m⟩ := r <;> rfl
  | _ => rfl

/-- Whether a client takes every message that comes back. -/
def Delivery.short : Delivery → Bool
  | .silent => true
  | .answered messages _ => messages.all (·.length ≤ maxMessage)

/-- Whether a client takes every message that comes back for an operation, if it sends it. -/
def takes {σ : Type} (layout : Layout) (server : Server σ) (s : σ) : Operation → Bool
  | .commit a => a.events.isEmpty || (send server (request layout (.commit a)) s).1.short
  | op => (send server (request layout op) s).1.short

theorem takes_eq {σ : Type} (layout : Layout) (server : Server σ) (s : σ) {op : Operation}
    (h : ∀ a, op = .commit a → a.events ≠ []) :
    takes layout server s op = (send server (request layout op) s).1.short := by
  cases op with
  | commit a => rw [takes, List.isEmpty_eq_false_iff.2 (h a rfl), Bool.false_or]
  | _ => rfl

/-- Whether a client takes every message that comes back in a run. -/
def takesAll {σ : Type} (layout : Layout) (server : Server σ) : σ → List Operation → Bool
  | _, [] => true
  | s, op :: ops =>
    takes layout server s op && takesAll layout server (engine layout server op s).2 ops

/-- An attempt that can be sent, with plain records that are read again and a whole second. -/
structure CarriedAttempt (a : Attempt) : Prop where
  sendable : (a.confirm 0).Sendable
  whole : (a.confirm 0).Whole
  plain : (a.confirm 0).Plain
  shallow : (a.confirm 0).Shallow
  onSecond : a.stamp.OnSecond

/-- A snapshot that can be sent, with plain data that is read again. -/
structure CarriedSnapshot (t : Snapshot) : Prop where
  sendable : t.Sendable
  whole : t.payload.data.Whole
  plain : t.payload.data.Plain
  depth_lt : t.payload.data.depth < Json.maxDepth

/-- Records of an operation that are read again, and times that are whole seconds. -/
def Carried : Operation → Prop
  | .commit a => CarriedAttempt a
  | .read (.after _ checkpoint) =>
    -9223372036854775808 ≤ checkpoint ∧ checkpoint < 9223372036854775808
  | .read (.during _ start stop) => start.OnSecond ∧ ∀ t ∈ stop, t.OnSecond
  | .addSnapshot t => CarriedSnapshot t
  | _ => True

/-- The message of a snapshot that can be sent is read as that snapshot. -/
theorem CarriedSnapshot.toSnapshot {layout : Layout} {t : Snapshot} (h : CarriedSnapshot t) :
    (SnapshotMessage.ofSnapshot layout t).toSnapshot = .ok t :=
  (SnapshotMessage.toSnapshot_ofSnapshot_iff h.sendable h.whole).2 ⟨h.plain, h.depth_lt⟩

/-- An operation that loses nothing on its way. -/
structure Portable (op : Operation) : Prop where
  words : op.InWords
  carried : Carried op
  length_le : ∀ layout, (request layout op).encode.length ≤ 9223372036854775807

/-! ## Servers -/

/-- The operation that a request asks for. One with a record that cannot be read asks for none. -/
def operation? : Request → Option Operation
  | .commit m => m.toCommit.toOption.map fun c => .commit c.toAttempt
  | .revisions tenant stream first last => some (.read (.revisions ⟨tenant, stream⟩ first last))
  | .after tenant checkpoint => some (.read (.after tenant checkpoint))
  | .during tenant start stop => do
    let start ← Stamp.ofSeconds? start
    let stop ← stop.mapM Stamp.ofSeconds?
    return .read (.during tenant start stop)
  | .snapshot tenant stream last => some (.snapshot ⟨tenant, stream⟩ last)
  | .addSnapshot m => m.toSnapshot.toOption.map .addSnapshot
  | .streamsToSnapshot tenant threshold => some (.streamsToSnapshot tenant threshold)
  | .setUp => some .setUp
  | .drop => some .dropStore
  | .purge none => some .purgeAll
  | .purge (some tenant) => some (.purge tenant)
  | .deleteStream tenant stream => some (.deleteStream ⟨tenant, stream⟩)

/-- What the service documents to come back for an answer of its store. The maps of a commit may be
written in any order, and a conflict may have any text with which it arrives. -/
def Tells (layout : Layout) : (op : Operation) → op.Reply → Delivery → Prop
  | .commit _, .ok none, d => ∃ bs, CommitReply.Writes .empty none bs ∧ d = .answered [bs] none
  | .commit _, .ok (some c), d =>
    ∃ bs, CommitReply.Writes .committed (some (.ofCommit layout c)) bs ∧ d = .answered [bs] none
  | .commit _, .error (.duplicate c), d =>
    ∃ bs, CommitReply.Writes .duplicate (some (.ofCommit layout c)) bs ∧ d = .answered [bs] none
  | .commit _, .error (.conflict ..), d =>
    ∃ status : Status, status.arrive.code = .aborted ∧ d = .answered [] (some status)
  | .commit _, .error (.invalidAttempt text), d =>
    d = .answered [] (some ⟨.invalidArgument, text⟩)
  | .read _, feed, d => ∀ cs : List Commit, Feed.items feed = cs.map .ok →
    ∃ bss, List.Forall₂ (fun c => (CommitMessage.ofCommit layout c).Writes) cs bss ∧
      d = .answered bss none
  | .snapshot _ _, .ok t, d =>
    d = .answered [SnapshotReply.encode ⟨t.map (.ofSnapshot layout)⟩] none
  | .addSnapshot _, .ok added, d => d = .answered [AddedReply.encode ⟨added⟩] none
  | .streamsToSnapshot _ _, heads, d => ∀ hs : List StreamHead, heads = hs.map .ok →
    d = .answered (hs.map fun h => (HeadMessage.ofHead h).encode) none
  | .setUp, _, d | .dropStore, _, d | .purge _, _, d | .purgeAll, _, d | .deleteStream _, _, d =>
    d = .answered [[]] none
  | _, _, _ => True

/-- A server that keeps a store in memory and answers as the service documents. -/
structure Serves {σ : Type} (layout : Layout) (server : Server σ) (store : σ → Memory) : Prop where
  tells : ∀ {method bs r op}, Request.decode? method bs = some r → operation? r = some op →
    ∀ s, Tells layout op (Memory.engine op (store s)).1.reply (server method bs s).1
  state : ∀ {method bs r op}, Request.decode? method bs = some r → operation? r = some op →
    ∀ s, store (server method bs s).2 = (Memory.engine op (store s)).2

/-! ## Requests -/

section Requests

variable {op : Operation}

theorem fits_request (h : Portable op) (layout : Layout) : (request layout op).Fits := by
  cases op with
  | commit a => exact CommitMessage.fits_ofCommit (c := a.confirm 0) h.carried.sendable
  | read q =>
    cases q with
    | revisions stream first last => exact h.words
    | after tenant checkpoint => exact h.carried
    | during tenant start stop =>
      refine ⟨h.carried.1.seconds_mem, fun n hn => ?_⟩
      obtain ⟨t, ht, rfl⟩ := Option.map_eq_some_iff.1 hn
      exact (h.carried.2 t ht).seconds_mem
  | snapshot stream last => exact h.words
  | addSnapshot t => exact h.carried.sendable.revision_le
  | streamsToSnapshot tenant threshold => exact h.words
  | setUp | dropStore | purge | purgeAll | deleteStream => trivial

/-- **The request of an operation is read back.** -/
theorem decode?_request (h : Portable op) (layout : Layout) :
    Request.decode? (request layout op).method (request layout op).encode
      = some (request layout op) :=
  Request.decode?_encode (fits_request h layout) (by have := h.length_le layout; omega)

/-- **The request of an operation asks for that operation.** -/
theorem operation?_request (h : Portable op) (layout : Layout) :
    operation? (request layout op) = some op := by
  cases op with
  | commit a =>
    have ha : CarriedAttempt a := h.carried
    have hread : (CommitMessage.ofAttempt layout a).toCommit
        = .ok { a.confirm 0 with stamp := a.stamp.floorSeconds } :=
      (CommitMessage.toCommit_ofCommit_iff ha.sendable ha.whole).2 ⟨ha.plain, ha.shallow⟩
    rw [request, operation?, hread, ha.onSecond.floorSeconds_eq]
    rfl
  | read q =>
    cases q with
    | revisions | after => rfl
    | during tenant start stop =>
      obtain ⟨hstart, hstop⟩ := h.carried
      have hstart' : Stamp.ofSeconds? start.seconds = some start := hstart
      rw [request, readRequest, operation?, hstart']
      cases stop with
      | none => rfl
      | some t =>
        have ht : Stamp.ofSeconds? t.seconds = some t := hstop t rfl
        simp [ht]
  | addSnapshot t =>
    have ht : CarriedSnapshot t := h.carried
    rw [request, operation?, ht.toSnapshot]
    rfl
  | snapshot | streamsToSnapshot | setUp | dropStore | purge | purgeAll | deleteStream => rfl

/-- A server that keeps a store in memory carries out what is sent to it, and tells what came of
it. -/
theorem Serves.send {σ : Type} {layout : Layout} {server : Server σ} {store : σ → Memory}
    (hserver : Serves layout server store) (clients : Layout) (h : Portable op) (s : σ) :
    Tells layout op (Memory.engine op (store s)).1.reply (send server (request clients op) s).1 ∧
      store (Remote.send server (request clients op) s).2 = (Memory.engine op (store s)).2 :=
  have hread := decode?_request h clients
  have hop := operation?_request h clients
  ⟨hserver.tells hread hop s, hserver.state hread hop s⟩

end Requests

/-! ## Answers -/

section Answers

variable {layout : Layout} {d : Delivery}

/-- A commit of an attempt that was sent, under a checkpoint of 64 bits. -/
structure Stored (c : Commit) : Prop where
  sent : CarriedAttempt c.toAttempt
  checkpoint_mem : -9223372036854775808 ≤ c.checkpoint ∧ c.checkpoint < 9223372036854775808

namespace Stored

variable {c : Commit} {bs : Bytes}

theorem sendable (h : Stored c) : c.Sendable :=
  have hsent := h.sent.sendable
  ⟨hsent.revision_le, hsent.sequence_le, hsent.minSeconds_le, hsent.le_maxSeconds,
    h.checkpoint_mem, hsent.headers, hsent.events, hsent.regular.headers, hsent.regular.events⟩

/-- The message of a stored commit is read as that commit. -/
theorem toCommit (h : Stored c) : (CommitMessage.ofCommit layout c).toCommit = .ok c := by
  have hfloor : c.stamp.floorSeconds = c.stamp := h.sent.onSecond.floorSeconds_eq
  have hread : (CommitMessage.ofCommit layout c).toCommit
      = .ok { c with stamp := c.stamp.floorSeconds } :=
    (CommitMessage.toCommit_ofCommit_iff h.sendable
      ⟨h.sent.whole.headers, h.sent.whole.events⟩).2 ⟨⟨h.sent.plain.headers, h.sent.plain.events⟩,
        ⟨h.sent.shallow.headers, h.sent.shallow.events⟩⟩
  rwa [hfloor] at hread

theorem decode? (h : Stored c) (hbs : (CommitMessage.ofCommit layout c).Writes bs)
    (hshort : bs.length ≤ maxMessage) :
    CommitMessage.decode? bs = some (.ofCommit layout c) :=
  CommitMessage.decode?_of_writes (CommitMessage.fits_ofCommit h.sendable) hbs
    (lt_of_le_of_lt hshort (by decide))

theorem decodeReply? (h : Stored c) {o : CommitOutcome}
    (hbs : CommitReply.Writes o (some (.ofCommit layout c)) bs) (hshort : bs.length ≤ maxMessage) :
    CommitReply.decode? bs = some ⟨o.number, some (.ofCommit layout c)⟩ := by
  refine CommitReply.decode?_of_writes (fun m hm => ?_) hbs (lt_of_le_of_lt hshort (by decide))
  obtain rfl := Option.some.inj hm
  exact CommitMessage.fits_ofCommit h.sendable

end Stored

section Deliveries

variable {β γ : Type} {decode? : Bytes → Option β} {bs : Bytes} {bss : List Bytes} {x : β}

theorem short_singleton : (Delivery.answered [bs] none).short = true ↔ bs.length ≤ maxMessage := by
  simp [Delivery.short]

/-- A message that can be read is the answer of a call that ended well. -/
theorem single_answered (hshort : bs.length ≤ maxMessage) (h : decode? bs = some x) :
    (Delivery.answered [bs] none).single decode? = .ok x := by
  simp only [Delivery.single, receive, if_neg (Nat.not_lt.2 hshort), h]

/-- A message with too many bytes is not taken. -/
theorem single_long (hlong : ¬ bs.length ≤ maxMessage) :
    (Delivery.answered [bs] none).single decode? = .error (.tooLarge bs.length) := by
  simp only [Delivery.single, receive, if_pos (Nat.not_le.1 hlong)]

/-- The answers of a call that ended well are what its messages are read as, if the client takes
them all. Otherwise one of the answers is an error. -/
theorem stream_answered_iff {f : Except Status β → Except Fault γ}
    (hf : ∀ status, ∃ e, f (.error status) = .error e) {ys zs : List γ}
    (h : List.Forall₂ (fun y bs => bs.length ≤ maxMessage →
      ∃ x, decode? bs = some x ∧ f (.ok x) = .ok y) ys bss) :
    ((Delivery.answered bss none).stream decode?).map f = zs.map .ok ↔
      (Delivery.answered bss none).short = true ∧ zs = ys := by
  show (decodeAll decode? none bss).map f = _ ↔ bss.all _ = true ∧ _
  induction h generalizing zs with
  | nil => cases zs <;> simp [decodeAll]
  | @cons y bs ys bss hread _ ih =>
    rw [List.all_cons, Bool.and_eq_true, decide_eq_true_eq, decodeAll, receive]
    by_cases hshort : bs.length ≤ maxMessage
    · obtain ⟨x, hx, hy⟩ := hread hshort
      simp only [if_neg (Nat.not_lt.2 hshort), hx, List.map_cons, hy, hshort, true_and]
      cases zs with
      | nil => simp
      | cons z zs =>
        rw [List.map_cons, List.cons.injEq, ih, List.cons.injEq, Except.ok.injEq, eq_comm]
        exact and_left_comm
    · obtain ⟨e, he⟩ := hf (.tooLarge bs.length)
      simp only [if_pos (Nat.not_le.1 hshort), List.map_cons, he, hshort, false_and, iff_false]
      cases zs with
      | nil => exact List.cons_ne_nil _ _
      | cons z zs => exact fun heq => nomatch (List.cons.inj heq).1

end Deliveries

/-- What a store in memory, whose commits are such, makes of an attempt with events. -/
inductive Comes (P : Commit → Prop) (a : Attempt) : Except Fault (Option Commit) → Prop
  | committed {c : Commit} (h : P c) : Comes P a (.ok (some c))
  | duplicate {c : Commit} (h : P c) : Comes P a (.error (.duplicate c))
  | conflict : Comes P a (.error a.conflict)
  | gap (s r : Nat) : Comes P a (.error (.invalidAttempt (a.gapText s r)))

/-- The text of a gap has no percent sign. -/
theorem percent_not_mem_gapText (a : Attempt) (s r : Nat) : '%' ∉ (a.gapText s r).toList := by
  have happend {t u : String} (ht : '%' ∉ t.toList) (hu : '%' ∉ u.toList) :
      '%' ∉ (t ++ u).toList := by
    rw [String.toList_append, List.mem_append]
    exact not_or.2 ⟨ht, hu⟩
  have hnumber (n : Nat) : '%' ∉ (toString n).toList := by
    rw [Nat.toString_eq_repr, Nat.toList_repr]
    intro h
    exact absurd (Json.isDigit_of_mem h) (by decide)
  have hsequence := happend (by decide +kernel : '%' ∉ "commit sequence ".toList)
    (hnumber a.sequence)
  have hrevision := happend (happend hsequence (by decide +kernel : '%' ∉ " / revision ".toList))
    (hnumber a.revision)
  have hhead := happend (happend hrevision
    (by decide +kernel : '%' ∉ " leaves a gap after head sequence ".toList)) (hnumber s)
  exact happend (happend hhead (by decide +kernel : '%' ∉ " / revision ".toList)) (hnumber r)

/-- The answer to an attempt with a message that is not taken. -/
theorem answer_commit_long {a : Attempt} {bs : Bytes} (hlong : ¬ bs.length ≤ maxMessage) :
    answer (.commit a) (.answered [bs] none)
      = .error (Status.tooLarge bs.length).fault := by
  simp only [answer, single_long hlong]
  rfl

/-- The answer to an attempt with a message that carries a stored commit is what the message says,
if it is taken. -/
theorem Stored.answer_reply_iff {a : Attempt} {c : Commit} (hc : Stored c) {o : CommitOutcome}
    {bs : Bytes} (hbs : CommitReply.Writes o (some (.ofCommit layout c)) bs)
    {r : Except Fault (Option Commit)}
    (hr : commitAnswer ⟨o.number, some (.ofCommit layout c)⟩ = r)
    (hne : ∀ n, .error (Status.tooLarge n).fault ≠ r) :
    answer (.commit a) (.answered [bs] none) = r ↔ bs.length ≤ maxMessage := by
  by_cases hshort : bs.length ≤ maxMessage
  · refine iff_of_true ?_ hshort
    simp only [answer, single_answered hshort (hc.decodeReply? hbs hshort)]
    exact hr
  · rw [answer_commit_long hshort]
    exact iff_of_false (hne bs.length) hshort

/-- **The answer to an attempt is what came of it**, if the client takes the message. -/
theorem answer_commit_iff {a : Attempt} {r : Except Fault (Option Commit)} (hr : Comes Stored a r)
    (h : Tells layout (.commit a) r d) : answer (.commit a) d = r ↔ d.short = true := by
  cases hr with
  | committed hc | duplicate hc =>
    obtain ⟨bs, hbs, rfl⟩ := h
    rw [short_singleton]
    refine hc.answer_reply_iff hbs ?_ nofun
    simp only [commitAnswer, CommitOutcome.ofNumber?_number, hc.toCommit]
  | conflict =>
    obtain ⟨status, hcode, rfl⟩ := h
    refine iff_of_true ?_ rfl
    simp only [answer, Delivery.single, Option.map_some, Option.getD_some, commitFault, hcode]
    rfl
  | gap s r =>
    obtain rfl := h
    have harrive : Status.arrive ⟨.invalidArgument, a.gapText s r⟩
        = ⟨.invalidArgument, a.gapText s r⟩ := by
      rw [Status.arrive, Percent.decode_ofString (percent_not_mem_gapText a s r), Utf8.ofString,
        Utf8.decode_encode]
      simp only [String.ofList_toList]
    refine iff_of_true ?_ rfl
    simp only [answer, Delivery.single, Option.map_some, Option.getD_some, harrive, commitFault]
    rfl

/-- **The answer to a read is what was read**, if the client takes all messages. -/
theorem answer_read_iff {q : Query} {feed : Feed} {cs : List Commit} (hcs : ∀ c ∈ cs, Stored c)
    (hfeed : Feed.items feed = cs.map .ok) (h : Tells layout (.read q) feed d) :
    Feed.items (answer (.read q) d) = cs.map .ok ↔ d.short = true := by
  obtain ⟨bss, hbss, rfl⟩ := h cs hfeed
  show Feed.items (Feed.ofItems _) = _ ↔ _
  rw [Feed.items_ofItems]
  refine (stream_answered_iff (fun status => ⟨_, rfl⟩) ?_).trans (and_iff_left rfl)
  clear hfeed h
  induction hbss with
  | nil => exact .nil
  | cons hbs _ ih =>
    obtain ⟨hc, hcs⟩ := List.forall_mem_cons.1 hcs
    exact .cons (fun hshort => ⟨_, hc.decode? hbs hshort, hc.toCommit⟩) (ih hcs)

/-- **The answer with a snapshot is that snapshot**, if the client takes the message. -/
theorem answer_snapshot_iff {stream : StreamId} {last : Nat} {t : Option Snapshot}
    (ht : ∀ u ∈ t, CarriedSnapshot u) (h : Tells layout (.snapshot stream last) (.ok t) d) :
    answer (.snapshot stream last) d = .ok t ↔ d.short = true := by
  obtain rfl := h
  rw [short_singleton]
  by_cases hshort : (SnapshotReply.encode ⟨t.map (.ofSnapshot layout)⟩).length ≤ maxMessage
  · refine iff_of_true ?_ hshort
    have hread : SnapshotReply.decode? (SnapshotReply.encode ⟨t.map (.ofSnapshot layout)⟩)
        = some ⟨t.map (.ofSnapshot layout)⟩ := by
      refine SnapshotReply.decode?_encode (fun m hm => ?_) (lt_of_le_of_lt hshort (by decide))
      obtain ⟨u, hu, rfl⟩ := Option.map_eq_some_iff.1 hm
      exact (ht u hu).sendable.revision_le
    simp only [answer, single_answered hshort hread]
    cases t with
    | none => rfl
    | some u =>
      simp only [Option.map_some, (ht u rfl).toSnapshot]
      rfl
  · simp only [answer, single_long hshort]
    exact iff_of_false nofun hshort

/-- The answer whether a snapshot was recorded is read back. -/
theorem answer_addSnapshot {t : Snapshot} {added : Bool}
    (h : Tells layout (.addSnapshot t) (.ok added) d) :
    answer (.addSnapshot t) d = .ok added ∧ d.short = true := by
  obtain rfl := h
  have hshort : (AddedReply.encode ⟨added⟩).length ≤ maxMessage := by cases added <;> decide
  refine ⟨?_, short_singleton.2 hshort⟩
  simp only [answer, single_answered hshort (AddedReply.decode?_encode ⟨added⟩)]
  rfl

/-- **The answer with heads is these heads**, if the client takes all messages. -/
theorem answer_heads_iff {tenant : String} {threshold : Nat} {hs : List StreamHead}
    (hhs : ∀ h ∈ hs, h.head ≤ maxRevision ∧ h.snapshot ≤ maxRevision)
    (h : Tells layout (.streamsToSnapshot tenant threshold) (hs.map .ok) d) :
    answer (.streamsToSnapshot tenant threshold) d = hs.map .ok ↔ d.short = true := by
  obtain rfl := h hs rfl
  refine (stream_answered_iff (fun status => ⟨_, rfl⟩) ?_).trans (and_iff_left rfl)
  rw [List.forall₂_map_right_iff, List.forall₂_same]
  intro h hh hshort
  obtain ⟨hhead, hsnapshot⟩ := hhs h hh
  exact ⟨_, HeadMessage.decode?_encode hhead hsnapshot (lt_of_le_of_lt hshort (by decide)), rfl⟩

end Answers

end Remote
end EventSourcing
