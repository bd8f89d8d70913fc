import EventSourcing.Proofs.Ledger

/-!
# Runs of the store in memory

A run is a list of operations on the fresh store. `Memory.after` is the store that it leaves and
`Memory.tokens` the checkpoints that it has given out since the store was last dropped, both by
folding the engine over the operations.

One step keeps `Memory.Sound`: the ledger is kept, the switches are off, the checkpoints given out
are 1, 2, 3 and so on without a gap, and those in the log are some of them in the same order. Hence
the law of runs, `Memory.histories_gapless_and_tokens_consecutive`: in every reachable state each
stream is a gapless history, the log ascends in its checkpoints, and refusals and deletions neither
use up a checkpoint nor make one available again.
-/

namespace EventSourcing

/-- The revisions, sequences and thresholds of a request are words of 32 bits. -/
def Operation.InWords : Operation → Prop
  | .commit a => a.revision ≤ maxRevision ∧ a.sequence ≤ maxRevision
  | .read (.revisions _ first last) => first ≤ maxRevision ∧ last ≤ maxRevision
  | .snapshot _ last => last ≤ maxRevision
  | .addSnapshot s => s.revision ≤ maxRevision
  | .streamsToSnapshot _ threshold => threshold ≤ maxRevision
  | _ => True

instance : DecidablePred Operation.InWords
  | .commit _ | .read (.revisions ..) => inferInstanceAs (Decidable (_ ∧ _))
  | .snapshot .. | .addSnapshot _ | .streamsToSnapshot .. => inferInstanceAs (Decidable (_ ≤ _))
  | .read (.after ..) | .read (.during ..) | .setUp | .dropStore | .purge _ | .purgeAll
  | .deleteStream _ => .isTrue trivial

namespace Memory

/-- The checkpoints given out since the store was last dropped, after one more answer. -/
def handOut (tokens : List Int) : (op : Operation) → op.Reply → List Int
  | .commit _, .ok (some c) => tokens ++ [c.checkpoint]
  | .dropStore, _ => []
  | _, _ => tokens

/-- One operation of a run. -/
def account (s : Memory × List Int) (op : Operation) : Memory × List Int :=
  ((engine op s.1).2, handOut s.2 op (engine op s.1).1.reply)

/-- The store that a run leaves. -/
def after (ops : List Operation) : Memory := (ops.foldl account (empty, [])).1

/-- The checkpoints that a run has given out since the store was last dropped. -/
def tokens (ops : List Operation) : List Int := (ops.foldl account (empty, [])).2

/-- What every reachable store and the checkpoints given out are like. -/
structure Sound (m : Memory) (tokens : List Int) : Prop where
  kept : m.ledger.Kept
  reads : m.readsDisabled = false
  commits : m.commitsDisabled = false
  last : m.ledger.lastCheckpoint = tokens.length
  consecutive : tokens = (List.range' 1 tokens.length).map fun n : Nat => (n : Int)
  stored : (m.ledger.log.map (·.checkpoint)).Sublist tokens

variable {m : Memory} {ts : List Int}

theorem sound_empty : Sound empty [] where
  kept := .empty
  reads := rfl
  commits := rfl
  last := rfl
  consecutive := rfl
  stored := .slnil

/-- A store whose reads are enabled answers with commits only. -/
theorem read_eq (hm : m.readsDisabled = false) (q : Query) :
    m.read q = (m.ledger.read q).map .ok := by
  rw [Memory.read, hm, if_neg Bool.false_ne_true]

/-- What an attempt does to a store whose commits are enabled. -/
theorem commit_eq (hm : m.commitsDisabled = false) (a : Attempt) : commit a m =
    if a.events = [] then (.ok none, m)
    else ((m.ledger.commit a).1, { m with ledger := (m.ledger.commit a).2 }) := by
  unfold Memory.commit
  by_cases h : a.events = [] <;> simp [h, hm]

/-- Of the switches only the one for commits matters to the ledger, and it can only keep an attempt
away. -/
theorem ledger_engine (op : Operation) (m : Memory) : (engine op m).2.ledger = m.ledger ∨
    (engine op m).2.ledger = (engine op { ledger := m.ledger }).2.ledger := by
  cases op with
  | commit a =>
    show (Memory.commit a m).2.ledger = _ ∨
      (Memory.commit a m).2.ledger = (Memory.commit a { ledger := m.ledger }).2.ledger
    unfold Memory.commit
    by_cases hne : a.events.isEmpty
    · rw [if_pos hne]
      exact .inl rfl
    rw [if_neg hne, if_neg hne]
    by_cases hoff : m.commitsDisabled
    · rw [if_pos hoff]
      exact .inl rfl
    · rw [if_neg hoff]
      exact .inr rfl
  | _ => exact .inr rfl

/-- What an attempt comes to, whatever the switches: it is accepted under the next checkpoint, or
the store stays as it is and the answer is that there was nothing to store, the commit of the same
id, or another fault. -/
theorem commit_cases (h : m.ledger.Kept) (a : Attempt) :
    Memory.commit a m = (.ok (some (a.confirm (m.ledger.lastCheckpoint + 1))),
      { m with ledger := m.ledger.append (a.confirm (m.ledger.lastCheckpoint + 1)) }) ∨
    (Memory.commit a m).2 = m ∧ ((Memory.commit a m).1 = .ok none ∨
      (∃ c ∈ m.ledger.ofStream a.stream, c.id = a.id ∧
        (Memory.commit a m).1 = .error (.duplicate c)) ∨
      ∃ e, (∀ c, e ≠ .duplicate c) ∧ (Memory.commit a m).1 = .error e) := by
  unfold Memory.commit
  split
  · exact .inr ⟨rfl, .inl rfl⟩
  split
  · exact .inr ⟨rfl, .inr (.inr ⟨_, fun _ he => Fault.noConfusion he, rfl⟩)⟩
  obtain ⟨c, hc, hid, he⟩ | ⟨-, ⟨-, he⟩ | ⟨-, he⟩ | ⟨-, he⟩⟩ := h.commit_cases a <;> rw [he]
  · exact .inr ⟨rfl, .inr (.inl ⟨c, hc, hid, rfl⟩)⟩
  · exact .inr ⟨rfl, .inr (.inr ⟨_, fun _ he => Fault.noConfusion he, rfl⟩)⟩
  · exact .inr ⟨rfl, .inr (.inr ⟨_, fun _ he => Fault.noConfusion he, rfl⟩)⟩
  · exact .inl rfl

/-- No operation touches the switches. -/
theorem engine_switches (op : Operation) (m : Memory) :
    (engine op m).2.readsDisabled = m.readsDisabled ∧
      (engine op m).2.commitsDisabled = m.commitsDisabled := by
  cases op with
  | commit a =>
    show (Memory.commit a m).2.readsDisabled = _ ∧ (Memory.commit a m).2.commitsDisabled = _
    unfold Memory.commit
    split
    · exact ⟨rfl, rfl⟩
    split <;> exact ⟨rfl, rfl⟩
  | _ => exact ⟨rfl, rfl⟩

/-- Soundness is about the ledger. -/
theorem Sound.ofLedger (h : Sound m ts) : Sound { ledger := m.ledger } ts :=
  ⟨h.kept, rfl, rfl, h.last, h.consecutive, h.stored⟩

namespace Sound

theorem nonneg (h : Sound m ts) : 0 ≤ m.ledger.lastCheckpoint := by
  rw [h.last]
  exact Int.natCast_nonneg _

/-- A change that gives out no checkpoint and adds nothing to the log. -/
theorem update (h : Sound m ts) {l : Ledger} (hl : l.Kept)
    (hlast : l.lastCheckpoint = m.ledger.lastCheckpoint) (hlog : l.log.Sublist m.ledger.log) :
    Sound { m with ledger := l } ts where
  kept := hl
  reads := h.reads
  commits := h.commits
  last := hlast.trans h.last
  consecutive := h.consecutive
  stored := (hlog.map _).trans h.stored

/-- A change that gives out the next checkpoint to a commit at the end of the log. -/
theorem extend (h : Sound m ts) {c : Commit} (hc : c.checkpoint = m.ledger.lastCheckpoint + 1)
    (hl : (m.ledger.append c).Kept) :
    Sound { m with ledger := m.ledger.append c } (ts ++ [c.checkpoint]) where
  kept := hl
  reads := h.reads
  commits := h.commits
  last := by
    show c.checkpoint = _
    rw [hc, h.last, List.length_append]
    rfl
  consecutive := by
    rw [List.length_append, List.length_singleton, List.range'_1_concat, List.map_append,
      ← h.consecutive, List.map_singleton, hc, h.last, Nat.add_comm]
    rfl
  stored := by
    show ((m.ledger.log ++ [c]).map _).Sublist _
    rw [List.map_append]
    exact h.stored.append (.refl _)

/-- An attempt gives out the next checkpoint if it is accepted, and none otherwise. -/
theorem commit (h : Sound m ts) (a : Attempt) :
    Sound (engine (.commit a) m).2 (handOut ts (.commit a) (engine (.commit a) m).1.reply) := by
  show Sound (Memory.commit a m).2 (handOut ts (.commit a) (Memory.commit a m).1)
  rw [commit_eq h.commits]
  by_cases hne : a.events = []
  · rw [if_pos hne]
    exact h
  rw [if_neg hne]
  have hkept := h.kept.commit h.nonneg hne
  obtain ⟨c, -, -, he⟩ | ⟨-, ⟨-, he⟩ | ⟨-, he⟩ | ⟨-, he⟩⟩ := h.kept.commit_cases a <;>
    rw [he] at hkept ⊢
  · exact h
  · exact h
  · exact h
  · exact h.extend rfl hkept

/-- Recording a snapshot gives out no checkpoint. -/
theorem addSnapshot (h : Sound m ts) (t : Snapshot) :
    Sound { m with ledger := (m.ledger.addSnapshot t).2 } ts := by
  have hkept := h.kept.addSnapshot t
  obtain ⟨-, he⟩ | ⟨-, he⟩ := h.kept.addSnapshot_cases t <;> rw [he] at hkept ⊢
  · exact h
  · exact h.update hkept rfl (.refl _)

/-- Every operation keeps a store sound, with the checkpoints that it gives out. -/
theorem step (h : Sound m ts) (op : Operation) :
    Sound (engine op m).2 (handOut ts op (engine op m).1.reply) := by
  cases op with
  | commit a => exact h.commit a
  | read q => exact h
  | snapshot s last => exact h
  | addSnapshot t => exact h.addSnapshot t
  | streamsToSnapshot tenant threshold => exact h
  | setUp => exact h
  | dropStore => exact ⟨.empty, h.reads, h.commits, rfl, rfl, .slnil⟩
  | purge tenant => exact h.update (h.kept.retain _) rfl List.filter_sublist
  | purgeAll => exact h.update (.clear _) rfl (List.nil_sublist _)
  | deleteStream s => exact h.update (h.kept.retain _) rfl List.filter_sublist

end Sound

theorem after_concat (ops : List Operation) (op : Operation) :
    after (ops ++ [op]) = (engine op (after ops)).2 := by
  simp [after, account, List.foldl_append]

theorem tokens_concat (ops : List Operation) (op : Operation) : tokens (ops ++ [op])
    = handOut (tokens ops) op (engine op (after ops)).1.reply := by
  simp [tokens, after, account, List.foldl_append]

theorem length_handOut_le (ts : List Int) (op : Operation) (r : op.Reply) :
    (handOut ts op r).length ≤ ts.length + 1 := by
  unfold handOut
  split
  · rw [List.length_append]
    rfl
  · exact Nat.zero_le _
  · exact Nat.le_succ _

/-- A run gives out no more checkpoints than it has operations. -/
theorem length_tokens_le (ops : List Operation) : (tokens ops).length ≤ ops.length := by
  induction ops using List.reverseRecOn with
  | nil => exact Nat.le_refl 0
  | append_singleton ops op ih =>
    rw [tokens_concat, List.length_append]
    exact (length_handOut_le _ op _).trans (Nat.succ_le_succ ih)

/-- Every reachable store is sound. -/
theorem sound_after (ops : List Operation) : Sound (after ops) (tokens ops) := by
  induction ops using List.reverseRecOn with
  | nil => exact sound_empty
  | append_singleton ops op ih =>
    rw [after_concat, tokens_concat]
    exact ih.step op

/-- One operation adds nothing to the log but the commit of its attempt. -/
theorem mem_log_engine (h : Sound m ts) {op : Operation} {c : Commit}
    (hc : c ∈ (engine op m).2.ledger.log) : c ∈ m.ledger.log ∨ op = .commit c.toAttempt := by
  cases op with
  | commit a =>
    change c ∈ (Memory.commit a m).2.ledger.log at hc
    obtain he | ⟨he, -⟩ := commit_cases h.kept a <;> rw [he] at hc
    · rcases List.mem_append.1 hc with hc | hc
      · exact .inl hc
      · rw [List.mem_singleton.1 hc]
        exact .inr rfl
    · exact .inl hc
  | addSnapshot t =>
    refine .inl ?_
    change c ∈ (m.ledger.addSnapshot t).2.log at hc
    obtain ⟨-, he⟩ | ⟨-, he⟩ := h.kept.addSnapshot_cases t <;> rw [he] at hc <;> exact hc
  | read | snapshot | streamsToSnapshot | setUp => exact .inl hc
  | dropStore | purgeAll => exact absurd hc List.not_mem_nil
  | purge | deleteStream => exact .inl (List.mem_of_mem_filter hc)

/-- One operation adds nothing to the snapshots but the one that it records. -/
theorem mem_snapshotsOf_engine (h : Sound m ts) {op : Operation} {s : StreamId} {t : Snapshot}
    (ht : t ∈ (engine op m).2.ledger.snapshotsOf s) :
    t ∈ m.ledger.snapshotsOf s ∨ op = .addSnapshot t := by
  cases op with
  | commit a =>
    refine .inl ?_
    change t ∈ (Memory.commit a m).2.ledger.snapshotsOf s at ht
    obtain he | ⟨he, -⟩ := commit_cases h.kept a <;> rw [he] at ht <;> exact ht
  | addSnapshot u =>
    change t ∈ (m.ledger.addSnapshot u).2.snapshotsOf s at ht
    obtain ⟨-, he⟩ | ⟨-, he⟩ := h.kept.addSnapshot_cases u <;> rw [he] at ht
    · exact .inl ht
    · rw [Ledger.snapshotsOf_withSnapshot] at ht
      refine (List.mem_append.1 ht).imp_right fun hnew => ?_
      split at hnew
      · rw [List.mem_singleton.1 hnew]
      · exact absurd hnew List.not_mem_nil
  | read | snapshot | streamsToSnapshot | setUp => exact .inl ht
  | dropStore | purgeAll => exact absurd ht List.not_mem_nil
  | purge | deleteStream =>
    change t ∈ (m.ledger.retain _).snapshotsOf s at ht
    rw [Ledger.snapshotsOf_retain] at ht
    split at ht
    · exact .inl ht
    · exact absurd ht List.not_mem_nil

/-- Every stored commit was submitted in the run. -/
theorem commit_mem_of_mem_log {ops : List Operation} {c : Commit}
    (hc : c ∈ (after ops).ledger.log) : .commit c.toAttempt ∈ ops := by
  induction ops using List.reverseRecOn with
  | nil => exact absurd hc List.not_mem_nil
  | append_singleton ops op ih =>
    rw [after_concat] at hc
    rcases mem_log_engine (sound_after ops) hc with hc | rfl
    · exact List.mem_append_left _ (ih hc)
    · simp

/-- Every recorded snapshot was submitted in the run. -/
theorem addSnapshot_mem_of_mem_snapshotsOf {ops : List Operation} {s : StreamId} {t : Snapshot}
    (ht : t ∈ (after ops).ledger.snapshotsOf s) : .addSnapshot t ∈ ops := by
  induction ops using List.reverseRecOn with
  | nil => exact absurd ht List.not_mem_nil
  | append_singleton ops op ih =>
    rw [after_concat] at ht
    rcases mem_snapshotsOf_engine (sound_after ops) ht with ht | rfl
    · exact List.mem_append_left _ (ih ht)
    · simp

/-- Streams stay within the words of revisions. -/
theorem length_eventsOf_le {ops : List Operation} (hops : ∀ op ∈ ops, op.InWords) (s : StreamId) :
    (eventsOf ((after ops).ledger.ofStream s)).length ≤ maxRevision := by
  have hc := (sound_after ops).kept.history s
  cases hl : ((after ops).ledger.ofStream s).getLast? with
  | none =>
    rw [List.getLast?_eq_none_iff.1 hl]
    exact Nat.zero_le _
  | some c =>
    have hmem := (Ledger.mem_ofStream.1 (List.mem_of_getLast? hl)).1
    have := (hops _ (commit_mem_of_mem_log hmem)).1
    rw [(hc.getLast hl).2.2] at this
    omega

/-- **The law of runs of the store in memory.**  After any run, with deletions and drops anywhere in
it, each stream is a gapless history and the log ascends strictly in its checkpoints. The
checkpoints given out since the store was last dropped are 1, 2, 3 and so on in the order of
acceptance, whatever was refused or deleted in between, and what is stored carries some of them in
that order. -/
theorem histories_gapless_and_tokens_consecutive (ops : List Operation)
    (hops : ∀ op ∈ ops, op.InWords) :
    (∀ s, Gapless ((after ops).ledger.ofStream s)) ∧
      ((after ops).ledger.log.Pairwise fun c d => c.checkpoint < d.checkpoint) ∧
      tokens ops = (List.range' 1 (tokens ops).length).map (fun n : Nat => (n : Int)) ∧
      ((after ops).ledger.log.map (·.checkpoint)).Sublist (tokens ops) := by
  have h := sound_after ops
  refine ⟨fun s => (h.kept.history s).gapless (h.kept.ids s) fun c hc => ?_, h.kept.ascending,
    h.consecutive, h.stored⟩
  exact (hops _ (commit_mem_of_mem_log (Ledger.mem_ofStream.1 hc).1)).1

/-- A writer's attempt of so many events on a stream of one tenant. -/
def sampleAttempt (stream : String) (sequence revision events : Nat) (id : UInt8) : Attempt where
  stream := ⟨"tenant", stream⟩
  revision := revision
  id := ⟨List.replicate 15 0 ++ [id], rfl⟩
  sequence := sequence
  stamp := ⟨0⟩
  headers := []
  events := (List.range events).map fun n => ⟨⟨"event", .int n⟩, []⟩

/-- Two streams written in turn, with a duplicate, a conflict, a gap and an empty attempt between
the accepted ones, a snapshot, and the first stream deleted and written again. -/
def sampleRun : List Operation :=
  [.commit (sampleAttempt "a" 1 2 2 1), .commit (sampleAttempt "b" 1 1 1 1),
    .commit (sampleAttempt "a" 2 3 1 1), .commit (sampleAttempt "a" 2 2 1 2),
    .commit (sampleAttempt "a" 3 4 1 3), .commit (sampleAttempt "a" 2 2 0 4),
    .commit (sampleAttempt "a" 2 5 3 5), .addSnapshot ⟨⟨"tenant", "a"⟩, 4, ⟨"state", .null⟩⟩,
    .deleteStream ⟨"tenant", "a"⟩, .commit (sampleAttempt "a" 1 1 1 1)]

theorem histories_gapless_and_tokens_consecutive_sampleRun :
    (∀ op ∈ sampleRun, op.InWords) ∧
      (∀ s, Gapless ((after sampleRun).ledger.ofStream s)) ∧
      ((after sampleRun).ledger.log.map (·.checkpoint)).Sublist [1, 2, 3, 4] ∧
      (after sampleRun).ledger.log.map (·.checkpoint) = [2, 4] := by
  have hops : ∀ op ∈ sampleRun, op.InWords := by decide
  obtain ⟨hgapless, -, -, hstored⟩ := histories_gapless_and_tokens_consecutive sampleRun hops
  have htokens : tokens sampleRun = [1, 2, 3, 4] := by decide +kernel
  exact ⟨hops, hgapless, htokens ▸ hstored, by decide +kernel⟩

end Memory
end EventSourcing
