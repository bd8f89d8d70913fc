import EventSourcing.Proofs.Derived
import EventSourcing.Proofs.Replies

/-!
# A store and a part of another

`Ledger.Mirrors keep g part whole` says that the ledger `part` has of the ledger `whole` the streams
that `keep` tells, and nothing else: the same commits in the same order, but under other
checkpoints, which `g` takes to those of `whole`; the same heads; the same snapshots. Where the
commits of a stream stand in the two logs does not matter, since `Ledger.Kept` finds them in either.

An operation on a stream of the part, or one on streams of both, is answered by the whole as by the
part once the other streams are left out, and the two go on mirroring each other
(`Memory.Mirrors.step`); so is every run (`Memory.Mirrors.replies_eq`). An operation on streams that
are not of the part leaves the part as it is (`Memory.Mirrors.aside`), but the next checkpoint of
the whole may then be a later one.
-/

namespace EventSourcing

section Sorting

variable {α : Type*} {le : α → α → Bool}

/-- Two lists in which what meets a condition comes first are the same only part by part. -/
theorem append_inj_of_forall {q : α → Bool} {xs ys us vs : List α} (h : xs ++ ys = us ++ vs)
    (hxs : ∀ x ∈ xs, q x = true) (hus : ∀ x ∈ us, q x = true) (hys : ∀ y ∈ ys, q y = false)
    (hvs : ∀ y ∈ vs, q y = false) : xs = us ∧ ys = vs := by
  have hfirst := congrArg (List.filter q) h
  rw [List.filter_append, List.filter_append, List.filter_eq_self.2 hxs, List.filter_eq_self.2 hus,
    List.filter_eq_nil_iff.2 fun y hy => Bool.eq_false_iff.1 (hys y hy),
    List.filter_eq_nil_iff.2 fun y hy => Bool.eq_false_iff.1 (hvs y hy), List.append_nil,
    List.append_nil] at hfirst
  subst hfirst
  exact ⟨rfl, List.append_cancel_left h⟩

/-- What is left out of a sorted list can be left out before. -/
theorem filter_mergeSort (trans : ∀ a b c, le a b → le b c → le a c)
    (total : ∀ a b, le a b || le b a) (p : α → Bool) (l : List α) :
    (l.mergeSort le).filter p = (l.filter p).mergeSort le := by
  have hafter (a : α) {l xs ys : List α} (h : (a :: l).mergeSort le = xs ++ a :: ys) :
      ∀ b ∈ ys, (!le a b) = false := fun b hb => by
    have hsorted := List.pairwise_mergeSort trans total (a :: l)
    rw [h] at hsorted
    rw [(List.pairwise_cons.1 (List.pairwise_append.1 hsorted).2.1).1 b hb, Bool.not_true]
  induction l with
  | nil => rw [List.filter_nil, List.mergeSort_nil, List.filter_nil]
  | cons a l ih =>
    obtain ⟨xs, ys, hcons, hl, hxs⟩ := List.mergeSort_cons trans total a l
    have hys := hafter a hcons
    rw [hl, List.filter_append] at ih
    rw [hcons, List.filter_append, List.filter_cons, List.filter_cons]
    split
    · obtain ⟨us, vs, hcons', hl', hus⟩ := List.mergeSort_cons trans total a (l.filter p)
      -- both lists are cut before the first item that is not below `a`
      obtain ⟨rfl, rfl⟩ := append_inj_of_forall (ih.trans hl')
        (fun x hx => hxs x (List.mem_of_mem_filter hx)) hus
        (fun y hy => hys y (List.mem_of_mem_filter hy)) (hafter a hcons')
      exact hcons'.symm
    · exact ih

end Sorting

namespace StreamMap

variable {β : Type} {key : StreamId} {v : β} {m : StreamMap β} {p : StreamId → Bool}

theorem keep_cons (e : StreamId × β) :
    keep p (e :: m) = if p e.1 then e :: keep p m else keep p m :=
  List.filter_cons

theorem keep_insert : (m.insert key v).keep p
    = if p key then (m.keep p).insert key v else m.keep p := by
  induction m with
  | nil => rw [insert, keep_cons, keep, List.filter_nil, insert]
  | cons e m ih =>
    obtain ⟨k, w⟩ := e
    rw [insert, keep_cons]
    split
    · rename_i hk
      subst hk
      rw [keep_cons]
      cases p k <;> simp [insert]
    · rename_i hk
      rw [keep_cons, ih]
      cases p k <;> cases p key <;> simp [insert, hk]

theorem keep_keep (q : StreamId → Bool) : (m.keep p).keep q = (m.keep q).keep p :=
  List.filter_comm ..

end StreamMap

namespace Ledger

variable {keep : StreamId → Bool} {f g : Int → Int} {l p w : Ledger} {s : StreamId}

/-- The part of a ledger that belongs to some streams, under other checkpoints. Later checkpoints go
with each other one by one. -/
structure Mirrors (keep : StreamId → Bool) (g : Int → Int) (part whole : Ledger) : Prop where
  mono : ∀ i j, i < j → g i < g j
  counts : ∀ i, part.lastCheckpoint < i → g i = whole.lastCheckpoint + (i - part.lastCheckpoint)
  log : whole.log.filter (fun c => keep c.stream) = part.log.map (·.renumber g)
  heads : part.heads = whole.heads.keep keep
  snapshots : ∀ s, part.snapshotsOf s = if keep s then whole.snapshotsOf s else []

/-- The head of a stream does not depend on the checkpoint of its commit. -/
theorem heads_append (l : Ledger) (a : Attempt) (k : Int) : (l.append (a.confirm k)).heads
    = l.heads.insert a.stream
      { (l.heads.find? a.stream).getD ⟨a.stream, 0, 0⟩ with head := a.revision } := rfl

theorem eventsOf_renumber (g : Int → Int) (cs : List Commit) :
    eventsOf (cs.map (·.renumber g)) = eventsOf cs :=
  List.flatMap_map ..

theorem answers_renumber (hg : ∀ i j, i < j → g i < g j) (q : Query) (c : Commit) :
    answers (q.renumber g) (c.renumber g) = answers q c := by
  cases q with
  | after t k =>
    show (decide (c.stream.tenant = t) && decide (g k < g c.checkpoint)) = _
    have hlt : g k < g c.checkpoint ↔ k < c.checkpoint := by
      refine ⟨fun h => ?_, hg _ _⟩
      rcases Int.lt_trichotomy k c.checkpoint with hlt | heq | hgt
      · exact hlt
      · exact absurd h (heq ▸ Int.lt_irrefl _)
      · exact absurd (hg _ _ hgt) (Int.not_lt.2 (Int.le_of_lt h))
    rw [decide_eq_decide.2 hlt]
    rfl
  | _ => rfl

theorem answers_revisions {first last : Nat} {c : Commit}
    (h : answers (.revisions s first last) c = true) : c.stream = s := by
  rw [answers, Bool.and_eq_true, Bool.and_eq_true, decide_eq_true_eq] at h
  exact h.1.1

theorem tenant?_of_answers {q : Query} {c : Commit} (h : answers q c = true) :
    (Operation.read q).tenant? = some c.stream.tenant := by
  cases q with
  | revisions s first last =>
    rw [answers_revisions h]
    rfl
  | after t k =>
    rw [answers, Bool.and_eq_true, decide_eq_true_eq] at h
    exact congrArg some h.1.symm
  | during t start stop =>
    rw [answers.eq_def, Bool.and_eq_true, Bool.and_eq_true, decide_eq_true_eq] at h
    exact congrArg some h.1.1.symm

namespace Mirrors

/-- What stays when streams are dropped is the part of the ledger that belongs to the others. -/
theorem retain_self (l : Ledger) (keep : StreamId → Bool) : Mirrors keep id (l.retain keep) l where
  mono _ _ h := h
  counts i _ := by
    show i = l.lastCheckpoint + (i - l.lastCheckpoint)
    omega
  log := (List.map_id _).symm
  heads := rfl
  snapshots s := l.snapshotsOf_retain keep s

/-- When streams were dropped, what there is of them is what an empty ledger has. -/
theorem empty_retain (l : Ledger) (keep : StreamId → Bool) :
    Mirrors (fun s => !keep s) (· + l.lastCheckpoint) {} (l.retain keep) where
  mono _ _ h := Int.add_lt_add_right h _
  counts i _ := by
    show i + l.lastCheckpoint = l.lastCheckpoint + (i - 0)
    omega
  log := List.filter_eq_nil_iff.2 fun c hc => by
    simp [(List.mem_filter.1 hc).2]
  heads := (List.filter_eq_nil_iff.2 fun e he => by
    simp [(List.mem_filter.1 he).2]).symm
  snapshots s := by
    rw [snapshotsOf_retain]
    cases keep s <;> rfl

theorem empty (keep : StreamId → Bool) (hg : ∀ i j, i < j → g i < g j)
    (hpos : ∀ i, 0 < i → g i = i) :
    Mirrors keep g {} {} where
  mono := hg
  counts i hi := by
    rw [hpos i hi]
    show i = 0 + (i - 0)
    omega
  log := rfl
  heads := rfl
  snapshots _ := (ite_self _).symm

theorem ofStream (h : Mirrors keep g p w) (hs : keep s = true) :
    w.ofStream s = (p.ofStream s).map (·.renumber g) := by
  have hfilter : w.ofStream s = (w.log.filter fun c => keep c.stream).filter (·.stream = s) := by
    rw [List.filter_filter]
    refine List.filter_congr fun c _ => ?_
    by_cases hc : c.stream = s <;> simp [hc, hs]
  rw [hfilter, h.log, List.filter_map]
  rfl

theorem find?_heads (h : Mirrors keep g p w) (hs : keep s = true) :
    p.heads.find? s = w.heads.find? s := by
  rw [h.heads, StreamMap.find?_keep, if_pos hs]

theorem snapshotsOf (h : Mirrors keep g p w) (hs : keep s = true) :
    p.snapshotsOf s = w.snapshotsOf s :=
  (h.snapshots s).trans (if_pos hs)

/-- The next checkpoints go with each other. -/
theorem next (h : Mirrors keep g p w) : g (p.lastCheckpoint + 1) = w.lastCheckpoint + 1 := by
  rw [h.counts _ (by omega)]
  omega

/-- A commit of a stream of the part under the next checkpoints. -/
theorem append (h : Mirrors keep g p w) (a : Attempt) (ha : keep a.stream = true) :
    Mirrors keep g (p.append (a.confirm (p.lastCheckpoint + 1)))
      (w.append (a.confirm (w.lastCheckpoint + 1))) where
  mono := h.mono
  counts i hi := by
    have hi : p.lastCheckpoint + 1 < i := hi
    show g i = w.lastCheckpoint + 1 + (i - (p.lastCheckpoint + 1))
    rw [h.counts i (by omega)]
    omega
  log := by
    show (w.log ++ [_]).filter _ = (p.log ++ [_]).map _
    rw [List.filter_append, h.log, List.map_append, List.map_singleton, Commit.renumber,
      Attempt.confirm_checkpoint, h.next]
    simp [ha, Attempt.confirm]
  heads := by
    rw [heads_append, heads_append, StreamMap.keep_insert, if_pos ha, h.find?_heads ha, h.heads]
  snapshots := h.snapshots

/-- A commit of another stream leaves the part as it is; checkpoints go on from the last ones. -/
theorem append_aside (h : Mirrors keep g p w) (hp : p.Kept) {c : Commit}
    (hc : keep c.stream = false) (hlast : w.lastCheckpoint ≤ c.checkpoint) :
    Mirrors keep (fun i => if i ≤ p.lastCheckpoint then g i
      else c.checkpoint + (i - p.lastCheckpoint)) p (w.append c) where
  mono i j hij := by
    -- what the part has goes below the next checkpoint of the whole, so not beyond `c`
    have hnext : g p.lastCheckpoint < w.lastCheckpoint + 1 := h.next ▸ h.mono _ _ (by omega)
    show (if i ≤ p.lastCheckpoint then g i else _) < if j ≤ p.lastCheckpoint then g j else _
    split <;> split
    · exact h.mono i j hij
    · rename_i hi hj
      rcases Int.lt_or_eq_of_le hi with hlt | rfl
      · have := h.mono _ _ hlt
        omega
      · omega
    · omega
    · omega
  counts i hi := if_neg (by omega)
  log := by
    show (w.log ++ [c]).filter _ = _
    rw [List.filter_append, h.log, List.filter_singleton, hc, cond_false, List.append_nil]
    refine List.map_congr_left fun d hd => ?_
    rw [Commit.renumber, Commit.renumber, if_pos (hp.checkpoints d hd).2]
  heads := by
    show _ = (w.heads.insert c.stream _).keep keep
    rw [StreamMap.keep_insert, hc, if_neg Bool.false_ne_true, ← h.heads]
  snapshots := h.snapshots

/-- An attempt on a stream of the part meets in the whole what it meets in the part. -/
theorem commit (h : Mirrors keep g p w) (hp : p.Kept) (hw : w.Kept) (a : Attempt)
    (ha : keep a.stream = true) :
    PlainReply.commit (w.commit a).1 = (PlainReply.commit (p.commit a).1).renumber g ∧
      Mirrors keep g (p.commit a).2 (w.commit a).2 := by
  have hknown : (w.ofStream a.stream).find? (·.id = a.id)
      = ((p.ofStream a.stream).find? (·.id = a.id)).map (·.renumber g) := by
    rw [h.ofStream ha, List.find?_map]
    rfl
  -- the commits differ in checkpoints only, which neither the look-up nor the check reads
  rw [hp.commit_eq, hw.commit_eq, hknown, h.ofStream ha, List.length_map, eventsOf_renumber]
  cases (p.ofStream a.stream).find? (·.id = a.id) with
  | some c => exact ⟨rfl, h⟩
  | none =>
    simp only [Option.map_none]
    cases hv : a.validate (p.ofStream a.stream).length (eventsOf (p.ofStream a.stream)).length with
    | error e =>
      have he : e.renumber g = e := by
        unfold Attempt.validate at hv
        split at hv <;> cases hv <;> rfl
      exact ⟨congrArg (fun e => PlainReply.commit (.error e)) he.symm, h⟩
    | ok u =>
      have hnext := congrArg (fun k => PlainReply.commit (.ok (some (a.confirm k)))) h.next.symm
      exact ⟨hnext, h.append a ha⟩

theorem withSnapshot (h : Mirrors keep g p w) (u : Snapshot) (hu : keep u.stream = true) :
    Mirrors keep g (p.withSnapshot u) (w.withSnapshot u) where
  mono := h.mono
  counts := h.counts
  log := h.log
  heads := by
    show p.heads.insert u.stream _ = (w.heads.insert u.stream _).keep keep
    rw [StreamMap.keep_insert, if_pos hu, ← h.heads, h.snapshotsOf hu, h.ofStream hu,
      eventsOf_renumber]
  snapshots s := by
    rw [snapshotsOf_withSnapshot, snapshotsOf_withSnapshot, h.snapshots]
    by_cases hs : u.stream = s
    · rw [← hs, if_pos hu, if_pos hu]
    · rw [if_neg hs, List.append_nil, List.append_nil]

/-- A snapshot of a stream of the part is recorded in both, or turned away by both. -/
theorem addSnapshot (h : Mirrors keep g p w) (hp : p.Kept) (hw : w.Kept) (u : Snapshot)
    (hu : keep u.stream = true) :
    (w.addSnapshot u).1 = (p.addSnapshot u).1 ∧
      Mirrors keep g (p.addSnapshot u).2 (w.addSnapshot u).2 := by
  have hcases := hw.addSnapshot_cases u
  rw [h.ofStream hu, eventsOf_renumber, ← h.snapshotsOf hu] at hcases
  obtain ⟨hp, hep⟩ | ⟨hp, hep⟩ := hp.addSnapshot_cases u <;>
    obtain ⟨hw, hew⟩ | ⟨hw, hew⟩ := hcases <;> rw [hep, hew]
  · exact ⟨rfl, h⟩
  · exact absurd hw hp
  · exact absurd hp hw
  · exact ⟨rfl, h.withSnapshot u hu⟩

/-- A snapshot of another stream leaves the part as it is. -/
theorem addSnapshot_aside (h : Mirrors keep g p w) (hw : w.Kept) (u : Snapshot)
    (hu : keep u.stream = false) : Mirrors keep g p (w.addSnapshot u).2 := by
  obtain ⟨-, he⟩ | ⟨-, he⟩ := hw.addSnapshot_cases u <;> rw [he]
  · exact h
  refine ⟨h.mono, h.counts, h.log, ?_, fun s => ?_⟩
  · show _ = (w.heads.insert u.stream _).keep keep
    rw [StreamMap.keep_insert, hu, if_neg Bool.false_ne_true, ← h.heads]
  · rw [snapshotsOf_withSnapshot, h.snapshots]
    by_cases hs : u.stream = s
    · rw [← hs, hu, if_neg Bool.false_ne_true, if_neg Bool.false_ne_true]
    · rw [if_neg hs, List.append_nil]

/-- Streams dropped from both. -/
theorem retain (h : Mirrors keep g p w) (q : StreamId → Bool) :
    Mirrors keep g (p.retain q) (w.retain q) where
  mono := h.mono
  counts := h.counts
  log := by
    show (w.log.filter _).filter _ = (p.log.filter _).map _
    rw [List.filter_comm, h.log, List.filter_map]
    rfl
  heads := by
    show p.heads.keep q = (w.heads.keep q).keep keep
    rw [StreamMap.keep_keep, ← h.heads]
  snapshots s := by
    rw [snapshotsOf_retain, snapshotsOf_retain, h.snapshots]
    cases keep s <;> cases q s <;> rfl

/-- Dropping other streams leaves the part as it is. -/
theorem retain_aside (h : Mirrors keep g p w) {q : StreamId → Bool}
    (hq : ∀ s, keep s = true → q s = true) : Mirrors keep g p (w.retain q) where
  mono := h.mono
  counts := h.counts
  log := by
    show (w.log.filter _).filter _ = _
    rw [List.filter_filter, ← h.log]
    refine List.filter_congr fun c _ => ?_
    cases hc : keep c.stream
    · rfl
    · rw [hq _ hc]
      rfl
  heads := by
    rw [h.heads]
    show w.heads.filter _ = (w.heads.filter _).filter _
    rw [List.filter_filter]
    refine List.filter_congr fun e _ => ?_
    cases he : keep e.1
    · rfl
    · rw [hq _ he]
      rfl
  snapshots s := by
    rw [h.snapshots, snapshotsOf_retain]
    cases hs : keep s
    · rfl
    · rw [hq s hs]
      rfl

theorem clear (h : Mirrors keep g p w) : Mirrors keep g p.clear w.clear where
  mono := h.mono
  counts := h.counts
  log := rfl
  heads := rfl
  snapshots _ := (ite_self _).symm

/-- The commits that answer a query, those of other streams left out. -/
theorem read (h : Mirrors keep g p w) (q : Query) :
    (w.read (q.renumber g)).filter (fun c => keep c.stream)
      = (p.read q).map (·.renumber g) := by
  have hfound : (w.log.filter (answers (q.renumber g))).filter (fun c => keep c.stream)
      = (p.log.filter (answers q)).map (·.renumber g) := by
    rw [List.filter_comm, h.log, List.filter_map]
    exact congrArg _ (List.filter_congr fun c _ => answers_renumber h.mono q c)
  cases q with
  | revisions | after => exact hfound
  | during tenant start stop =>
    refine (filter_mergeSort (fun a b c hab hbc => ?_) (fun a b => ?_) _ _).trans ?_
    · rw [decide_eq_true_eq] at hab hbc ⊢
      exact Int.le_trans hab hbc
    · rw [Bool.or_eq_true, decide_eq_true_eq, decide_eq_true_eq]
      exact Int.le_total ..
    · refine (congrArg (List.mergeSort · _) hfound).trans (List.map_mergeSort ?_).symm
      exact fun c _ d _ => rfl

/-- The streams of a tenant that want a snapshot, those of the part only. -/
theorem streamsToSnapshot (h : Mirrors keep g p w) (hnamed : ∀ e ∈ w.heads, e.2.stream = e.1)
    (tenant : String) (threshold : Nat) :
    (w.streamsToSnapshot tenant threshold).filter (fun d => keep d.stream)
      = p.streamsToSnapshot tenant threshold := by
  have hpart : (w.heads.map (·.2)).filter (fun d => keep d.stream) = p.heads.map (·.2) := by
    rw [h.heads, List.filter_map]
    exact congrArg _ (List.filter_congr fun e he => congrArg keep (hnamed e he))
  refine (filter_mergeSort (fun a b c hab hbc => ?_) (fun a b => ?_) _ _).trans ?_
  · rw [decide_eq_true_eq] at hab hbc ⊢
    exact String.le_trans hab hbc
  · rw [Bool.or_eq_true, decide_eq_true_eq, decide_eq_true_eq]
    exact String.le_total ..
  · rw [List.filter_comm, hpart]
    rfl

theorem snapshot (h : Mirrors keep g p w) (hs : keep s = true) (last : Nat) :
    w.snapshot s last = p.snapshot s last :=
  congrArg (fun us : List Snapshot => latest (us.filter (·.revision ≤ last)))
    (h.snapshotsOf hs).symm

end Mirrors
end Ledger

namespace Memory

variable {keep : StreamId → Bool} {g : Int → Int} {m part whole : Memory} {op : Operation}

/-- The stores that operations lead to, where reads and commits may be switched off and on again. -/
inductive Reachable : Memory → Prop
  | empty : Reachable empty
  | step {m : Memory} (op : Operation) (h : Reachable m) : Reachable (engine op m).2
  | switch {m : Memory} (reads commits : Bool) (h : Reachable m) :
    Reachable { m with readsDisabled := reads, commitsDisabled := commits }

theorem reachable_after (ops : List Operation) : Reachable (after ops) := by
  induction ops using List.reverseRecOn with
  | nil => exact .empty
  | append_singleton ops op ih =>
    rw [after_concat]
    exact ih.step op

namespace Reachable

/-- Whatever the switches, the ledger of a reachable store is that of a sound one. -/
theorem sound (h : Reachable m) : (∃ ts, Sound { ledger := m.ledger } ts) ∧ m.ledger.Filed := by
  induction h with
  | empty => exact ⟨⟨[], sound_empty⟩, .empty⟩
  | switch reads commits h ih => exact ih
  | @step m op h ih =>
    obtain he | he := ledger_engine op m <;> rw [he]
    · exact ih
    · obtain ⟨⟨ts, hsound⟩, hfiled⟩ := ih
      exact ⟨⟨_, (hsound.step op).ofLedger⟩, hsound.filed_step hfiled op⟩

theorem kept (h : Reachable m) : m.ledger.Kept := by
  obtain ⟨⟨ts, hsound⟩, -⟩ := h.sound
  exact hsound.kept

theorem nonneg (h : Reachable m) : 0 ≤ m.ledger.lastCheckpoint := by
  obtain ⟨⟨ts, hsound⟩, -⟩ := h.sound
  exact hsound.nonneg

theorem filed (h : Reachable m) : m.ledger.Filed := h.sound.2

end Reachable

/-- Nothing is left out of an answer if no stream of the addressed tenant is. -/
theorem leaveOut_eq_self {hidden : StreamId → Bool} (m : Memory)
    (h : op.stream? = none → ∀ s, op.tenant? = some s.tenant → hidden s = false) :
    op.leaveOut hidden (op.plain (engine op m).1.reply) = op.plain (engine op m).1.reply := by
  cases op with
  | read q =>
    rw [plain_read]
    have hitems (hq : ∀ c, Ledger.answers q c = true → hidden c.stream = false) :
        (m.read q).filter (fun i => i.toOption.all fun c => !hidden c.stream) = m.read q := by
      refine List.filter_eq_self.2 fun i hi => ?_
      unfold Memory.read at hi
      split at hi
      · rw [List.mem_singleton.1 hi]
        rfl
      · obtain ⟨c, hc, rfl⟩ := List.mem_map.1 hi
        exact congrArg not (hq c (Ledger.mem_read.1 hc).2)
    cases q with
    | revisions => rfl
    | after | during =>
      exact congrArg PlainReply.read (hitems fun c hc => h rfl _ (Ledger.tenant?_of_answers hc))
  | streamsToSnapshot t threshold =>
    refine congrArg PlainReply.streamsToSnapshot (List.filter_eq_self.2 fun i hi => ?_)
    obtain ⟨d, hd, rfl⟩ := List.mem_map.1 hi
    have hwanted := (List.mem_filter.1 (List.mem_mergeSort.1 hd)).2
    rw [Bool.and_eq_true, decide_eq_true_eq] at hwanted
    exact congrArg not (h rfl d.stream (congrArg some hwanted.1.symm))
  | _ => rfl

theorem zipWith_leaveOut_eq_self {hidden : StreamId → Bool} {ops : List Operation}
    (h : ∀ op ∈ ops, op.stream? = none → ∀ s, op.tenant? = some s.tenant → hidden s = false) :
    List.zipWith (Operation.leaveOut hidden) ops (engine.replies m ops) = engine.replies m ops := by
  induction ops generalizing m with
  | nil => rfl
  | cons op ops ih =>
    obtain ⟨hop, hops⟩ := List.forall_mem_cons.1 h
    rw [Engine.replies_cons, List.zipWith_cons_cons, leaveOut_eq_self m hop, ih hops]

/-- A store that has the part of another one's ledger that belongs to some streams. -/
structure Mirrors (keep : StreamId → Bool) (g : Int → Int) (part whole : Memory) : Prop where
  partReached : Reachable part
  wholeReached : Reachable whole
  reads : part.readsDisabled = whole.readsDisabled
  commits : part.commitsDisabled = whole.commitsDisabled
  ledger : part.ledger.Mirrors keep g whole.ledger

namespace Mirrors

theorem commit (h : Mirrors keep g part whole) (a : Attempt) (ha : keep a.stream = true) :
    PlainReply.commit (Memory.commit a whole).1
        = (PlainReply.commit (Memory.commit a part).1).renumber g ∧
      (Memory.commit a part).2.ledger.Mirrors keep g (Memory.commit a whole).2.ledger := by
  unfold Memory.commit
  rw [h.commits]
  split
  · exact ⟨rfl, h.ledger⟩
  split
  · exact ⟨rfl, h.ledger⟩
  · exact h.ledger.commit h.partReached.kept h.wholeReached.kept a ha

theorem read (h : Mirrors keep g part whole) (q : Query)
    (hq : ∀ s ∈ (Operation.read q).stream?, keep s = true) :
    (Operation.read (q.renumber g)).leaveOut (!keep ·) (.read (whole.read (q.renumber g)))
      = (PlainReply.read (part.read q)).renumber g := by
  have hitems : ((whole.ledger.read (q.renumber g)).map Except.ok).filter
        (fun i : Item => i.toOption.all fun c => !!keep c.stream)
      = ((part.ledger.read q).map Except.ok).map (Item.renumber g) := by
    rw [List.filter_map, List.map_map]
    refine (congrArg (List.map Except.ok) ?_).trans
      ((congrArg (List.map Except.ok) (h.ledger.read q)).trans List.map_map)
    exact List.filter_congr fun c _ => Bool.not_not _
  unfold Memory.read
  rw [h.reads]
  split
  · cases q <;> rfl
  · cases q with
    | after | during => exact congrArg PlainReply.read hitems
    | revisions s first last =>
      refine congrArg PlainReply.read (Eq.trans ?_ hitems)
      refine (List.filter_eq_self.2 fun i hi => ?_).symm
      obtain ⟨c, hc, rfl⟩ := List.mem_map.1 hi
      have hs := Ledger.answers_revisions (List.mem_filter.1 hc).2
      show (!!keep c.stream) = true
      rw [hs, hq s rfl]
      rfl

/-- An operation on a stream of the part, or on more than one stream, is answered by the whole as by
the part, once the other streams are left out. -/
theorem step (h : Mirrors keep g part whole) (hop : ∀ s ∈ op.stream?, keep s = true)
    (hdrop : op = .dropStore → ∀ i, 0 < i → g i = i) :
    (op.renumber g).leaveOut (!keep ·)
        ((op.renumber g).plain (engine (op.renumber g) whole).1.reply)
        = (op.plain (engine op part).1.reply).renumber g ∧
      Mirrors keep g (engine op part).2 (engine (op.renumber g) whole).2 := by
  have hledger : (op.renumber g).leaveOut (!keep ·)
        ((op.renumber g).plain (engine (op.renumber g) whole).1.reply)
        = (op.plain (engine op part).1.reply).renumber g ∧
      (engine op part).2.ledger.Mirrors keep g (engine (op.renumber g) whole).2.ledger := by
    cases op with
    | commit a => exact h.commit a (hop _ rfl)
    | read q =>
      refine ⟨?_, h.ledger⟩
      rw [plain_read, Operation.renumber, plain_read]
      exact h.read q hop
    | snapshot s last =>
      exact ⟨congrArg (fun u => PlainReply.snapshot (.ok u)) (h.ledger.snapshot (hop s rfl) last),
        h.ledger⟩
    | addSnapshot u =>
      obtain ⟨he, hnext⟩ :=
        h.ledger.addSnapshot h.partReached.kept h.wholeReached.kept u (hop _ rfl)
      exact ⟨congrArg (fun b => PlainReply.addSnapshot (.ok b)) he, hnext⟩
    | streamsToSnapshot tenant threshold =>
      have hnamed := h.wholeReached.kept.named h.wholeReached.filed.heads
      have hheads := h.ledger.streamsToSnapshot hnamed tenant threshold
      refine ⟨congrArg PlainReply.streamsToSnapshot ?_, h.ledger⟩
      show ((whole.ledger.streamsToSnapshot tenant threshold).map Except.ok).filter _ = _
      rw [List.filter_map]
      refine congrArg (List.map Except.ok) (Eq.trans ?_ hheads)
      exact List.filter_congr fun d _ => Bool.not_not _
    | setUp => exact ⟨rfl, h.ledger⟩
    | dropStore => exact ⟨rfl, .empty keep h.ledger.mono (hdrop rfl)⟩
    | purge tenant => exact ⟨rfl, h.ledger.retain fun s => s.tenant ≠ tenant⟩
    | deleteStream s => exact ⟨rfl, h.ledger.retain fun r => r ≠ s⟩
    | purgeAll => exact ⟨rfl, h.ledger.clear⟩
  refine ⟨hledger.1, h.partReached.step op, h.wholeReached.step _, ?_, ?_, hledger.2⟩
  · rw [(engine_switches ..).1, (engine_switches ..).1, h.reads]
  · rw [(engine_switches ..).2, (engine_switches ..).2, h.commits]

/-- A run is answered by the whole as by the part, once the other streams are left out. -/
theorem replies_eq (h : Mirrors keep g part whole) (ops : List Operation)
    (hops : ∀ op ∈ ops, ∀ s ∈ op.stream?, keep s = true)
    (hdrop : .dropStore ∈ ops → ∀ i, 0 < i → g i = i) :
    List.zipWith (Operation.leaveOut (!keep ·)) (ops.map (.renumber g))
        (engine.replies whole (ops.map (.renumber g)))
      = (engine.replies part ops).map (.renumber g) := by
  induction ops generalizing part whole with
  | nil => rfl
  | cons op ops ih =>
    obtain ⟨hop, hops⟩ := List.forall_mem_cons.1 hops
    obtain ⟨he, hnext⟩ := h.step hop fun heq => hdrop (heq ▸ List.mem_cons_self ..)
    rw [List.map_cons, Engine.replies_cons, List.zipWith_cons_cons, he, Engine.replies_cons,
      List.map_cons, ih hnext hops fun hmem => hdrop (List.mem_cons_of_mem _ hmem)]

/-- An operation on a tenant of whom no stream is of the part leaves the part as it is, and the
checkpoints that the part has go with the same ones as before. -/
theorem aside (h : Mirrors keep g part whole) {t : String} (ht : op.tenant? = some t)
    (hkeep : ∀ s, s.tenant = t → keep s = false) :
    ∃ f, (∀ i ≤ part.ledger.lastCheckpoint, f i = g i) ∧
      Mirrors keep f part (engine op whole).2 := by
  have hledger : ∃ f, (∀ i ≤ part.ledger.lastCheckpoint, f i = g i) ∧
      part.ledger.Mirrors keep f (engine op whole).2.ledger := by
    cases op with
    | commit a =>
      have ha : keep a.stream = false := hkeep _ (Option.some.inj ht)
      show ∃ f, _ ∧ part.ledger.Mirrors keep f (Memory.commit a whole).2.ledger
      obtain he | ⟨he, -⟩ := commit_cases h.wholeReached.kept a <;> rw [he]
      · exact ⟨_, fun i hi => if_pos hi, h.ledger.append_aside h.partReached.kept ha
          (Int.le_add_one (Int.le_refl _))⟩
      · exact ⟨g, fun _ _ => rfl, h.ledger⟩
    | read | snapshot | streamsToSnapshot => exact ⟨g, fun _ _ => rfl, h.ledger⟩
    | addSnapshot u =>
      exact ⟨g, fun _ _ => rfl,
        h.ledger.addSnapshot_aside h.wholeReached.kept u (hkeep _ (Option.some.inj ht))⟩
    | purge tenant =>
      have hq : ∀ s, keep s = true → decide (s.tenant ≠ tenant) = true := fun s hs =>
        decide_eq_true fun heq => by
          rw [hkeep s (heq.trans (Option.some.inj ht))] at hs
          exact absurd hs Bool.false_ne_true
      exact ⟨g, fun _ _ => rfl, h.ledger.retain_aside hq⟩
    | deleteStream r =>
      have hq : ∀ s, keep s = true → decide (s ≠ r) = true := fun s hs =>
        decide_eq_true fun heq => by
          rw [heq, hkeep r (Option.some.inj ht)] at hs
          exact absurd hs Bool.false_ne_true
      exact ⟨g, fun _ _ => rfl, h.ledger.retain_aside hq⟩
    | setUp | dropStore | purgeAll => exact nomatch ht
  obtain ⟨f, hf, hnext⟩ := hledger
  refine ⟨f, hf, h.partReached, h.wholeReached.step op, ?_, ?_, hnext⟩
  · rw [(engine_switches ..).1, h.reads]
  · rw [(engine_switches ..).2, h.commits]

end Mirrors
end Memory
end EventSourcing
