import EventSourcing.Proofs.Bookkeeping
import EventSourcing.Proofs.Derived
import EventSourcing.Proofs.Serialization
import Mathlib.Data.List.DropRight

/-!
# Snapshots follow their history

Both stores keep the snapshots of a stream and next to its head a running greatest revision, and
answer from these. What they should answer can be told without looking into them, from the calls
that were accepted before: `Change.of?` is what an answer says has happened, a `Past` is the list of
that over a run, and `Past.since` what of it counts for a stream, namely what came after the stream
was last removed. `Past.Takes`, `Snapshot.IsLatest` and `Past.IsDue` are the three answers in these
terms.

A ledger recounts a past if it has the commits and the snapshots that the past leaves each stream.
Each change of the ledger goes with its entry in the past (`Ledger.Recounts.append`,
`Ledger.Recounts.record`, `Ledger.Recounts.retain`), so the ledger of every reachable store recounts
its run, in memory (`Memory.recounts_past`) and in the tables (`Database.recounts_past`). From there
the answers follow once for both stores (`Ledger.Recounts.engine_follows`), since a head of a kept
ledger tells the revisions of the last commit and of the greatest snapshot. The tables answer with
what is read from a row, so they follow their past just as long as all snapshots that it leaves can
be read back (`Tables.Recounts.engine_follows_iff`).
-/

namespace EventSourcing

/-- What can happen to the streams of a store. -/
inductive Change where
  | committed (commit : Commit)
  | recorded (snapshot : Snapshot)
  /-- All that belongs to some streams is gone. -/
  | removed (gone : StreamId → Bool)

namespace Change

/-- What an answer says has happened. Reading changes nothing, and neither does what is refused;
purging everything and dropping the store remove every stream. -/
def of? : (op : Operation) → op.Reply → Option Change
  | .commit _, .ok (some c) => some (.committed c)
  | .addSnapshot t, .ok true => some (.recorded t)
  | .purge tenant, .ok () => some (.removed (·.tenant = tenant))
  | .purgeAll, .ok () | .dropStore, .ok () => some (.removed fun _ => true)
  | .deleteStream s, .ok () => some (.removed (· = s))
  | _, _ => none

/-- Whether a stream is gone. -/
def removes (s : StreamId) : Change → Bool
  | .removed gone => gone s
  | _ => false

/-- The commit that a stream is given. -/
def commitOf? (s : StreamId) : Change → Option Commit
  | .committed c => if c.stream = s then some c else none
  | _ => none

/-- The snapshot that a stream is given. -/
def snapshotOf? (s : StreamId) : Change → Option Snapshot
  | .recorded t => if t.stream = s then some t else none
  | _ => none

theorem of?_commit_eq_none {a : Attempt} {r : Except Fault (Option Commit)}
    (h : ∀ c, r ≠ .ok (some c)) : of? (.commit a) r = none := by
  rcases r with e | _ | c
  · rfl
  · rfl
  · exact absurd rfl (h c)

theorem eq_addSnapshot_of_recorded {op : Operation} {r : op.Reply} {t : Snapshot}
    (h : of? op r = some (.recorded t)) : op = .addSnapshot t := by
  unfold of? at h
  split at h <;> simp_all

end Change

/-- What has happened to the streams of a store, in order. -/
abbrev Past := List Change

namespace Past

/-- What has happened since a stream was last removed. -/
def since (h : Past) (s : StreamId) : Past := h.rtakeWhile fun e => !e.removes s

/-- The commits that a stream was given since it was last removed. -/
def commits (h : Past) (s : StreamId) : List Commit := (h.since s).filterMap (·.commitOf? s)

/-- The snapshots that a stream was given since it was last removed. -/
def snapshots (h : Past) (s : StreamId) : List Snapshot :=
  (h.since s).filterMap (·.snapshotOf? s)

/-- The head revision of a stream, if it has commits. -/
def head? (h : Past) (s : StreamId) : Option Nat := (h.commits s).getLast?.map (·.revision)

/-- A snapshot is taken if its stream has its revision and no snapshot there. -/
def Takes (h : Past) (t : Snapshot) : Prop :=
  ∃ head ∈ h.head? t.stream, 1 ≤ t.revision ∧ t.revision ≤ head ∧
    ∀ u ∈ h.snapshots t.stream, u.revision ≠ t.revision

/-- The heads of the streams of a tenant that are more than a threshold of revisions ahead of their
greatest snapshot, each once, in the order of the bytes of their names. -/
structure IsDue (h : Past) (tenant : String) (threshold : Nat) (heads : List StreamHead) :
    Prop where
  mem_iff : ∀ e, e ∈ heads ↔ e.stream.tenant = tenant ∧ h.head? e.stream = some e.head ∧
    e.snapshot = Ledger.greatestRevision (h.snapshots e.stream) ∧
    e.snapshot + threshold < e.head
  ascending : heads.Pairwise fun d e =>
    Utf8.ofString d.stream.stream < Utf8.ofString e.stream.stream

section Concat

variable (h : Past) (s : StreamId)

/-- A change that removes a stream leaves nothing of it, and any other one adds to what was left. -/
theorem filterMap_since_concat {β : Type} (f : Change → Option β) (e : Change) :
    ((h ++ [e]).since s).filterMap f
      = if e.removes s then [] else (h.since s).filterMap f ++ (f e).toList := by
  rw [since, List.rtakeWhile_concat]
  cases e.removes s with
  | true => rfl
  | false =>
    show (h.since s ++ [e]).filterMap f = _
    rw [List.filterMap_append]
    cases hf : f e <;> simp [hf]

@[simp] theorem commits_committed (c : Commit) :
    commits (h ++ [.committed c]) s = h.commits s ++ if c.stream = s then [c] else [] := by
  rw [commits, filterMap_since_concat, commits]
  by_cases hs : c.stream = s <;> simp [Change.removes, Change.commitOf?, hs]

@[simp] theorem commits_recorded (t : Snapshot) :
    commits (h ++ [.recorded t]) s = h.commits s :=
  (h.filterMap_since_concat s _ _).trans (List.append_nil _)

@[simp] theorem commits_removed (gone : StreamId → Bool) :
    commits (h ++ [.removed gone]) s = if gone s then [] else h.commits s := by
  rw [commits, filterMap_since_concat, commits]
  cases hs : gone s <;> simp [Change.removes, Change.commitOf?, hs]

@[simp] theorem snapshots_committed (c : Commit) :
    snapshots (h ++ [.committed c]) s = h.snapshots s :=
  (h.filterMap_since_concat s _ _).trans (List.append_nil _)

@[simp] theorem snapshots_recorded (t : Snapshot) :
    snapshots (h ++ [.recorded t]) s = h.snapshots s ++ if t.stream = s then [t] else [] := by
  rw [snapshots, filterMap_since_concat, snapshots]
  by_cases hs : t.stream = s <;> simp [Change.removes, Change.snapshotOf?, hs]

@[simp] theorem snapshots_removed (gone : StreamId → Bool) :
    snapshots (h ++ [.removed gone]) s = if gone s then [] else h.snapshots s := by
  rw [snapshots, filterMap_since_concat, snapshots]
  cases hs : gone s <;> simp [Change.removes, Change.snapshotOf?, hs]

end Concat

/-- A stream has only snapshots that were recorded. -/
theorem recorded_mem_of_mem_snapshots {h : Past} {s : StreamId} {t : Snapshot}
    (ht : t ∈ h.snapshots s) : Change.recorded t ∈ h := by
  obtain ⟨e, he, hsome⟩ := List.mem_filterMap.1 ht
  have hmem : e ∈ h := (List.rtakeWhile_suffix _ h).mem he
  cases e with
  | recorded u =>
    obtain ⟨-, rfl⟩ : u.stream = s ∧ u = t := by simpa [Change.snapshotOf?] using hsome
    exact hmem
  | committed | removed => cases hsome

end Past

/-- The snapshot of the greatest revision up to a last one, as it was first given; none if all are
later. -/
def Snapshot.IsLatest (us : List Snapshot) (last : Nat) : Option Snapshot → Prop
  | none => ∀ u ∈ us, last < u.revision
  | some t => t.revision ≤ last ∧ us.find? (·.revision = t.revision) = some t ∧
    ∀ u ∈ us, u.revision ≤ last → u.revision ≤ t.revision

/-- Where revisions differ, what is found at the revision of a snapshot is the snapshot itself. -/
theorem Snapshot.find?_of_mem {us : List Snapshot} (h : (us.map (·.revision)).Nodup)
    {t : Snapshot} (ht : t ∈ us) : us.find? (·.revision = t.revision) = some t := by
  obtain ⟨u, hu⟩ : ∃ u, us.find? (·.revision = t.revision) = some u :=
    Option.isSome_iff_exists.1 (List.find?_isSome.2 ⟨t, ht, decide_eq_true rfl⟩)
  have hrevision : u.revision = t.revision := by simpa using List.find?_some hu
  rw [hu, List.inj_on_of_nodup_map h (List.mem_of_find?_eq_some hu) ht hrevision]

namespace Snapshot.IsLatest

variable {us : List Snapshot}

/-- A snapshot is the latest one up to its own revision. -/
theorem self (h : (us.map (·.revision)).Nodup) {t : Snapshot} (ht : t ∈ us) :
    IsLatest us t.revision (some t) :=
  ⟨Nat.le_refl _, find?_of_mem h ht, fun _ _ hu => hu⟩

theorem unique {last : Nat} {r r' : Option Snapshot} (h : IsLatest us last r)
    (h' : IsLatest us last r') : r = r' := by
  cases r with
  | none =>
    cases r' with
    | none => rfl
    | some u => exact absurd h'.1 (Nat.not_le.2 (h u (List.mem_of_find?_eq_some h'.2.1)))
  | some t =>
    have ht : t ∈ us := List.mem_of_find?_eq_some h.2.1
    cases r' with
    | none => exact absurd h.1 (Nat.not_le.2 (h' t ht))
    | some u =>
      have hu : u ∈ us := List.mem_of_find?_eq_some h'.2.1
      have hrevision : t.revision = u.revision :=
        Nat.le_antisymm (h'.2.2 t ht h.1) (h.2.2 u hu h'.1)
      have hfound := h.2.1
      rw [hrevision] at hfound
      exact hfound.symm.trans h'.2.1

end Snapshot.IsLatest

/-- A store answers what concerns snapshots as a past tells, in operations of some kind. -/
structure Engine.Follows {σ : Type} (engine : Engine σ) (asked : Operation → Prop) (state : σ)
    (h : Past) : Prop where
  added : ∀ t, asked (.addSnapshot t) →
    ∃ b, (engine (.addSnapshot t) state).1.reply = .ok b ∧ (b = true ↔ h.Takes t)
  latest : ∀ s last, asked (.snapshot s last) →
    ∃ found, (engine (.snapshot s last) state).1.reply = .ok found ∧
      Snapshot.IsLatest (h.snapshots s) last found
  due : ∀ tenant threshold, asked (.streamsToSnapshot tenant threshold) →
    ∃ heads : List StreamHead,
      (engine (.streamsToSnapshot tenant threshold) state).1.reply = heads.map .ok ∧
        h.IsDue tenant threshold heads

/-- A store answers nothing that concerns snapshots in operations of another kind. -/
structure Engine.Refuses {σ : Type} (engine : Engine σ) (asked : Operation → Prop) (state : σ) :
    Prop where
  added : ∀ t, ¬ asked (.addSnapshot t) →
    (engine (.addSnapshot t) state).1.reply = .error .database
  latest : ∀ s last, ¬ asked (.snapshot s last) →
    (engine (.snapshot s last) state).1.reply = .error .database
  due : ∀ tenant threshold, ¬ asked (.streamsToSnapshot tenant threshold) →
    (engine (.streamsToSnapshot tenant threshold) state).1.reply = [.error .database]

namespace Ledger

variable {l : Ledger} {h : Past}

theorem mem_streamsToSnapshot {tenant : String} {threshold : Nat} {e : StreamHead} :
    e ∈ l.streamsToSnapshot tenant threshold ↔
      e ∈ l.heads.map (·.2) ∧ e.stream.tenant = tenant ∧ threshold < e.unsnapshotted := by
  rw [streamsToSnapshot, List.mem_mergeSort, List.mem_filter, Bool.and_eq_true,
    decide_eq_true_eq, decide_eq_true_eq]

theorem Kept.mem_heads_iff (hk : l.Kept) (hkeyed : l.heads.Keyed) {e : StreamHead} :
    e ∈ l.heads.map (·.2) ↔ l.heads.find? e.stream = some e := by
  refine ⟨fun he => ?_, fun he => List.mem_map.2 ⟨_, StreamMap.mem_of_find? he, rfl⟩⟩
  obtain ⟨d, hd, rfl⟩ := List.mem_map.1 he
  rw [hk.named hkeyed d hd, StreamMap.find?_of_mem hkeyed hd]

/-- Streams of one tenant have different names, so that they are put in a strict order. -/
theorem Kept.pairwise_streamsToSnapshot (hk : l.Kept) (hkeyed : l.heads.Keyed) (tenant : String)
    (threshold : Nat) : (l.streamsToSnapshot tenant threshold).Pairwise fun d e =>
      d.stream.stream < e.stream.stream := by
  have hsorted : (l.streamsToSnapshot tenant threshold).Pairwise fun d e =>
      d.stream.stream ≤ e.stream.stream := by
    refine (List.pairwise_mergeSort (fun a b c hab hbc => ?_) (fun a b => ?_) _).imp
      of_decide_eq_true
    · exact decide_eq_true (String.le_trans (of_decide_eq_true hab) (of_decide_eq_true hbc))
    · simpa using String.le_total a.stream.stream b.stream.stream
  have hapart : (l.heads.map (·.2)).Pairwise fun d e => d.stream ≠ e.stream :=
    List.pairwise_map.2 <| (List.pairwise_map.1 hkeyed).imp_of_mem fun hd he hne => by
      rwa [hk.named hkeyed _ hd, hk.named hkeyed _ he]
  have hdifferent : (l.streamsToSnapshot tenant threshold).Pairwise fun d e =>
      d.stream ≠ e.stream :=
    (List.mergeSort_perm ..).pairwise_iff (fun hne => Ne.symm hne) |>.2 (hapart.filter _)
  refine (hsorted.and hdifferent).imp_of_mem fun hd he hde => Std.lt_of_le_of_ne hde.1 ?_
  have htenant := (mem_streamsToSnapshot.1 hd).2.1.trans (mem_streamsToSnapshot.1 he).2.1.symm
  exact fun hname => hde.2 (StreamId.eq_of htenant hname)

/-- A ledger has the commits and the snapshots that a past leaves each stream. -/
structure Recounts (l : Ledger) (h : Past) : Prop where
  commits : ∀ s, l.ofStream s = h.commits s
  snapshots : ∀ s, l.snapshotsOf s = h.snapshots s

namespace Recounts

theorem empty : Recounts {} [] := ⟨fun _ => rfl, fun _ => rfl⟩

theorem append (hr : l.Recounts h) (c : Commit) : (l.append c).Recounts (h ++ [.committed c]) where
  commits s := by rw [ofStream_append, h.commits_committed, hr.commits]
  snapshots s := (hr.snapshots s).trans (h.snapshots_committed s c).symm

theorem record (hr : l.Recounts h) (t : Snapshot) (heads : StreamMap StreamHead) :
    Recounts { l with
      snapshots := l.snapshots.insert t.stream (l.snapshotsOf t.stream ++ [t])
      heads := heads } (h ++ [.recorded t]) where
  commits s := (hr.commits s).trans (h.commits_recorded s t).symm
  snapshots s := by rw [snapshotsOf_insert, h.snapshots_recorded, hr.snapshots]

theorem retain (hr : l.Recounts h) {keep gone : StreamId → Bool} (hgone : ∀ s, gone s = !keep s) :
    (l.retain keep).Recounts (h ++ [.removed gone]) where
  commits s := by
    rw [ofStream_retain, h.commits_removed, hr.commits, hgone]
    cases keep s <;> rfl
  snapshots s := by
    rw [snapshotsOf_retain, h.snapshots_removed, hr.snapshots, hgone]
    cases keep s <;> rfl

/-- Nothing is left of any stream. -/
theorem none_left (hlog : l.log = []) (hsnapshots : l.snapshots = [])
    (h : Past) : l.Recounts (h ++ [.removed fun _ => true]) where
  commits s := by
    rw [h.commits_removed, ofStream, hlog]
    rfl
  snapshots s := by
    rw [h.snapshots_removed, snapshotsOf, hsnapshots]
    rfl

/-- The head of a stream is the head revision and the greatest snapshot that the past tells. -/
theorem find?_heads (hr : l.Recounts h) (hk : l.Kept) (s : StreamId) :
    l.heads.find? s
      = (h.head? s).map fun head => ⟨s, head, greatestRevision (h.snapshots s)⟩ := by
  rw [hk.heads, headFrom, hr.commits, hr.snapshots, Past.head?, Option.map_map]
  rfl

/-- A stream has as many events as its head revision says. -/
theorem length_eventsOf (hr : l.Recounts h) (hk : l.Kept) (s : StreamId) :
    (eventsOf (l.ofStream s)).length = (h.head? s).getD 0 := by
  rw [Past.head?, ← hr.commits]
  cases hl : (l.ofStream s).getLast? with
  | none => rw [List.getLast?_eq_none_iff.1 hl]; rfl
  | some c => rw [Option.map_some, Option.getD_some, ((hk.history s).getLast hl).2.2, Nat.zero_add]

theorem addSnapshot_iff (hr : l.Recounts h) (hk : l.Kept) (t : Snapshot) :
    (l.addSnapshot t).1 = true ↔ h.Takes t := by
  have htakes : h.Takes t ↔ 1 ≤ t.revision ∧
      t.revision ≤ (eventsOf (l.ofStream t.stream)).length ∧
      ∀ u ∈ l.snapshotsOf t.stream, u.revision ≠ t.revision := by
    rw [hr.length_eventsOf hk, hr.snapshots, Past.Takes]
    cases h.head? t.stream with
    | none => simp; omega
    | some head => simp
  obtain ⟨hnot, he⟩ | ⟨htaken, he⟩ := hk.addSnapshot_cases t <;> rw [he, htakes]
  · exact iff_of_false Bool.false_ne_true hnot
  · exact iff_of_true rfl htaken

theorem isLatest_snapshot (hr : l.Recounts h) (hk : l.Kept) (s : StreamId) (last : Nat) :
    Snapshot.IsLatest (h.snapshots s) last (l.snapshot s last) := by
  rw [← hr.snapshots, Ledger.snapshot, ← snapshotsOf]
  cases hl : latest ((l.snapshotsOf s).filter (·.revision ≤ last)) with
  | none =>
    intro u hu
    have hnot := List.filter_eq_nil_iff.1 (latest_eq_none_iff.1 hl) u hu
    simpa using hnot
  | some t =>
    obtain ⟨ht, hle⟩ := List.mem_filter.1 (mem_of_latest hl)
    refine ⟨of_decide_eq_true hle, ?_, fun u hu hlast => ?_⟩
    · exact Snapshot.find?_of_mem (hk.snapshots s).1 ht
    · exact le_of_latest hl u (List.mem_filter.2 ⟨hu, decide_eq_true hlast⟩)

theorem isDue_streamsToSnapshot (hr : l.Recounts h) (hk : l.Kept) (hkeyed : l.heads.Keyed)
    (tenant : String) (threshold : Nat) :
    h.IsDue tenant threshold (l.streamsToSnapshot tenant threshold) where
  mem_iff e := by
    rw [mem_streamsToSnapshot, hk.mem_heads_iff hkeyed, hr.find?_heads hk,
      StreamHead.unsnapshotted, Nat.lt_sub_iff_add_lt, Nat.add_comm]
    obtain ⟨s, head, snapshot⟩ := e
    cases h.head? s with
    | none => simp
    | some n =>
      simp only [Option.map_some, Option.some_inj, StreamHead.mk.injEq]
      tauto
  ascending := (hk.pairwise_streamsToSnapshot hkeyed tenant threshold).imp Utf8.ofString_lt

/-- A store that answers as a kept ledger follows the past that the ledger recounts. -/
theorem engine_follows (hr : l.Recounts h) (hk : l.Kept) (hkeyed : l.heads.Keyed) {σ : Type}
    {engine : Engine σ} {asked : Operation → Prop} {state : σ}
    (hadded : ∀ t, asked (.addSnapshot t) →
      (engine (.addSnapshot t) state).1.reply = .ok (l.addSnapshot t).1)
    (hlatest : ∀ s last, asked (.snapshot s last) →
      (engine (.snapshot s last) state).1.reply = .ok (l.snapshot s last))
    (hdue : ∀ tenant threshold, asked (.streamsToSnapshot tenant threshold) →
      (engine (.streamsToSnapshot tenant threshold) state).1.reply
        = (l.streamsToSnapshot tenant threshold).map .ok) :
    engine.Follows asked state h where
  added t ht := ⟨_, hadded t ht, hr.addSnapshot_iff hk t⟩
  latest s last hs := ⟨_, hlatest s last hs, hr.isLatest_snapshot hk s last⟩
  due tenant threshold ht :=
    ⟨_, hdue tenant threshold ht, hr.isDue_streamsToSnapshot hk hkeyed tenant threshold⟩

end Recounts
end Ledger

/-- One operation of a run, with what its answer says has happened. -/
def Engine.tell {σ : Type} (engine : Engine σ) (r : σ × Past) (op : Operation) : σ × Past :=
  ((engine op r.1).2, r.2 ++ (Change.of? op (engine op r.1).1.reply).toList)

namespace Memory

variable {m : Memory} {h : Past}

/-- The store that a run leaves, and what has happened in the run. -/
def past (ops : List Operation) : Memory × Past := ops.foldl engine.tell (empty, [])

theorem past_concat (ops : List Operation) (op : Operation) :
    past (ops ++ [op]) = engine.tell (past ops) op := List.foldl_concat ..

theorem past_fst (ops : List Operation) : (past ops).1 = after ops := by
  induction ops using List.reverseRecOn with
  | nil => rfl
  | append_singleton ops op ih => rw [past_concat, after_concat, ← ih]; rfl

/-- One operation changes the ledger as its answer says. -/
theorem recounts_engine (hk : m.ledger.Kept) (hr : m.ledger.Recounts h) (op : Operation) :
    (engine.tell (m, h) op).1.ledger.Recounts (engine.tell (m, h) op).2 := by
  cases op with
  | commit a =>
    show (Memory.commit a m).2.ledger.Recounts
      (h ++ (Change.of? (.commit a) (Memory.commit a m).1).toList)
    obtain he | ⟨hsame, hanswer⟩ := commit_cases hk a
    · rw [he]
      exact hr.append _
    · have hrefused : ∀ c, (Memory.commit a m).1 ≠ .ok (some c) := by
        intro c
        obtain he | ⟨d, -, -, he⟩ | ⟨e, -, he⟩ := hanswer <;> simp [he]
      rw [hsame, Change.of?_commit_eq_none hrefused, Option.toList_none, List.append_nil]
      exact hr
  | addSnapshot t =>
    show (m.ledger.addSnapshot t).2.Recounts
      (h ++ (Change.of? (.addSnapshot t) (.ok (m.ledger.addSnapshot t).1)).toList)
    obtain ⟨-, he⟩ | ⟨-, he⟩ := hk.addSnapshot_cases t <;> rw [he]
    · exact (List.append_nil h).symm ▸ hr
    · exact hr.record t _
  | read | snapshot | streamsToSnapshot | setUp =>
    show m.ledger.Recounts (h ++ [])
    rwa [List.append_nil]
  | dropStore | purgeAll => exact .none_left rfl rfl h
  | purge tenant =>
    show (m.ledger.retain (·.tenant ≠ tenant)).Recounts (h ++ [.removed (·.tenant = tenant)])
    exact hr.retain fun s => by simp
  | deleteStream s =>
    show (m.ledger.retain (· ≠ s)).Recounts (h ++ [.removed (· = s)])
    exact hr.retain fun r => by simp

/-- The ledger of every reachable store recounts its run. -/
theorem recounts_past (ops : List Operation) :
    (past ops).1.ledger.Recounts (past ops).2 := by
  induction ops using List.reverseRecOn with
  | nil => exact .empty
  | append_singleton ops op ih =>
    rw [past_concat]
    refine recounts_engine ?_ ih op
    rw [past_fst]
    exact (sound_after ops).kept

end Memory

namespace Operation

/-- The snapshot that is given, if one is, has canonical data. -/
def Canonical : Operation → Prop
  | .addSnapshot t => t.payload.data.Canonical
  | _ => True

instance : DecidablePred Canonical
  | .addSnapshot t => inferInstanceAs (Decidable t.payload.data.Canonical)
  | .commit _ | .read _ | .snapshot .. | .streamsToSnapshot .. | .setUp | .dropStore | .purge _
  | .purgeAll | .deleteStream _ => .isTrue trivial

theorem Canonical.writable {t : Snapshot} (h : Canonical (.addSnapshot t))
    (hwords : InWords (.addSnapshot t)) : t.Writable :=
  ⟨hwords, Payload.canonical_write h⟩

/-- The snapshot that is given, if one is, can be read back. -/
def Readable : Operation → Prop
  | .addSnapshot t => t.Readable
  | _ => True

instance : DecidablePred Readable
  | .addSnapshot t => inferInstanceAs (Decidable t.Readable)
  | .commit _ | .read _ | .snapshot .. | .streamsToSnapshot .. | .setUp | .dropStore | .purge _
  | .purgeAll | .deleteStream _ => .isTrue trivial

end Operation

namespace Tables

variable {t t' : Tables} {l : Ledger} {h : Past}

/-- Tables record a kept ledger of words, whose snapshots were written under names that can stand in
a statement, and the ledger recounts a past. -/
structure Recounts (t : Tables) (l : Ledger) (h : Past) : Prop where
  kept : l.Kept
  nonneg : 0 ≤ l.lastCheckpoint
  records : t.Records l
  words : ∀ c ∈ l.log, c.sequence ≤ maxRevision ∧ c.revision ≤ maxRevision
  written : ∀ s, ∀ u ∈ l.snapshotsOf s, s.quotable = true ∧ u.Writable
  recounts : l.Recounts h

namespace Recounts

theorem empty : Recounts {} {} [] where
  kept := .empty
  nonneg := Int.le_refl 0
  records := .empty
  words _ hc := absurd hc List.not_mem_nil
  written _ _ hu := absurd hu List.not_mem_nil
  recounts := .empty

theorem words_ofStream (ht : t.Recounts l h) (s : StreamId) :
    ∀ c ∈ l.ofStream s, c.sequence ≤ maxRevision ∧ c.revision ≤ maxRevision :=
  fun c hc => ht.words c (Ledger.mem_ofStream.1 hc).1

theorem append (ht : t.Recounts l h) (layout : Layout) {a : Attempt} {c : Commit}
    (hwords : (Operation.commit a).InWords) (hne : a.events ≠ [])
    (happend : t.append layout a = .ok (c, t')) :
    t'.Recounts (l.append c) (h ++ [.committed c]) := by
  obtain ⟨hp, hinsert⟩ := passes_of_append happend
  obtain ⟨hid, hseq, -⟩ := ht.records.of_passes ht.kept hp
  rw [ht.records.insert_eq ht.kept layout hid hseq] at hinsert
  split at hinsert
  · cases hinsert
  cases hinsert
  exact
    { kept := ht.records.append_kept ht.kept ht.nonneg hne hp
      nonneg := by
        show 0 ≤ t.nextRow
        rw [ht.records.nextRow_eq ht.kept ht.nonneg]
        exact Int.le_add_one ht.nonneg
      records := ht.records.append layout _
      words := fun d hd => by
        rcases List.mem_append.1 hd with hd | hd
        · exact ht.words d hd
        · rw [List.mem_singleton.1 hd]
          exact ⟨hwords.2, hwords.1⟩
      written := ht.written
      recounts := ht.recounts.append _ }

/-- A snapshot is answered as by the ledger. -/
theorem added (ht : t.Recounts l h) (layout : Layout) {u : Snapshot}
    (hname : u.stream.quotable = true) :
    (t.addSnapshot layout u).1 = .ok (l.addSnapshot u).1 := by
  obtain ⟨hrows, hl⟩ | ⟨head, n, hf, hrows, hl⟩ :=
    ht.records.addSnapshot_cases ht.kept layout hname (ht.words_ofStream u.stream) <;>
    rw [hrows, hl]

/-- A snapshot is turned away and leaves the tables as they are, or it is recorded. -/
theorem addSnapshot (ht : t.Recounts l h) (layout : Layout) {u : Snapshot} (hu : u.Writable) :
    ∃ l', (t.addSnapshot layout u).2.Recounts l'
      (h ++ (Change.of? (.addSnapshot u) (t.addSnapshot layout u).1).toList) := by
  cases hname : u.stream.quotable with
  | false =>
    rw [Tables.addSnapshot, if_neg (by simp [hname])]
    exact ⟨l, (List.append_nil h).symm ▸ ht⟩
  | true =>
  have hkept := ht.kept.addSnapshot u
  obtain ⟨hrows, hl⟩ | ⟨head, n, hf, hrows, hl⟩ :=
    ht.records.addSnapshot_cases ht.kept layout hname (ht.words_ofStream u.stream) <;>
    rw [hl] at hkept <;> rw [hrows]
  · exact ⟨l, (List.append_nil h).symm ▸ ht⟩
  refine ⟨_, hkept, ht.nonneg, ht.records.record layout hf n, ht.words, fun s v hv => ?_,
    ht.recounts.record u _⟩
  rw [Ledger.snapshotsOf_insert] at hv
  rcases List.mem_append.1 hv with hv | hv
  · exact ht.written s v hv
  · split at hv
    · rename_i hs
      rw [List.mem_singleton.1 hv]
      exact ⟨hs ▸ hname, hu⟩
    · exact absurd hv List.not_mem_nil

theorem retain (ht : t.Recounts l h) {keep gone : StreamId → Bool} (hgone : ∀ s, gone s = !keep s)
    (hrecords : t'.Records (l.retain keep)) :
    t'.Recounts (l.retain keep) (h ++ [.removed gone]) where
  kept := ht.kept.retain keep
  nonneg := ht.nonneg
  records := hrecords
  words c hc := ht.words c (List.mem_of_mem_filter hc)
  written s u hu := by
    rw [Ledger.snapshotsOf_retain] at hu
    split at hu
    · exact ht.written s u hu
    · exact absurd hu List.not_mem_nil
  recounts := ht.recounts.retain hgone

theorem clear (ht : t.Recounts l h) :
    t.clear.Recounts l.clear (h ++ [.removed fun _ => true]) where
  kept := .clear l
  nonneg := ht.nonneg
  records := ht.records.clear
  words _ hc := absurd hc List.not_mem_nil
  written _ _ hu := absurd hu List.not_mem_nil
  recounts := .none_left rfl rfl h

/-- Tables that recount a past follow it if and only if its snapshots can be read back. -/
theorem engine_follows_iff (ht : t.Recounts l h) (o : TableOptions) :
    (Database.engine o).Follows (·.quotable = true) (some t) h ↔
      ∀ s, ∀ u ∈ h.snapshots s, u.Readable := by
  constructor
  · -- a snapshot is asked for at its own revision, where it is the latest
    intro hfollows s u hu
    have hlatest : Snapshot.IsLatest (h.snapshots s) u.revision (some u) :=
      .self (ht.recounts.snapshots s ▸ (ht.kept.snapshots s).1) hu
    obtain ⟨hname, hu⟩ := ht.written s u (ht.recounts.snapshots s ▸ hu)
    have hledger : l.snapshot s u.revision = some u :=
      (ht.recounts.isLatest_snapshot ht.kept s u.revision).unique hlatest
    obtain ⟨found, hfound, hfollowed⟩ := hfollows.latest s u.revision hname
    obtain rfl := hfollowed.unique hlatest
    obtain ⟨hl, -⟩ | ⟨layout, v, -, -, hl, hread⟩ :=
      ht.records.snapshot_cases ht.kept hname u.revision
    · exact absurd (hledger.symm.trans hl) (Option.some_ne_none u)
    · obtain rfl : u = v := Option.some.inj (hledger.symm.trans hl)
      obtain ⟨hgood, -⟩ | ⟨-, hbad⟩ := SnapshotRow.decode_cases layout hu
      · exact hgood
      · cases hdecode : (SnapshotRow.ofSnapshot layout u).decode u.stream with
        | error e =>
          rw [hdecode] at hread
          cases hread.symm.trans hfound
        | ok w =>
          rw [hdecode] at hread
          obtain rfl := Option.some.inj (Except.ok.inj (hread.symm.trans hfound))
          exact absurd hdecode hbad
  · intro hreadable
    refine ht.recounts.engine_follows ht.kept ht.records.keyed (fun u hname => ?_)
      (fun s last hname => ?_) fun tenant threshold hname => ?_
    · exact ht.added o.layout hname
    · refine ht.records.snapshot_eq ht.kept hname (fun u hu => ?_) last
      obtain ⟨-, hwritable⟩ := ht.written s u hu
      exact ⟨hwritable.revision_le, hwritable.payload,
        hreadable s u (ht.recounts.snapshots s ▸ hu)⟩
    · exact ht.records.streamsToSnapshot_eq ht.kept ht.words_ofStream hname threshold

end Recounts
end Tables

namespace Database

variable {t : Tables} {l : Ledger} {h : Past} {op : Operation}

/-- The database that a run leaves whose tables are set up, and what has happened in the run. The
operations may come through stores of different options. -/
def past (run : List (TableOptions × Operation)) : Database × Past :=
  run.foldl (fun r e => (engine e.1).tell r e.2) (some {}, [])

theorem past_concat (run : List (TableOptions × Operation)) (e : TableOptions × Operation) :
    past (run ++ [e]) = (engine e.1).tell (past run) e.2 := List.foldl_concat ..

/-- One operation changes the tables as its answer says. -/
theorem recounts_engine (ht : t.Recounts l h) (o : TableOptions) (hdrop : op ≠ .dropStore)
    (hwords : op.InWords) (hcanonical : op.Canonical) :
    ∃ t' l', ((engine o).tell (some t, h) op).1 = some t' ∧
      t'.Recounts l' ((engine o).tell (some t, h) op).2 := by
  cases op with
  | commit a =>
    show ∃ t' l', (Database.commit o a (some t)).2 = some t' ∧
      t'.Recounts l' (h ++ (Change.of? (.commit a) (Database.commit o a (some t)).1).toList)
    obtain ⟨hrefused, hsame⟩ | ⟨u, c, t', hu, hne, -, happend, he⟩ := commit_cases o a (some t)
    · rw [Change.of?_commit_eq_none hrefused, Option.toList_none, List.append_nil]
      exact ⟨t, l, hsame, ht⟩
    · cases hu
      rw [he]
      exact ⟨t', _, rfl, ht.append o.layout hwords hne happend⟩
  | addSnapshot u =>
    obtain ⟨l', ht'⟩ := ht.addSnapshot o.layout (hcanonical.writable hwords)
    exact ⟨_, l', rfl, ht'⟩
  | read | snapshot | streamsToSnapshot | setUp =>
    refine ⟨t, l, rfl, ?_⟩
    show t.Recounts l (h ++ [])
    rwa [List.append_nil]
  | dropStore => exact absurd rfl hdrop
  | purge tenant =>
    simp only [Engine.tell, engine]
    obtain he | he := update_cases (quotable tenant) (.dropTenant tenant) t <;> rw [he]
    · exact ⟨_, _, rfl, (List.append_nil h).symm ▸ ht⟩
    · exact ⟨_, _, rfl, ht.retain (fun s => by simp) (ht.records.dropTenant tenant)⟩
  | purgeAll => exact ⟨_, _, rfl, ht.clear⟩
  | deleteStream s =>
    simp only [Engine.tell, engine]
    obtain he | he := update_cases s.quotable (.dropStream s) t <;> rw [he]
    · exact ⟨_, _, rfl, (List.append_nil h).symm ▸ ht⟩
    · exact ⟨_, _, rfl, ht.retain (fun r => by simp) (ht.records.dropStream s)⟩

/-- The tables that a run leaves recount it. -/
theorem recounts_past {run : List (TableOptions × Operation)}
    (hrun : ∀ e ∈ run, e.2 ≠ .dropStore ∧ e.2.InWords ∧ e.2.Canonical) :
    ∃ t l, (past run).1 = some t ∧ t.Recounts l (past run).2 := by
  induction run using List.reverseRecOn with
  | nil => exact ⟨{}, {}, rfl, .empty⟩
  | append_singleton run e ih =>
    obtain ⟨t, l, hdb, ht⟩ := ih fun d hd => hrun d (List.mem_append_left _ hd)
    obtain ⟨hdrop, hwords, hcanonical⟩ := hrun e (by simp)
    rw [past_concat, ← Prod.mk.eta (p := past run), hdb]
    exact recounts_engine ht e.1 hdrop hwords hcanonical

/-- What was recorded in a run was given in it. -/
theorem addSnapshot_mem_of_recorded {run : List (TableOptions × Operation)} {u : Snapshot}
    (hu : Change.recorded u ∈ (past run).2) : ∃ e ∈ run, e.2 = .addSnapshot u := by
  induction run using List.reverseRecOn with
  | nil => exact absurd hu List.not_mem_nil
  | append_singleton run e ih =>
    rw [past_concat] at hu
    rcases List.mem_append.1 hu with hu | hu
    · obtain ⟨d, hd, hgiven⟩ := ih hu
      exact ⟨d, List.mem_append_left _ hd, hgiven⟩
    · exact ⟨e, by simp, Change.eq_addSnapshot_of_recorded (Option.mem_toList.1 hu)⟩

/-- All snapshots can be read back if those that are given can. -/
theorem readable_past {run : List (TableOptions × Operation)} (hrun : ∀ e ∈ run, e.2.Readable)
    (s : StreamId) : ∀ u ∈ (past run).2.snapshots s, u.Readable := by
  intro u hu
  obtain ⟨⟨o, op⟩, he, rfl⟩ :=
    addSnapshot_mem_of_recorded (Past.recorded_mem_of_mem_snapshots hu)
  exact hrun _ he

/-- A statement that cannot be written is refused, whatever the database holds. -/
theorem refuses (o : TableOptions) (db : Database) :
    (engine o).Refuses (·.quotable = true) db where
  added u hname := by
    cases db with
    | none => rfl
    | some t =>
      have hname : ¬ u.stream.quotable = true := hname
      show (t.addSnapshot o.layout u).1 = _
      rw [Tables.addSnapshot, if_neg hname]
  latest s last hname := by
    cases db with
    | none => rfl
    | some t => exact if_neg hname
  due tenant threshold hname := by
    cases db with
    | none => rfl
    | some t => exact if_neg hname

end Database

/-- **Snapshots follow their history.**  After any run of the store in memory, all answers about
snapshots are those that the accepted calls tell: a snapshot is added just if its stream has its
revision and was given no snapshot there since the stream was last removed; the latest one up to a
revision is the greatest of those given since, as it was first given; and the streams listed are
just those that are more than the threshold ahead of their greatest snapshot, once each and in the
order of the bytes of their names. After any run of the store in tables that are not dropped, the
same holds if and only if no snapshot that was given since has data that is too deep or has an
object that begins with `Json.rawKey`; but the tables answer only to names that can stand in a
statement, and refuse all others. -/
theorem snapshots_follow_history (ops : List Operation) {run : List (TableOptions × Operation)}
    (hrun : ∀ e ∈ run, e.2 ≠ .dropStore ∧ e.2.InWords ∧ e.2.Canonical) (o : TableOptions) :
    Memory.engine.Follows (fun _ => True) (Memory.past ops).1 (Memory.past ops).2 ∧
      ((Database.engine o).Follows (·.quotable = true) (Database.past run).1
          (Database.past run).2 ↔
        ∀ s, ∀ u ∈ (Database.past run).2.snapshots s, u.Readable) ∧
      (Database.engine o).Refuses (·.quotable = true) (Database.past run).1 := by
  refine ⟨?_, ?_, Database.refuses o _⟩
  · have hledger := Memory.recounts_past ops
    rw [Memory.past_fst] at hledger ⊢
    exact hledger.engine_follows (Memory.sound_after ops).kept (Memory.filed_after ops).heads
      (fun _ _ => rfl) (fun _ _ _ => rfl) fun _ _ _ => rfl
  · obtain ⟨t, l, hdb, ht⟩ := Database.recounts_past hrun
    rw [hdb]
    exact ht.engine_follows_iff o

/-- Two streams. The first one gets snapshots of its last and its first revision, the latter as deep
as can be read back, and is refused one at a revision that has one and one that is too late. The
second one gets a snapshot, is deleted, and gets another one at the same revision when it has been
written again. -/
def snapshotRun : List (TableOptions × Operation) :=
  [(⟨1, .indented⟩, .commit (Memory.sampleAttempt "a" 1 3 3 1)),
    (⟨1, .indented⟩, .addSnapshot ⟨⟨"tenant", "a"⟩, 3, ⟨"state", .int 3⟩⟩),
    (⟨128, .compact⟩, .addSnapshot ⟨⟨"tenant", "a"⟩, 1, ⟨"state", Database.nested 126⟩⟩),
    (⟨128, .compact⟩, .addSnapshot ⟨⟨"tenant", "a"⟩, 3, ⟨"state", .int 4⟩⟩),
    (⟨128, .compact⟩, .addSnapshot ⟨⟨"tenant", "a"⟩, 4, ⟨"state", .int 4⟩⟩),
    (⟨1, .indented⟩, .commit (Memory.sampleAttempt "b" 1 2 2 2)),
    (⟨1, .indented⟩, .addSnapshot ⟨⟨"tenant", "b"⟩, 1, ⟨"state", .int 1⟩⟩),
    (⟨128, .compact⟩, .deleteStream ⟨"tenant", "b"⟩),
    (⟨128, .compact⟩, .commit (Memory.sampleAttempt "b" 1 2 2 2)),
    (⟨128, .compact⟩, .addSnapshot ⟨⟨"tenant", "b"⟩, 1, ⟨"state", .null⟩⟩)]

theorem snapshots_follow_history_snapshotRun :
    (∀ e ∈ snapshotRun, e.2 ≠ .dropStore ∧ e.2.InWords ∧ e.2.Canonical) ∧
      Memory.engine.Follows (fun _ => True) (Memory.past (snapshotRun.map (·.2))).1
        (Memory.past (snapshotRun.map (·.2))).2 ∧
      (Database.engine {}).Follows (·.quotable = true) (Database.past snapshotRun).1
        (Database.past snapshotRun).2 ∧
      (Database.past snapshotRun).2.head? ⟨"tenant", "a"⟩ = some 3 ∧
      (Database.past snapshotRun).2.snapshots ⟨"tenant", "a"⟩
        = [⟨⟨"tenant", "a"⟩, 3, ⟨"state", .int 3⟩⟩,
          ⟨⟨"tenant", "a"⟩, 1, ⟨"state", Database.nested 126⟩⟩] ∧
      (Database.past snapshotRun).2.head? ⟨"tenant", "b"⟩ = some 2 ∧
      (Database.past snapshotRun).2.snapshots ⟨"tenant", "b"⟩
        = [⟨⟨"tenant", "b"⟩, 1, ⟨"state", .null⟩⟩] := by
  have hrun : ∀ e ∈ snapshotRun, e.2 ≠ .dropStore ∧ e.2.InWords ∧ e.2.Canonical := by
    decide +kernel
  have hreadable : ∀ e ∈ snapshotRun, e.2.Readable := by decide +kernel
  obtain ⟨hmemory, htables, -⟩ := snapshots_follow_history (snapshotRun.map (·.2)) hrun {}
  exact ⟨hrun, hmemory, htables.2 (Database.readable_past hreadable), by decide +kernel,
    by decide +kernel, by decide +kernel, by decide +kernel⟩

/-- A snapshot whose data is an object with `Json.rawKey` as its only key. -/
def rawSnapshot : Snapshot :=
  ⟨⟨"tenant", "a"⟩, 1, ⟨"state", .raw "1"⟩⟩

def rawRun : List (TableOptions × Operation) :=
  [({}, .commit (Memory.sampleAttempt "a" 1 1 1 1)), ({}, .addSnapshot rawSnapshot)]

/-- The only snapshot that was accepted is answered with the number that its string spells, and a
snapshot under a name that cannot stand in a statement with an error. -/
theorem snapshots_not_followed :
    (∀ e ∈ rawRun, e.2 ≠ .dropStore ∧ e.2.InWords ∧ e.2.Canonical) ∧
      rawSnapshot.payload.data.depth ≤ 126 ∧
      (Database.past rawRun).2.snapshots ⟨"tenant", "a"⟩ = [rawSnapshot] ∧
      (Database.engine {} (.snapshot ⟨"tenant", "a"⟩ 1) (Database.past rawRun).1).1.reply
        = .ok (some { rawSnapshot with payload := ⟨"state", .int 1⟩ }) ∧
      ¬ (Database.engine {}).Follows (fun _ => True) (Database.past rawRun).1
        (Database.past rawRun).2 ∧
      (Database.engine {} (.addSnapshot ⟨⟨"\x00", "a"⟩, 1, ⟨"state", .null⟩⟩) (some {})).1.reply
        = .error .database ∧
      ¬ (Database.engine {}).Follows (fun _ => True) (some {}) [] := by
  have hgiven : (Database.past rawRun).2.snapshots ⟨"tenant", "a"⟩ = [rawSnapshot] := by
    decide +kernel
  have hmap : (Database.past rawRun).1.map (fun t => t.snapshot ⟨"tenant", "a"⟩ 1)
      = some (.ok (some { rawSnapshot with payload := ⟨"state", .int 1⟩ })) := by decide +kernel
  obtain ⟨t, ht, hsnapshot⟩ := Option.map_eq_some_iff.1 hmap
  have hrefused := (Database.refuses {} (some {})).added ⟨⟨"\x00", "a"⟩, 1, ⟨"state", .null⟩⟩
    (by decide)
  rw [ht]
  refine ⟨by decide +kernel, by decide, hgiven, hsnapshot, fun hfollows => ?_, hrefused, fun hfollows => ?_⟩
  · obtain ⟨found, hfound, hlatest⟩ := hfollows.latest ⟨"tenant", "a"⟩ 1 trivial
    obtain rfl := Except.ok.inj (hsnapshot.symm.trans hfound)
    rw [hgiven] at hlatest
    exact absurd hlatest.2.1 (by decide +kernel)
  · obtain ⟨b, hb, -⟩ := hfollows.added ⟨⟨"\x00", "a"⟩, 1, ⟨"state", .null⟩⟩ trivial
    exact nomatch hrefused.symm.trans hb

end EventSourcing
