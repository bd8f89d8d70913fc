import EventSourcing.Proofs.Memory

/-!
# What is derived from the log

Beside its log a ledger keeps the positions, the head and the snapshots of each stream, in maps that
every operation changes on its own. `Ledger.Derives l s` says that for a stream these are what the
log and the snapshots say: the positions are the places of its commits, each once and ascending, so
that looking them up neither leaves the log nor meets a commit of another stream; the head tells the
revision of the last commit and of the greatest snapshot, and is there just for a stream with
commits; the snapshots stand at different revisions that the stream has.

`Ledger.Kept` has most of this. It reads a map through its look-up, though, where a stream without
an entry and one with an empty entry are the same; `Ledger.Filed` keeps them apart. Together they
hold of every reachable store (`Memory.derives_after`).
-/

namespace EventSourcing

section Places

variable {s : StreamId} {cs : List Commit} {i : Nat}

theorem places_concat (s : StreamId) (cs : List Commit) (c : Commit) : places s 0 (cs ++ [c])
    = places s 0 cs ++ if c.stream = s then [cs.length] else [] := by
  rw [places_append, Nat.zero_add]
  rfl

/-- The places of a stream are the positions at which the log has a commit of it. -/
theorem mem_places : i ∈ places s 0 cs ↔ ∃ c, cs[i]? = some c ∧ c.stream = s := by
  induction cs using List.reverseRecOn with
  | nil => simp [places]
  | append_singleton cs c ih =>
    have hnew : (i ∈ if c.stream = s then [cs.length] else []) ↔ i = cs.length ∧ c.stream = s := by
      split <;> simp [*]
    rw [places_concat, List.mem_append, ih, hnew]
    rcases Nat.lt_trichotomy i cs.length with hlt | rfl | hgt
    · rw [List.getElem?_append_left hlt]
      simp [Nat.ne_of_lt hlt]
    · simp
    · rw [List.getElem?_eq_none (Nat.le_of_lt hgt), List.getElem?_eq_none (by simp; omega)]
      simp [Nat.ne_of_gt hgt]

/-- The places of a stream ascend. -/
theorem pairwise_places (s : StreamId) (cs : List Commit) : (places s 0 cs).Pairwise (· < ·) := by
  induction cs using List.reverseRecOn with
  | nil => exact .nil
  | append_singleton cs c ih =>
    rw [places_concat]
    refine List.pairwise_append.2 ⟨ih, by split <;> simp, fun i hi j hj => ?_⟩
    obtain ⟨d, hd, -⟩ := mem_places.1 hi
    have hlt : i < cs.length := (List.getElem?_eq_some_iff.1 hd).1
    split at hj
    · rwa [List.mem_singleton.1 hj]
    · exact absurd hj List.not_mem_nil

end Places

namespace Ledger

variable {l : Ledger} {c : Commit} {t : Snapshot} {s : StreamId}

/-- Each map of a ledger has one entry for a stream, and none without content. -/
structure Filed (l : Ledger) : Prop where
  positions : l.positions.Keyed
  snapshots : l.snapshots.Keyed
  heads : l.heads.Keyed
  positions_ne_nil : ∀ e ∈ l.positions, e.2 ≠ []
  snapshots_ne_nil : ∀ e ∈ l.snapshots, e.2 ≠ []

namespace Filed

theorem empty : Filed {} where
  positions := List.nodup_nil
  snapshots := List.nodup_nil
  heads := List.nodup_nil
  positions_ne_nil _ h := absurd h List.not_mem_nil
  snapshots_ne_nil _ h := absurd h List.not_mem_nil

theorem append (h : l.Filed) (c : Commit) : (l.append c).Filed where
  positions := h.positions.insert
  snapshots := h.snapshots
  heads := h.heads.insert
  positions_ne_nil := StreamMap.forall_mem_insert h.positions_ne_nil (List.concat_ne_nil _ _)
  snapshots_ne_nil := h.snapshots_ne_nil

theorem withSnapshot (h : l.Filed) (t : Snapshot) : (l.withSnapshot t).Filed where
  positions := h.positions
  snapshots := h.snapshots.insert
  heads := h.heads.insert
  positions_ne_nil := h.positions_ne_nil
  snapshots_ne_nil := StreamMap.forall_mem_insert h.snapshots_ne_nil (List.concat_ne_nil _ _)

/-- An index that is built from a log has one entry for a stream, and none without a position. -/
theorem positionsFrom (start : Nat) {acc : StreamMap (List Nat)} (hkeyed : acc.Keyed)
    (hne : ∀ e ∈ acc, e.2 ≠ []) (cs : List Commit) :
    (Ledger.positionsFrom start acc cs).Keyed ∧
      ∀ e ∈ Ledger.positionsFrom start acc cs, e.2 ≠ [] := by
  induction cs generalizing start acc with
  | nil => exact ⟨hkeyed, hne⟩
  | cons c cs ih =>
    exact ih (start + 1) hkeyed.insert (StreamMap.forall_mem_insert hne (List.concat_ne_nil _ _))

theorem retain (h : l.Filed) (keep : StreamId → Bool) : (l.retain keep).Filed := by
  have hnil : StreamMap.Keyed ([] : StreamMap (List Nat)) := List.nodup_nil
  obtain ⟨hkeyed, hne⟩ := positionsFrom 0 hnil (fun _ he => absurd he List.not_mem_nil)
    (l.retain keep).log
  exact
    { positions := hkeyed
      snapshots := h.snapshots.keep keep
      heads := h.heads.keep keep
      positions_ne_nil := hne
      snapshots_ne_nil := fun e he => h.snapshots_ne_nil e (List.mem_of_mem_filter he) }

end Filed

/-- What is derived for a stream is what its commits in the log and its snapshots say. -/
structure Derives (l : Ledger) (s : StreamId) : Prop where
  positions : ∃ ps, l.positions.find? s = (if ps = [] then none else some ps) ∧
    ps.Pairwise (· < ·) ∧ ∀ i, i ∈ ps ↔ ∃ c, l.log[i]? = some c ∧ c.stream = s
  head : l.heads.find? s = (l.ofStream s).getLast?.map fun c =>
    ⟨s, c.revision, greatestRevision (l.snapshotsOf s)⟩
  revisions : ((l.snapshotsOf s).map (·.revision)).Nodup
  snapshots : ∀ t ∈ l.snapshotsOf s, t.stream = s ∧ 1 ≤ t.revision ∧
    ∃ head ∈ l.heads.find? s, t.revision ≤ head.head

theorem Kept.derives (h : l.Kept) (hf : l.Filed) (s : StreamId) : l.Derives s where
  positions := by
    refine ⟨places s 0 l.log, ?_, pairwise_places s l.log, fun i => mem_places⟩
    rw [← h.positions s]
    cases hps : l.positions.find? s with
    | none => rfl
    | some ps =>
      have hmem := StreamMap.mem_of_find? hps
      exact (if_neg (hf.positions_ne_nil _ hmem)).symm
  head := h.heads s
  revisions := (h.snapshots s).1
  snapshots t ht := by
    obtain ⟨hs, h1, hle⟩ := (h.snapshots s).2 t ht
    refine ⟨hs, h1, ?_⟩
    cases hl : (l.ofStream s).getLast? with
    | none =>
      rw [List.getLast?_eq_none_iff.1 hl, eventsOf_nil, List.length_nil] at hle
      omega
    | some c =>
      rw [h.heads, headFrom, hl]
      refine ⟨_, rfl, ?_⟩
      have := ((h.history s).getLast hl).2.2
      show t.revision ≤ c.revision
      omega

/-- The head in the entry of a stream names the stream. -/
theorem Kept.named (h : l.Kept) (hkeyed : l.heads.Keyed) : ∀ e ∈ l.heads, e.2.stream = e.1 :=
  fun _ he => by rw [(h.head_of_find? (StreamMap.find?_of_mem hkeyed he)).1]

/-- A stream in need of a snapshot has commits, and its head tells no more revisions than they
have. -/
theorem Kept.exists_of_mem_streamsToSnapshot (h : l.Kept) (hf : l.Filed) {tenant : String}
    {threshold : Nat} {head : StreamHead} (hh : head ∈ l.streamsToSnapshot tenant threshold) :
    ∃ c ∈ l.log, c.stream = head.stream ∧ head.head = c.revision ∧ head.snapshot ≤ c.revision := by
  obtain ⟨⟨s, u⟩, he, rfl⟩ :=
    List.mem_map.1 (List.mem_of_mem_filter (List.mem_mergeSort.1 hh))
  have hd := h.derives hf s
  have hfind : l.heads.find? s = some u := StreamMap.find?_of_mem hf.heads he
  have hhead := hd.head
  rw [hfind] at hhead
  obtain ⟨c, hc, rfl⟩ := Option.map_eq_some_iff.1 hhead.symm
  obtain ⟨hmem, hs⟩ := mem_ofStream.1 (List.mem_of_getLast? hc)
  refine ⟨c, hmem, hs, rfl, greatestRevision_le fun t ht => ?_⟩
  obtain ⟨-, -, u, hu, hle⟩ := hd.snapshots t ht
  obtain rfl := Option.some.inj (hfind.symm.trans hu)
  exact hle

end Ledger

namespace Memory

variable {m : Memory} {ts : List Int}

/-- Every operation keeps the maps filed. -/
theorem Sound.filed_step (h : Sound m ts) (hf : m.ledger.Filed) (op : Operation) :
    (engine op m).2.ledger.Filed := by
  cases op with
  | commit a =>
    show (Memory.commit a m).2.ledger.Filed
    obtain he | ⟨he, -⟩ := commit_cases h.kept a <;> rw [he]
    · exact hf.append _
    · exact hf
  | addSnapshot t =>
    show (m.ledger.addSnapshot t).2.Filed
    obtain ⟨-, he⟩ | ⟨-, he⟩ := h.kept.addSnapshot_cases t <;> rw [he]
    · exact hf
    · exact hf.withSnapshot t
  | read | snapshot | streamsToSnapshot | setUp => exact hf
  | dropStore | purgeAll => exact { Ledger.Filed.empty with }
  | purge tenant => exact hf.retain fun s => s.tenant ≠ tenant
  | deleteStream s => exact hf.retain fun r => r ≠ s

theorem filed_after (ops : List Operation) : (after ops).ledger.Filed := by
  induction ops using List.reverseRecOn with
  | nil => exact .empty
  | append_singleton ops op ih =>
    rw [after_concat]
    exact (sound_after ops).filed_step ih op

/-- **What is derived always matches the log.**  After any run, whatever was committed, recorded,
deleted or dropped in it, each map has one entry for a stream, and what it derives for a stream is
what the stream's commits in the log and its snapshots say. -/
theorem derives_after (ops : List Operation) :
    ((after ops).ledger.positions.Keyed ∧ (after ops).ledger.snapshots.Keyed ∧
      (after ops).ledger.heads.Keyed) ∧
    ∀ s, (after ops).ledger.Derives s :=
  have hf := filed_after ops
  ⟨⟨hf.positions, hf.snapshots, hf.heads⟩, (sound_after ops).kept.derives hf⟩

/-- After the first stream was deleted and written again, the second one is found at the position
that it has now. -/
example : (after sampleRun).ledger.positions
    = [(⟨"tenant", "b"⟩, [0]), (⟨"tenant", "a"⟩, [1])] := by
  decide +kernel

end Memory
end EventSourcing
