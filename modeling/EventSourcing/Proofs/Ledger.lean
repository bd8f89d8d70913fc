import EventSourcing.Memory
import EventSourcing.Proofs.History

/-!
# What a ledger keeps

A ledger keeps one log and three things beside it. `Ledger.Kept` says how they hang together: the
positions of a stream are exactly the places of its commits in the log, each stream is a history
that begins with its first event, checkpoints ascend up to the last one given out, every stream with
commits has the head that its last commit and its snapshots tell, and snapshots stand at different
revisions that the stream has.

Each change of a ledger keeps all of this: an accepted attempt (`Ledger.Kept.append`), a recorded
snapshot (`Ledger.Kept.addSnapshot`), and dropping whole streams (`Ledger.Kept.retain`). What an
attempt can meet is said once, in `Ledger.Kept.commit_cases`, and nothing later opens
`Ledger.commit` again.
-/

namespace EventSourcing

namespace StreamMap

variable {β : Type} {key k : StreamId} {v : β} {m : StreamMap β}

@[simp] theorem find?_nil : find? key ([] : StreamMap β) = none := rfl

theorem find?_cons (e : StreamId × β) :
    find? key (e :: m) = if key = e.1 then some e.2 else find? key m := by
  rw [find?, List.lookup_cons]
  by_cases h : key = e.1
  · simp [h]
  · rw [beq_false_of_ne h, if_neg h]
    rfl

@[simp] theorem find?_insert_self : find? key (insert key v m) = some v := by
  induction m with
  | nil => simp [insert, find?_cons]
  | cons e m ih =>
    obtain ⟨l, w⟩ := e
    rw [insert]
    split
    · simp [find?_cons]
    · rename_i h
      rw [find?_cons, if_neg (Ne.symm h), ih]

theorem find?_insert_of_ne (h : k ≠ key) : find? k (insert key v m) = find? k m := by
  induction m with
  | nil => simp [insert, find?_cons, h]
  | cons e m ih =>
    obtain ⟨l, w⟩ := e
    rw [insert]
    split
    · rename_i hl
      rw [find?_cons, if_neg h, find?_cons, if_neg (by rw [hl]; exact h)]
    · rw [find?_cons, find?_cons, ih]

theorem find?_keep (p : StreamId → Bool) :
    find? key (keep p m) = if p key then find? key m else none := by
  induction m with
  | nil => simp [keep]
  | cons e m ih =>
    rw [keep, List.filter_cons]
    by_cases hk : key = e.1
    · subst hk
      by_cases hp : p e.1
      · simp [hp, find?_cons]
      · simpa [hp, keep] using ih
    · by_cases hp : p e.1
      · simp only [hp, if_true, find?_cons, if_neg hk]
        exact ih
      · simpa [hp, find?_cons, hk, keep] using ih

/-- What holds of all entries holds of those after an insertion, if it holds of the new one. -/
theorem forall_mem_insert {P : StreamId × β → Prop} (h : ∀ e ∈ m, P e) (hv : P (key, v)) :
    ∀ e ∈ insert key v m, P e := by
  induction m with
  | nil => simpa [insert] using hv
  | cons e m ih =>
    obtain ⟨l, w⟩ := e
    obtain ⟨he, hm⟩ := List.forall_mem_cons.1 h
    rw [insert]
    split
    · exact List.forall_mem_cons.2 ⟨hv, hm⟩
    · exact List.forall_mem_cons.2 ⟨he, ih hm⟩

/-- Each stream has one value. -/
def Keyed (m : StreamMap β) : Prop := (m.map (·.1)).Nodup

theorem find?_of_mem (h : m.Keyed) {e : StreamId × β} (he : e ∈ m) : find? e.1 m = some e.2 := by
  induction m with
  | nil => exact absurd he List.not_mem_nil
  | cons f m ih =>
    obtain ⟨hf, hm⟩ := List.nodup_cons.1 h
    rw [find?_cons]
    rcases List.mem_cons.1 he with rfl | he
    · exact if_pos rfl
    · have hne : e.1 ≠ f.1 := fun heq => hf (List.mem_map.2 ⟨e, he, heq⟩)
      rw [if_neg hne, ih hm he]

theorem mem_of_find? (h : find? key m = some v) : (key, v) ∈ m := by
  induction m with
  | nil => exact nomatch h
  | cons e m ih =>
    rw [find?_cons] at h
    split at h
    · rename_i hk
      cases h
      rw [hk]
      exact List.mem_cons_self ..
    · exact List.mem_cons_of_mem _ (ih h)

theorem Keyed.insert (h : m.Keyed) : (m.insert key v).Keyed := by
  induction m with
  | nil => exact List.nodup_singleton key
  | cons e m ih =>
    obtain ⟨k, w⟩ := e
    obtain ⟨hk, hm⟩ := List.nodup_cons.1 h
    rw [StreamMap.insert]
    split
    · rename_i heq
      subst heq
      exact h
    · rename_i hne
      refine List.nodup_cons.2 ⟨fun hmem => ?_, ih hm⟩
      obtain ⟨e, he, heq⟩ := List.mem_map.1 hmem
      have hall : ∀ e ∈ StreamMap.insert key v m, e.1 ≠ k := forall_mem_insert
        (fun e he heq => hk (List.mem_map.2 ⟨e, he, heq⟩)) (Ne.symm hne)
      exact hall e he heq

theorem Keyed.keep (h : m.Keyed) (p : StreamId → Bool) : (m.keep p).Keyed :=
  h.sublist (List.filter_sublist.map _)

/-- Setting the value of a stream that has one changes that one entry. -/
theorem insert_eq_map (h : m.Keyed) {w : β} (hw : find? key m = some w) :
    m.insert key v = m.map fun e => if e.1 = key then (key, v) else e := by
  induction m with
  | nil => simp at hw
  | cons e m ih =>
    obtain ⟨k, u⟩ := e
    obtain ⟨hk, hm⟩ := List.nodup_cons.1 h
    rw [insert, List.map_cons]
    split
    · rename_i heq
      subst heq
      have hrest : m.map (fun e => if e.1 = k then (k, v) else e) = m :=
        (List.map_congr_left fun e he => if_neg fun heq => hk (List.mem_map.2 ⟨e, he, heq⟩)).trans
          (List.map_id m)
      rw [hrest]
    · rename_i hne
      rw [find?_cons, if_neg (Ne.symm hne)] at hw
      rw [ih hm hw]

end StreamMap

namespace Attempt

/-- The verdict, for a stream whose events are counted: an attempt fits if it claims the next
sequence and the revisions right after the head. -/
theorem verdict_eq_fits_iff (a : Attempt) (s r : Nat) : a.verdict s r = .fits ↔
    a.sequence = s + 1 ∧ a.revision = r + a.events.length ∧ s < maxRevision := by
  unfold verdict previousRevision nextRevision
  split
  · simp only [reduceCtorEq, false_iff]; omega
  · split
    · simp only [reduceCtorEq, false_iff]; omega
    · simp only [true_iff]; omega

/-- An attempt conflicts if its sequence is taken or it starts below the head. -/
theorem verdict_eq_occupied_iff (a : Attempt) (s r : Nat) : a.verdict s r = .occupied ↔
    a.sequence ≤ s ∨ a.revision < r + a.events.length := by
  unfold verdict previousRevision
  split
  · simp only [true_iff]; omega
  · split <;> simp only [reduceCtorEq, false_iff] <;> omega

end Attempt

/-- The places of a stream's commits in a log whose first place is `start`. -/
def places (stream : StreamId) (start : Nat) : List Commit → List Nat
  | [] => []
  | c :: cs =>
    if c.stream = stream then start :: places stream (start + 1) cs
    else places stream (start + 1) cs

theorem places_append (stream : StreamId) (start : Nat) (xs ys : List Commit) :
    places stream start (xs ++ ys)
      = places stream start xs ++ places stream (start + xs.length) ys := by
  induction xs generalizing start with
  | nil => simp [places]
  | cons c xs ih =>
    simp only [List.cons_append, places, ih, List.length_cons,
      show start + (xs.length + 1) = start + 1 + xs.length by omega]
    split <;> rfl

/-- What stands at the places of a stream. -/
theorem filterMap_places (stream : StreamId) (pre cs : List Commit) :
    (places stream pre.length cs).filterMap ((pre ++ cs)[·]?)
      = cs.filter (·.stream = stream) := by
  induction cs generalizing pre with
  | nil => rfl
  | cons c cs ih =>
    have hrest := ih (pre ++ [c])
    rw [List.length_append, List.append_assoc] at hrest
    rw [places]
    by_cases h : c.stream = stream
    · simpa [h, List.filter_cons] using hrest
    · simpa [h, List.filter_cons] using hrest

namespace Ledger

/-- The commits of a stream in the order of the log. -/
def ofStream (l : Ledger) (stream : StreamId) : List Commit := l.log.filter (·.stream = stream)

/-- The snapshots recorded for a stream. -/
def snapshotsOf (l : Ledger) (stream : StreamId) : List Snapshot :=
  (l.snapshots.find? stream).getD []

/-- The greatest revision of some snapshots, zero without any. -/
def greatestRevision (ss : List Snapshot) : Nat := (ss.map (·.revision)).foldl max 0

/-- The head that a stream's commits and snapshots tell. -/
def headFrom (l : Ledger) (stream : StreamId) : Option StreamHead :=
  (l.ofStream stream).getLast?.map fun c =>
    ⟨stream, c.revision, greatestRevision (l.snapshotsOf stream)⟩

/-- How the parts of a ledger hang together. -/
structure Kept (l : Ledger) : Prop where
  positions : ∀ s, (l.positions.find? s).getD [] = places s 0 l.log
  history : ∀ s, Continues 0 0 (l.ofStream s)
  ids : ∀ s, ((l.ofStream s).map (·.id)).Nodup
  ascending : l.log.Pairwise fun c d => c.checkpoint < d.checkpoint
  checkpoints : ∀ c ∈ l.log, 1 ≤ c.checkpoint ∧ c.checkpoint ≤ l.lastCheckpoint
  heads : ∀ s, l.heads.find? s = l.headFrom s
  snapshots : ∀ s, ((l.snapshotsOf s).map (·.revision)).Nodup ∧
    ∀ t ∈ l.snapshotsOf s, t.stream = s ∧ 1 ≤ t.revision ∧
      t.revision ≤ (eventsOf (l.ofStream s)).length

variable {l : Ledger} {a : Attempt} {c : Commit} {s : StreamId}

theorem mem_ofStream : c ∈ l.ofStream s ↔ c ∈ l.log ∧ c.stream = s := by
  simp [ofStream]

@[simp] theorem ofStream_append (l : Ledger) (c : Commit) (s : StreamId) :
    (l.append c).ofStream s = l.ofStream s ++ if c.stream = s then [c] else [] := by
  by_cases h : c.stream = s <;> simp [ofStream, append, h]

@[simp] theorem ofStream_retain (l : Ledger) (keep : StreamId → Bool) (s : StreamId) :
    (l.retain keep).ofStream s = if keep s then l.ofStream s else [] := by
  simp only [ofStream, retain, List.filter_filter]
  split <;> rename_i h
  · refine List.filter_congr fun c _ => ?_
    by_cases hc : c.stream = s <;> simp [hc, h]
  · refine List.filter_eq_nil_iff.2 fun c _ => ?_
    by_cases hc : c.stream = s <;> simp [hc, h]

@[simp] theorem snapshotsOf_retain (l : Ledger) (keep : StreamId → Bool) (s : StreamId) :
    (l.retain keep).snapshotsOf s = if keep s then l.snapshotsOf s else [] := by
  simp only [snapshotsOf, retain, StreamMap.find?_keep]
  split <;> rfl

theorem mem_read {q : Query} : c ∈ l.read q ↔ c ∈ l.log ∧ answers q c = true := by
  cases q with
  | revisions | after => exact List.mem_filter
  | during => exact List.mem_mergeSort.trans List.mem_filter

/-- A read of revisions finds the commits of the stream that have events of the range. -/
theorem read_revisions (l : Ledger) (s : StreamId) (first last : Nat) :
    l.read (.revisions s first last)
      = (l.ofStream s).filter fun c => first ≤ c.revision && c.firstRevision ≤ last := by
  rw [ofStream, List.filter_filter]
  refine List.filter_congr fun c _ => ?_
  rw [answers, Bool.and_assoc, Bool.and_comm]

/-- The ledger with one more snapshot of a stream, of which the stream's head tells. -/
def withSnapshot (l : Ledger) (t : Snapshot) : Ledger :=
  { l with
    snapshots := l.snapshots.insert t.stream (l.snapshotsOf t.stream ++ [t])
    heads := l.heads.insert t.stream ⟨t.stream, (eventsOf (l.ofStream t.stream)).length,
      greatestRevision (l.snapshotsOf t.stream ++ [t])⟩ }

@[simp] theorem ofStream_withSnapshot (l : Ledger) (t : Snapshot) (s : StreamId) :
    (l.withSnapshot t).ofStream s = l.ofStream s := rfl

theorem snapshotsOf_insert (l : Ledger) (t : Snapshot) (heads : StreamMap StreamHead)
    (s : StreamId) : snapshotsOf { l with
      snapshots := l.snapshots.insert t.stream (l.snapshotsOf t.stream ++ [t])
      heads := heads } s = l.snapshotsOf s ++ if t.stream = s then [t] else [] := by
  show ((l.snapshots.insert t.stream _).find? s).getD [] = _
  by_cases hs : t.stream = s
  · subst hs; simp
  · rw [StreamMap.find?_insert_of_ne (Ne.symm hs), if_neg hs, List.append_nil, snapshotsOf]

@[simp] theorem snapshotsOf_withSnapshot (l : Ledger) (t : Snapshot) (s : StreamId) :
    (l.withSnapshot t).snapshotsOf s
      = l.snapshotsOf s ++ if t.stream = s then [t] else [] :=
  l.snapshotsOf_insert t _ s

/-- The positions of a stream in a log, on top of those known before. -/
theorem find?_positionsFrom (start : Nat) (acc : StreamMap (List Nat)) (cs : List Commit)
    (s : StreamId) : ((positionsFrom start acc cs).find? s).getD []
      = (acc.find? s).getD [] ++ places s start cs := by
  induction cs generalizing start acc with
  | nil => simp [positionsFrom, places]
  | cons c cs ih =>
    rw [positionsFrom, ih, places]
    by_cases h : c.stream = s
    · subst h; simp
    · rw [StreamMap.find?_insert_of_ne (Ne.symm h), if_neg h]

@[simp] theorem greatestRevision_concat (ss : List Snapshot) (t : Snapshot) :
    greatestRevision (ss ++ [t]) = max (greatestRevision ss) t.revision := by
  simp [greatestRevision, List.foldl_append]

theorem greatestRevision_le {ss : List Snapshot} {n : Nat} (h : ∀ t ∈ ss, t.revision ≤ n) :
    greatestRevision ss ≤ n := by
  induction ss using List.reverseRecOn with
  | nil => exact Nat.zero_le n
  | append_singleton ss t ih =>
    rw [greatestRevision_concat]
    exact max_le (ih fun u hu => h u (List.mem_append_left _ hu)) (h t (by simp))

theorem mem_of_latest {us : List Snapshot} {u : Snapshot} (h : latest us = some u) :
    u ∈ us := by
  induction us generalizing u with
  | nil => simp [latest] at h
  | cons v us ih =>
    rw [latest] at h
    cases hl : latest us with
    | none =>
      rw [hl] at h
      rw [← Option.some.inj h]
      exact List.mem_cons_self ..
    | some w =>
      rw [hl] at h
      rw [← Option.some.inj h]
      split
      · exact List.mem_cons_self ..
      · exact List.mem_cons_of_mem _ (ih hl)

theorem latest_eq_none_iff {us : List Snapshot} : latest us = none ↔ us = [] := by
  cases us with
  | nil => exact ⟨fun _ => rfl, fun _ => rfl⟩
  | cons u us =>
    rw [latest]
    cases latest us <;> simp

/-- No snapshot is of a greater revision than the latest. -/
theorem le_of_latest {us : List Snapshot} {u : Snapshot} (h : latest us = some u) :
    ∀ v ∈ us, v.revision ≤ u.revision := by
  induction us generalizing u with
  | nil => exact fun _ hv => absurd hv List.not_mem_nil
  | cons w us ih =>
    rw [latest] at h
    cases hl : latest us with
    | none =>
      rw [hl] at h
      rw [latest_eq_none_iff.1 hl, ← Option.some.inj h]
      simp
    | some t =>
      rw [hl] at h
      have hrest := ih hl
      rw [← Option.some.inj h]
      split
      · rename_i hlt
        exact List.forall_mem_cons.2 ⟨Nat.le_refl _, fun v hv => (hrest v hv).trans hlt.le⟩
      · rename_i hle
        exact List.forall_mem_cons.2 ⟨Nat.not_lt.1 hle, hrest⟩

theorem mem_of_snapshot {s : StreamId} {last : Nat} {t : Snapshot}
    (h : l.snapshot s last = some t) : t ∈ l.snapshotsOf s :=
  List.mem_of_mem_filter (mem_of_latest h)

namespace Kept

theorem empty : Kept {} where
  positions _ := rfl
  history _ := trivial
  ids _ := List.nodup_nil
  ascending := .nil
  checkpoints _ h := by simp at h
  heads _ := rfl
  snapshots _ := ⟨List.nodup_nil, fun _ h => by simp [snapshotsOf] at h⟩

/-- The index finds exactly the stream's commits, in the order of the log. -/
theorem streamCommits_eq (h : l.Kept) (s : StreamId) : l.streamCommits s = l.ofStream s := by
  rw [streamCommits, h.positions, ofStream]
  exact filterMap_places s [] l.log

/-- The head of a stream is the number of its commits and the number of its events. -/
theorem headOf_eq (h : l.Kept) (s : StreamId) :
    l.headOf s = ((l.ofStream s).length, (eventsOf (l.ofStream s)).length) := by
  rw [headOf, h.streamCommits_eq]
  cases hc : (l.ofStream s).getLast? with
  | none => simp [List.getLast?_eq_none_iff.1 hc]
  | some c =>
    obtain ⟨-, hs, hr⟩ := (h.history s).getLast hc
    simp [hs, hr]

/-- A head is no greater than the numbers of the commits of its stream. -/
theorem headOf_le (h : l.Kept) {s : StreamId} {n : Nat}
    (hcs : ∀ c ∈ l.ofStream s, c.sequence ≤ n ∧ c.revision ≤ n) :
    (l.headOf s).1 ≤ n ∧ (l.headOf s).2 ≤ n := by
  rw [headOf, h.streamCommits_eq]
  cases hc : (l.ofStream s).getLast? with
  | none => exact ⟨Nat.zero_le _, Nat.zero_le _⟩
  | some c => exact hcs c (List.mem_of_getLast? hc)

/-- An attempt is checked against the commits of its stream, and appended if it fits. -/
theorem commit_eq (h : l.Kept) (a : Attempt) : l.commit a =
    match (l.ofStream a.stream).find? (·.id = a.id) with
    | some existing => (.error (.duplicate existing), l)
    | none =>
      match a.validate (l.ofStream a.stream).length (eventsOf (l.ofStream a.stream)).length with
      | .error e => (.error e, l)
      | .ok () => (.ok (some (a.confirm (l.lastCheckpoint + 1))),
          l.append (a.confirm (l.lastCheckpoint + 1))) := by
  have hhead := h.headOf_eq a.stream
  have hlength : (l.ofStream a.stream).length = (l.headOf a.stream).1 :=
    (congrArg Prod.fst hhead).symm
  have hevents : (eventsOf (l.ofStream a.stream)).length = (l.headOf a.stream).2 :=
    (congrArg Prod.snd hhead).symm
  rw [hlength, hevents, ← h.streamCommits_eq]
  rfl

/-- What an attempt can meet: its id is known to the stream, or its slot is taken, or it leaves a
gap, or it goes on from the head and is accepted under the next checkpoint. -/
theorem commit_cases (h : l.Kept) (a : Attempt) :
    (∃ c ∈ l.ofStream a.stream, c.id = a.id ∧ l.commit a = (.error (.duplicate c), l)) ∨
    (∀ c ∈ l.ofStream a.stream, c.id ≠ a.id) ∧
      ((a.sequence ≤ (l.ofStream a.stream).length ∨
          a.revision < (eventsOf (l.ofStream a.stream)).length + a.events.length) ∧
          l.commit a = (.error a.conflict, l) ∨
        (¬ (a.sequence ≤ (l.ofStream a.stream).length ∨
            a.revision < (eventsOf (l.ofStream a.stream)).length + a.events.length) ∧
          ¬ (a.sequence = (l.ofStream a.stream).length + 1 ∧
            a.revision = (eventsOf (l.ofStream a.stream)).length + a.events.length ∧
            (l.ofStream a.stream).length < maxRevision)) ∧
          l.commit a = (.error (.invalidAttempt (a.gapText (l.ofStream a.stream).length
            (eventsOf (l.ofStream a.stream)).length)), l) ∨
        (a.sequence = (l.ofStream a.stream).length + 1 ∧
            a.revision = (eventsOf (l.ofStream a.stream)).length + a.events.length) ∧
          l.commit a = (.ok (some (a.confirm (l.lastCheckpoint + 1))),
            l.append (a.confirm (l.lastCheckpoint + 1)))) := by
  rw [h.commit_eq]
  cases hd : (l.ofStream a.stream).find? (·.id = a.id) with
  | some c =>
    exact .inl ⟨c, List.mem_of_find?_eq_some hd, by simpa using List.find?_some hd, rfl⟩
  | none =>
    refine .inr ⟨fun c hc => by simpa using List.find?_eq_none.1 hd c hc, ?_⟩
    have hf := a.verdict_eq_fits_iff (l.ofStream a.stream).length
      (eventsOf (l.ofStream a.stream)).length
    have ho := a.verdict_eq_occupied_iff (l.ofStream a.stream).length
      (eventsOf (l.ofStream a.stream)).length
    simp only [Attempt.validate]
    cases hv : a.verdict (l.ofStream a.stream).length (eventsOf (l.ofStream a.stream)).length with
    | occupied => exact .inl ⟨ho.1 hv, rfl⟩
    | gap => exact .inr (.inl ⟨⟨fun hn => by simp [ho.2 hn] at hv,
        fun hn => by simp [hf.2 hn] at hv⟩, rfl⟩)
    | fits => exact .inr (.inr ⟨⟨(hf.1 hv).1, (hf.1 hv).2.1⟩, rfl⟩)

/-- Appending a commit that goes on from the head of its stream under the next checkpoint. -/
theorem append (h : l.Kept) (hne : c.events ≠ [])
    (hseq : c.sequence = (l.ofStream c.stream).length + 1)
    (hrev : c.revision = (eventsOf (l.ofStream c.stream)).length + c.events.length)
    (hid : ∀ d ∈ l.ofStream c.stream, d.id ≠ c.id)
    (hcp : c.checkpoint = l.lastCheckpoint + 1) (h0 : 0 ≤ l.lastCheckpoint) :
    (l.append c).Kept where
  positions s := by
    show ((l.positions.insert c.stream _).find? s).getD [] = places s 0 (l.log ++ [c])
    rw [places_append, ← h.positions s, Nat.zero_add]
    by_cases hs : c.stream = s
    · subst hs; simp [places]
    · rw [StreamMap.find?_insert_of_ne (Ne.symm hs)]; simp [places, hs]
  history s := by
    rw [ofStream_append]
    split
    · rename_i hs
      subst hs
      exact (h.history c.stream).concat hne (by omega) (by omega)
    · simpa using h.history s
  ids s := by
    rw [ofStream_append]
    split
    · rename_i hs
      subst hs
      rw [List.map_append, List.nodup_append]
      refine ⟨h.ids c.stream, by simp, ?_⟩
      rintro i hi j hj rfl
      obtain ⟨d, hd, rfl⟩ := List.mem_map.1 hi
      exact hid d hd (by simpa using hj)
    · simpa using h.ids s
  ascending := List.pairwise_append.2 ⟨h.ascending, List.pairwise_singleton .., fun d hd e he => by
    have := (h.checkpoints d hd).2
    rw [List.mem_singleton.1 he]
    omega⟩
  checkpoints d hd := by
    rcases List.mem_append.1 hd with hd | hd
    · have := h.checkpoints d hd
      exact ⟨this.1, by show d.checkpoint ≤ c.checkpoint; omega⟩
    · rw [List.mem_singleton.1 hd]
      exact ⟨by omega, Int.le_refl c.checkpoint⟩
  heads s := by
    have hsnap : (l.append c).snapshotsOf s = l.snapshotsOf s := rfl
    show (l.heads.insert c.stream _).find? s = _
    rw [headFrom, hsnap, ofStream_append]
    by_cases hs : c.stream = s
    · subst hs
      rw [StreamMap.find?_insert_self, h.heads, headFrom]
      simp only [if_true, List.getLast?_concat, Option.map_some]
      cases hl : (l.ofStream c.stream).getLast? with
      | some d => rfl
      | none =>
        have hnil : l.snapshotsOf c.stream = [] := List.eq_nil_iff_forall_not_mem.2 fun t ht => by
          have := (h.snapshots c.stream).2 t ht
          rw [List.getLast?_eq_none_iff.1 hl, eventsOf_nil, List.length_nil] at this
          omega
        simp [hnil, greatestRevision]
    · rw [StreamMap.find?_insert_of_ne (Ne.symm hs), h.heads, headFrom, if_neg hs,
        List.append_nil]
  snapshots s := by
    refine ⟨(h.snapshots s).1, fun t ht => ?_⟩
    obtain ⟨hs, h1, hle⟩ := (h.snapshots s).2 t ht
    refine ⟨hs, h1, hle.trans ?_⟩
    rw [ofStream_append, eventsOf_append, List.length_append]
    omega

/-- An attempt leaves a ledger as it must be, whatever becomes of it. -/
theorem commit (h : l.Kept) (h0 : 0 ≤ l.lastCheckpoint) (hne : a.events ≠ []) :
    (l.commit a).2.Kept := by
  obtain ⟨c, -, -, he⟩ | ⟨hid, ⟨-, he⟩ | ⟨-, he⟩ | ⟨⟨hs, hr⟩, he⟩⟩ := h.commit_cases a <;> rw [he]
  · exact h
  · exact h
  · exact h
  · exact h.append hne hs hr hid rfl h0

theorem head_of_find? (h : l.Kept) {head : StreamHead} (hf : l.heads.find? s = some head) :
    head = ⟨s, (eventsOf (l.ofStream s)).length, greatestRevision (l.snapshotsOf s)⟩ ∧
      l.ofStream s ≠ [] := by
  rw [h.heads, headFrom] at hf
  obtain ⟨c, hc, rfl⟩ := Option.map_eq_some_iff.1 hf
  refine ⟨?_, fun hnil => by simp [hnil] at hc⟩
  have := ((h.history s).getLast hc).2.2
  rw [this, Nat.zero_add]

/-- No snapshot is ahead of its stream, and a head is one of the revisions of its stream. -/
theorem head_le (h : l.Kept) {n : Nat}
    (hcs : ∀ c ∈ l.ofStream s, c.sequence ≤ n ∧ c.revision ≤ n) {head : StreamHead}
    (hf : l.heads.find? s = some head) : head.snapshot ≤ head.head ∧ head.head ≤ n := by
  have hle := (h.headOf_le hcs).2
  rw [h.headOf_eq] at hle
  rw [(h.head_of_find? hf).1]
  exact ⟨greatestRevision_le fun u hu => ((h.snapshots s).2 u hu).2.2, hle⟩

/-- What a snapshot can meet: it is turned away, or its revision is one of the stream without a
snapshot and it is recorded. -/
theorem addSnapshot_cases (h : l.Kept) (t : Snapshot) :
    (¬ (1 ≤ t.revision ∧ t.revision ≤ (eventsOf (l.ofStream t.stream)).length ∧
        ∀ u ∈ l.snapshotsOf t.stream, u.revision ≠ t.revision) ∧
      l.addSnapshot t = (false, l)) ∨
    ((1 ≤ t.revision ∧ t.revision ≤ (eventsOf (l.ofStream t.stream)).length ∧
        ∀ u ∈ l.snapshotsOf t.stream, u.revision ≠ t.revision) ∧
      l.addSnapshot t = (true, l.withSnapshot t)) := by
  unfold Ledger.addSnapshot
  cases hf : l.heads.find? t.stream with
  | none =>
    refine .inl ⟨fun ⟨h1, hle, _⟩ => ?_, rfl⟩
    rw [h.heads, headFrom, Option.map_eq_none_iff] at hf
    rw [List.getLast?_eq_none_iff.1 hf, eventsOf_nil, List.length_nil] at hle
    omega
  | some head =>
    obtain ⟨rfl, -⟩ := h.head_of_find? hf
    by_cases hr : t.revision = 0 ∨ (eventsOf (l.ofStream t.stream)).length < t.revision
    · exact .inl ⟨by omega, if_pos hr⟩
    by_cases hp : (l.snapshotsOf t.stream).any (·.revision = t.revision)
    · refine .inl ⟨fun ⟨_, _, hall⟩ => ?_, (if_neg hr).trans (if_pos hp)⟩
      obtain ⟨u, hu, he⟩ := List.any_eq_true.1 hp
      exact hall u hu (by simpa using he)
    · refine .inr ⟨⟨by omega, by omega, fun u hu he => ?_⟩,
        (if_neg hr).trans ((if_neg hp).trans ?_)⟩
      · exact hp (List.any_eq_true.2 ⟨u, hu, by simpa using he⟩)
      · rw [withSnapshot, greatestRevision_concat]
        rfl

/-- Recording a snapshot, or turning it away, keeps all of it. -/
theorem addSnapshot (h : l.Kept) (t : Snapshot) : (l.addSnapshot t).2.Kept := by
  obtain ⟨-, he⟩ | ⟨⟨h1, hle, hall⟩, he⟩ := h.addSnapshot_cases t <;> rw [he]
  · exact h
  refine ⟨h.positions, h.history, h.ids, h.ascending, h.checkpoints, fun s => ?_, fun s => ?_⟩
  · show (l.heads.insert t.stream _).find? s = (l.withSnapshot t).headFrom s
    rw [headFrom, ofStream_withSnapshot, snapshotsOf_withSnapshot]
    by_cases hs : t.stream = s
    · subst hs
      rw [StreamMap.find?_insert_self, if_pos rfl]
      cases hl : (l.ofStream t.stream).getLast? with
      | none =>
        rw [List.getLast?_eq_none_iff.1 hl, eventsOf_nil, List.length_nil] at hle
        omega
      | some c => rw [Option.map_some, ((h.history t.stream).getLast hl).2.2, Nat.zero_add]
    · rw [StreamMap.find?_insert_of_ne (Ne.symm hs), if_neg hs, List.append_nil, h.heads, headFrom]
  · rw [snapshotsOf_withSnapshot, ofStream_withSnapshot]
    split
    · rename_i hs
      subst hs
      refine ⟨?_, fun u hu => ?_⟩
      · rw [List.map_append, List.nodup_append]
        refine ⟨(h.snapshots t.stream).1, by simp, ?_⟩
        rintro i hi j hj rfl
        obtain ⟨u, hu, rfl⟩ := List.mem_map.1 hi
        exact hall u hu (by simpa using hj)
      · rcases List.mem_append.1 hu with hu | hu
        · exact (h.snapshots t.stream).2 u hu
        · rw [List.mem_singleton.1 hu]
          exact ⟨rfl, h1, hle⟩
    · rw [List.append_nil]
      exact h.snapshots s

/-- Dropping whole streams keeps all of it. -/
theorem retain (h : l.Kept) (keep : StreamId → Bool) : (l.retain keep).Kept where
  positions s := by
    show ((positionsFrom 0 [] (l.retain keep).log).find? s).getD [] = _
    rw [find?_positionsFrom]
    rfl
  history s := by
    rw [ofStream_retain]
    split
    · exact h.history s
    · trivial
  ids s := by
    rw [ofStream_retain]
    split
    · exact h.ids s
    · exact List.nodup_nil
  ascending := h.ascending.filter _
  checkpoints c hc := h.checkpoints c (List.mem_of_mem_filter hc)
  heads s := by
    show (l.heads.keep keep).find? s = _
    rw [StreamMap.find?_keep, headFrom, ofStream_retain]
    split
    · rename_i hs
      rw [h.heads, headFrom, snapshotsOf_retain, if_pos hs]
    · rfl
  snapshots s := by
    rw [snapshotsOf_retain, ofStream_retain]
    split
    · exact h.snapshots s
    · exact ⟨List.nodup_nil, fun _ ht => by simp at ht⟩

theorem clear (l : Ledger) : l.clear.Kept :=
  { empty with checkpoints := fun _ hc => by simp [Ledger.clear] at hc }

end Kept
end Ledger
end EventSourcing
