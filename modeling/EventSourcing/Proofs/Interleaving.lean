import EventSourcing.Proofs.Handle

/-!
# Writers in any order

A `World` is a store in memory and the clients that write to its streams, each with a handle of its
own. Clients act in turns, and a turn is at most one call to the store: of a commit under way only
the next call is made, and between two of its calls anybody else may have had any number of turns.

What a handle knows is always the beginning of its stream (`Handle.Tracks`). That is why an attempt
never leaves a gap and is accepted only at the head, and why catching up adds every event once,
whatever other writers did in the meantime. Nothing here deletes commits; with deletions a handle
can know more than its stream still has.
-/

namespace EventSourcing

/-- Nothing that is stored goes away. -/
def Operation.Additive : Operation → Prop
  | .dropStore | .purge _ | .purgeAll | .deleteStream _ => False
  | _ => True

/-- The opening is of everything from some revision on, and a snapshot is one of the store. -/
def Opening.Whole (l : Ledger) : Opening → Prop
  | .create _ => True
  | .window _ _ last => last = maxRevision
  | .fromSnapshot t last => t ∈ l.snapshotsOf t.stream ∧ last = maxRevision

/-- Every stream of the one ledger is the beginning of its stream in the other. -/
def Ledger.Grows (l l' : Ledger) : Prop := ∀ s, ∃ more, l'.ofStream s = l.ofStream s ++ more

namespace Ledger

variable {l : Ledger}

theorem Grows.refl (l : Ledger) : l.Grows l := fun _ => ⟨[], by simp⟩

theorem grows_append (l : Ledger) (c : Commit) : l.Grows (l.append c) :=
  fun s => ⟨_, ofStream_append l c s⟩

/-- A stream whose commits end below the greatest revision has fewer events, and fewer commits. -/
theorem Kept.length_eventsOf_lt (h : l.Kept) (hb : ∀ c ∈ l.log, c.revision < maxRevision)
    (s : StreamId) : (eventsOf (l.ofStream s)).length < maxRevision := by
  cases hl : (l.ofStream s).getLast? with
  | none =>
    rw [List.getLast?_eq_none_iff.1 hl]
    decide
  | some c =>
    have := hb c (mem_ofStream.1 (List.mem_of_getLast? hl)).1
    rw [((h.history s).getLast hl).2.2] at this
    omega

end Ledger

namespace Memory

variable {m : Memory} {ts : List Int}

/-- Additive operations only add. -/
theorem Sound.grows (h : Sound m ts) {op : Operation} (hop : op.Additive) :
    m.ledger.Grows (engine op m).2.ledger := by
  cases op with
  | commit a =>
    show m.ledger.Grows (Memory.commit a m).2.ledger
    obtain he | ⟨he, -⟩ := commit_cases h.kept a <;> rw [he]
    · exact Ledger.grows_append _ _
    · exact .refl _
  | addSnapshot t =>
    show m.ledger.Grows (m.ledger.addSnapshot t).2
    obtain ⟨-, he⟩ | ⟨-, he⟩ := h.kept.addSnapshot_cases t <;> rw [he]
    · exact .refl _
    · exact fun s => ⟨[], by simp⟩
  | read | snapshot | streamsToSnapshot | setUp => exact .refl _
  | dropStore | purge | purgeAll | deleteStream => exact absurd hop id

/-- The next call of a program keeps a store sound. -/
theorem Sound.program_step {α : Type} (h : Sound m ts) (p : Program α) :
    ∃ ts', Sound (p.step engine m).2 ts' := by
  induction p with
  | done a => exact ⟨ts, h⟩
  | note ns rest ih => exact ih
  | call op next => exact ⟨_, h.step op⟩

end Memory

/-- A handle knows the beginning of its stream, of which it shows the events after a revision. -/
structure Handle.Tracks (h : Handle) (base : Nat) (l : Ledger) (old post : List Commit) : Prop where
  stream : l.ofStream h.stream = old ++ post
  committed : h.committed = (eventsOf old).drop base
  revision : h.revision = (eventsOf old).length
  sequence : h.sequence = old.length
  seen : ∀ i ∈ h.seen, ∃ c ∈ old, c.id = i
  base_le : base ≤ (eventsOf old).length

namespace Handle.Tracks

variable {h : Handle} {base : Nat} {l l' : Ledger} {old post : List Commit}

/-- What a handle knows stays the beginning of a stream that grows. -/
theorem mono (ht : h.Tracks base l old post) (hl : l.Grows l') :
    ∃ post', h.Tracks base l' old post' := by
  obtain ⟨more, hmore⟩ := hl h.stream
  exact ⟨post ++ more, by rw [hmore, ht.stream, List.append_assoc], ht.committed, ht.revision,
    ht.sequence, ht.seen, ht.base_le⟩

/-- Staging does not change what a handle knows. -/
theorem stage (ht : h.Tracks base l old post) (s : Staging) :
    (s.apply h).Tracks base l old post := by
  cases s <;> exact ⟨ht.stream, ht.committed, ht.revision, ht.sequence, ht.seen, ht.base_le⟩

theorem clearChanges (ht : h.Tracks base l old post) : h.clearChanges.Tracks base l old post :=
  ht.stage .clear

/-- After catching up a handle knows its whole stream, and what is staged is as before. -/
theorem refreshed (ht : h.Tracks base l old post) (hk : l.Kept)
    (hb : ∀ c ∈ l.log, c.revision < maxRevision) :
    (h.refreshed l).Tracks base l (old ++ post) [] ∧ (h.refreshed l).stream = h.stream ∧
      (h.refreshed l).uncommitted = h.uncommitted ∧
      (h.refreshed l).uncommittedHeaders = h.uncommittedHeaders := by
  have hc := hk.history h.stream
  have hid := hk.ids h.stream
  have hlt := hk.length_eventsOf_lt hb h.stream
  rw [ht.stream] at hc hid hlt
  have hsplit : (eventsOf (old ++ post)).length
      = (eventsOf old).length + (eventsOf post).length := by
    rw [eventsOf_append, List.length_append]
  have hbase := ht.base_le
  rw [Handle.refreshed, Ledger.read_revisions, ht.stream,
    Handle.merge_rest hc hid hlt.le (fun c hmem hgt => ?_) (fun c hmem hseen => ?_)
      ht.revision.le (by rw [ht.revision]; omega)]
  · refine ⟨⟨?_, ?_, ?_, ?_, ?_, by omega⟩, rfl, rfl, rfl⟩
    · rw [List.append_nil]
      exact ht.stream
    · show h.committed ++ eventsOf post = _
      rw [ht.committed, eventsOf_append, List.drop_append_of_le_length hbase]
    · show (if post = [] then h.revision else _) = _
      split
      · rename_i hnil
        rw [ht.revision, hnil, List.append_nil]
      · rfl
    · show (if post = [] then h.sequence else _) = _
      split
      · rename_i hnil
        rw [ht.sequence, hnil, List.append_nil]
      · rfl
    · intro i hi
      rcases List.mem_append.1 hi with hi | hi
      · obtain ⟨c, hmem, he⟩ := List.mem_map.1 (List.mem_reverse.1 hi)
        exact ⟨c, List.mem_append_right _ hmem, he⟩
      · obtain ⟨c, hmem, he⟩ := ht.seen i hi
        exact ⟨c, List.mem_append_left _ hmem, he⟩
  · have hold := (Continues.append_iff.1 hc).1.revision_le hmem
    rw [ht.revision] at hgt
    omega
  · obtain ⟨d, hd, he⟩ := ht.seen _ hseen
    rw [List.map_append, List.nodup_append] at hid
    exact hid.2.2 _ (List.mem_map_of_mem hd) _ (List.mem_map_of_mem hmem) he

/-- A handle that knows its whole stream stands at the head. -/
theorem headOf_eq (ht : h.Tracks base l old []) (hk : l.Kept) :
    l.headOf h.stream = (h.sequence, h.revision) := by
  rw [hk.headOf_eq, ht.stream, List.append_nil, ht.sequence, ht.revision]

/-- A handle at the head takes its own commit over. -/
theorem own (ht : h.Tracks base l old []) {c : Commit} (hc : c.stream = h.stream)
    (hne : c.events ≠ []) (hs : c.sequence = h.sequence + 1)
    (hr : c.revision = h.revision + c.events.length) (hm : c.revision ≤ maxRevision)
    (hseen : c.id ∉ h.seen) :
    ((h.merge (nextRevision h.revision) c.revision [c]).clearChanges).Tracks base (l.append c)
      (old ++ [c]) [] := by
  have hbase := ht.base_le
  have hlen := List.length_pos_iff.2 hne
  have hcont : Continues old.length (eventsOf old).length [c] :=
    ⟨hne, by rw [hs, ht.sequence], by rw [hr, ht.revision], trivial⟩
  have hevents : eventsOf [c] = c.events := by simp
  rw [ht.revision] at hr
  have hnext : nextRevision h.revision = (eventsOf old).length + 1 := by
    rw [ht.revision]
    exact Nat.min_eq_left (by omega)
  refine clearChanges ?_
  rw [hnext, merge_eq hcont (by rw [hevents]; omega) (by simpa using hseen) (by simp)
    (fun d hd => ?_), hevents, window_eq_self (Nat.le_refl _) hr.ge]
  · refine ⟨?_, ?_, ?_, ?_, ?_, ?_⟩
    · show (l.append c).ofStream h.stream = _
      rw [Ledger.ofStream_append, if_pos hc, ht.stream, List.append_nil, List.append_nil]
    · show h.committed ++ c.events = _
      rw [ht.committed, eventsOf_append, List.drop_append_of_le_length hbase, hevents]
    · show (if c.events = [] then h.revision else min c.revision _) = _
      rw [if_neg hne, eventsOf_append, hevents, List.length_append]
      exact Nat.min_eq_right hr.ge
    · show (if [c] = [] then h.sequence else old.length + [c].length) = (old ++ [c]).length
      rw [if_neg (List.cons_ne_nil c []), List.length_append]
    · intro i hi
      rcases List.mem_append.1 hi with hi | hi
      · exact ⟨c, by simp, (List.mem_singleton.1 hi).symm⟩
      · obtain ⟨d, hd, he⟩ := ht.seen i hi
        exact ⟨d, List.mem_append_left _ hd, he⟩
    · rw [eventsOf_append, List.length_append]
      omega
  · rw [List.mem_singleton.1 hd]
    have := Commit.firstRevision_eq hne hr hm
    omega

/-- A read of everything from a revision on that the stream has, or of the whole stream. -/
theorem of_merge (stream : StreamId) (hk : l.Kept)
    (hb : ∀ c ∈ l.log, c.revision < maxRevision) {lo first : Nat} (hlo : lo ≤ first)
    (hh : h = (create stream).merge first maxRevision (l.read (.revisions stream lo maxRevision))) :
    h.committed = (eventsOf (l.ofStream stream)).drop (first - 1) ∧
      (lo ≤ (eventsOf (l.ofStream stream)).length →
        first - 1 ≤ (eventsOf (l.ofStream stream)).length →
        { h with revision := (eventsOf (l.ofStream stream)).length }.Tracks (first - 1) l
          (l.ofStream stream) []) ∧
      (first ≤ (eventsOf (l.ofStream stream)).length →
        h.revision = (eventsOf (l.ofStream stream)).length) := by
  have hlt := hk.length_eventsOf_lt hb stream
  have hc := hk.history stream
  obtain ⟨pre, mid, post, hcs, hmid, hpre, hpost, hmerge⟩ :=
    Handle.merge_between stream hc (hk.ids stream) hlt.le hlo maxRevision
  have hall : l.ofStream stream = pre ++ mid := by
    cases post with
    | nil => rw [hcs, List.append_nil]
    | cons c post =>
      exact absurd (hpost c (List.mem_cons_self ..)) (Nat.not_lt.2 c.firstRevision_le_max)
  have hwindow : window 0 first maxRevision (eventsOf (l.ofStream stream))
      = (eventsOf (l.ofStream stream)).drop (first - 1) := by
    rw [window, Nat.sub_zero, Nat.sub_zero, List.take_of_length_le hlt.le]
  rw [Ledger.read_revisions, ← hmid, hmerge, hwindow] at hh
  subst hh
  refine ⟨rfl, fun hreach hle => ⟨?_, rfl, rfl, ?_, ?_, hle⟩, fun hle => ?_⟩
  · exact (List.append_nil _).symm
  · show (if mid = [] then 0 else (pre ++ mid).length) = _
    split
    · -- nothing was read, so the stream ends before the first revision asked for
      rename_i hnil
      rw [hnil, List.append_nil] at hall
      cases hl : (l.ofStream stream).getLast? with
      | none => rw [List.getLast?_eq_none_iff.1 hl]; rfl
      | some c =>
        have := hpre c (hall ▸ List.mem_of_getLast? hl)
        have := (hc.getLast hl).2.2
        omega
    · rw [hall]
  · intro i hi
    obtain ⟨c, hmem, he⟩ := List.mem_map.1 (List.mem_reverse.1 hi)
    exact ⟨c, hall ▸ List.mem_append_right _ hmem, he⟩
  · show (if (eventsOf (l.ofStream stream)).drop (first - 1) = [] then 0 else _) = _
    split
    · rename_i hnil
      have := congrArg List.length hnil
      rw [List.length_drop, List.length_nil] at this
      omega
    · exact Nat.min_eq_right hlt.le

end Handle.Tracks

/-- A handle that was opened knows its whole stream. -/
theorem Opening.tracks {m : Memory} {o : Opening} {h : Handle} (hk : m.ledger.Kept)
    (hr : m.readsDisabled = false) (hb : ∀ c ∈ m.ledger.log, c.revision < maxRevision)
    (ho : o.Whole m.ledger) (hopen : (o.program.run Memory.engine m).value = .ok h) :
    ∃ old post, h.Tracks o.base m.ledger old post := by
  cases o with
  | create s =>
    obtain rfl : Handle.create s = h := Except.ok.inj hopen
    exact ⟨[], m.ledger.ofStream s, rfl, rfl, rfl, rfl, by simp [Handle.create], Nat.zero_le _⟩
  | window s first last =>
    obtain rfl : last = maxRevision := ho
    have hvalue := (Handle.run_openWindow hr s first maxRevision).symm.trans hopen
    obtain ⟨h', hh⟩ : ∃ h', h' = (Handle.create s).merge first maxRevision
      (m.ledger.read (.revisions s first maxRevision)) := ⟨_, rfl⟩
    obtain ⟨hcommitted, htracks, hrevision⟩ := Handle.Tracks.of_merge s hk hb (Nat.le_refl first) hh
    rw [← hh, hcommitted] at hvalue
    refine ⟨m.ledger.ofStream s, [], ?_⟩
    split at hvalue
    · cases hvalue
    · rename_i hfound
      obtain rfl := Except.ok.inj hvalue
      have hle : first ≤ (eventsOf (m.ledger.ofStream s)).length := by
        by_contra hgt
        exact hfound ⟨by omega, List.drop_eq_nil_of_le (by omega)⟩
      have ht := htracks hle (by omega)
      rw [← hrevision hle] at ht
      exact ht
  | fromSnapshot t last =>
    obtain ⟨ht, rfl⟩ := ho
    obtain ⟨-, h1, hle⟩ := (hk.snapshots t.stream).2 t ht
    have hlt := hk.length_eventsOf_lt hb t.stream
    have hnext : nextRevision t.revision = t.revision + 1 := Nat.min_eq_left (by omega)
    obtain ⟨hcommitted, htracks, -⟩ := Handle.Tracks.of_merge t.stream hk hb
      (Nat.le_succ t.revision) rfl
    refine ⟨m.ledger.ofStream t.stream, [], ?_⟩
    obtain rfl := Except.ok.inj ((Handle.run_openFromSnapshot hr t maxRevision).symm.trans hopen)
    rw [hnext, hcommitted, List.length_drop, Nat.succ_sub_one, Nat.add_sub_cancel' hle]
    exact htracks hle hle

/-- What is left of a commit under way: all of it, or only the reload after the store has told of
other writers. -/
inductive Handle.Awaits (h : Handle) (l : Ledger) :
    Program (Handle × Except Fault (Option Commit)) → Prop
  | start (id : CommitId) (stamp : Stamp) : Awaits h l (h.commitChanges id stamp)
  | stored (c : Commit) (hc : c ∈ l.ofStream h.stream) :
    Awaits h l (h.reload clearChanges (.ok (some c)))
  | beaten (stream : StreamId) (revision sequence : Nat) :
    Awaits h l (h.reload (fun g => g) (.error (.conflict stream revision sequence)))

/-- What is left of a commit is left while the stream grows. -/
theorem Handle.Awaits.mono {h : Handle} {l l' : Ledger}
    {p : Program (Handle × Except Fault (Option Commit))} (ha : h.Awaits l p) (hl : l.Grows l') :
    h.Awaits l' p := by
  cases ha with
  | start id stamp => exact .start id stamp
  | stored c hc =>
    obtain ⟨more, hmore⟩ := hl h.stream
    exact .stored c (hmore ▸ List.mem_append_left _ hc)
  | beaten stream revision sequence => exact .beaten stream revision sequence

/-- What the next call of a commit under way comes to. -/
inductive Handle.Advance (h : Handle) (base : Nat) (m : Memory) :
    Program (Handle × Except Fault (Option Commit)) → Memory → Prop
  /-- There is more to do, and nothing was written. -/
  | goesOn {p} (hp : p.result? = none) (ha : h.Awaits m.ledger p) : Advance h base m p m
  /-- Nothing was written, and there is nothing more to do. -/
  | answers {p g c} (hp : p.result? = some (g, .ok c)) (old post : List Commit)
    (hg : g.Tracks base m.ledger old post) : Advance h base m p m
  /-- The handle has caught up with the stream after a conflict. -/
  | caughtUp {p g stream revision sequence}
    (hp : p.result? = some (g, .error (.conflict stream revision sequence))) (old : List Commit)
    (hg : g.Tracks base m.ledger old []) (hs : g.stream = h.stream)
    (hu : g.uncommitted = h.uncommitted) (hh : g.uncommittedHeaders = h.uncommittedHeaders) :
    Advance h base m p m
  /-- The handle was at the head, and what it has staged is written. -/
  | writes {p g c} (hp : p.result? = some (g, .ok (some c))) (old : List Commit)
    (hhead : m.ledger.headOf h.stream = (h.sequence, h.revision))
    (hs : c.stream = h.stream) (he : c.events = h.uncommitted)
    (hh : c.headers = h.uncommittedHeaders)
    (hg : g.Tracks base (m.ledger.append c) old []) :
    Advance h base m p { m with ledger := m.ledger.append c }

@[simp] theorem Program.result?_note {α : Type} (ns : List Notice) (p : Program α) :
    (Program.note ns p).result? = p.result? := rfl

/-- **The next call of a commit under way**, for a handle that knows the beginning of its stream. -/
theorem Handle.Awaits.step {h : Handle} {base : Nat} {m : Memory} {old post : List Commit}
    {p : Program (Handle × Except Fault (Option Commit))} (ha : h.Awaits m.ledger p)
    (ht : h.Tracks base m.ledger old post) (hk : m.ledger.Kept) (hr : m.readsDisabled = false)
    (hm : m.commitsDisabled = false) (hb : ∀ c ∈ m.ledger.log, c.revision < maxRevision)
    (hb' : ∀ c ∈ (p.step Memory.engine m).2.ledger.log, c.revision < maxRevision) :
    h.Advance base m (p.step Memory.engine m).1 (p.step Memory.engine m).2 := by
  cases ha with
  | stored c hc =>
    obtain ⟨ns, hs⟩ := h.step_reload hr clearChanges (.ok (some c))
    rw [hs]
    exact .answers rfl _ _ (ht.refreshed hk hb).1.clearChanges
  | beaten stream revision sequence =>
    obtain ⟨ns, hs⟩ := h.step_reload hr (fun g => g) (.error (.conflict stream revision sequence))
    rw [hs]
    obtain ⟨hg, hstream, hu, hh⟩ := ht.refreshed hk hb
    exact .caughtUp rfl _ hg hstream hu hh
  | start id stamp =>
    by_cases hne : h.uncommitted = []
    · rw [commitChanges, if_pos (by rw [hne]; rfl)]
      exact .answers rfl _ _ ht
    by_cases hseen : id ∈ h.seen
    · -- the stream still has the commit of an id that was seen
      obtain ⟨d, hd, he⟩ := ht.seen id hseen
      have hread : d ∈ m.ledger.read (.revisions h.stream 0 maxRevision) := by
        rw [Ledger.read_revisions, ht.stream]
        refine List.mem_filter.2 ⟨List.mem_append_left _ hd, ?_⟩
        simpa using d.firstRevision_le_max
      obtain ⟨c, hc⟩ := Option.isSome_iff_exists.1
        ((List.find?_isSome (p := fun c => decide (c.id = id))).2 ⟨d, hread, decide_eq_true he⟩)
      obtain ⟨ns, hs⟩ := step_commitChanges_seen hr hne stamp hseen hc
      rw [hs]
      exact .answers rfl _ _ ht.clearChanges
    rw [commitChanges, if_neg (by rwa [List.isEmpty_iff]), if_neg hseen] at hb' ⊢
    obtain ⟨c, hc, -, hs⟩ | ⟨-, ⟨-, hs⟩ | ⟨hbeyond, hgap⟩ | ⟨⟨hsequence, hrevision⟩, c, hc, hs⟩⟩ :=
      h.submit_cases hk hm hne id stamp
    · rw [hs]
      exact .goesOn rfl (.stored c hc)
    · rw [hs]
      exact .goesOn rfl (.beaten ..)
    · have hlt := hk.length_eventsOf_lt hb h.stream
      have hlen := (hk.history h.stream).length_le
      rw [ht.stream, eventsOf_append, List.length_append, List.length_append] at *
      rw [ht.sequence, ht.revision] at hbeyond hgap
      omega
    · have hnil : post = [] := by
        rw [ht.sequence, ht.stream, List.length_append] at hsequence
        exact List.length_eq_zero_iff.1 (by omega)
      subst hnil
      rw [hs] at hb' ⊢
      have hmax := (hb' c (List.mem_append_right _ (List.mem_singleton_self c))).le
      subst hc
      exact .writes rfl _ (ht.headOf_eq hk) rfl rfl rfl (ht.own rfl hne rfl rfl hmax hseen)

/-- A writer: its handle, the revision before the first event that the handle shows, and what is
left of its commit under way. -/
structure Client where
  base : Nat
  handle : Handle
  pending : Option (Program (Handle × Except Fault (Option Commit))) := none

/-- A store in memory, and the writers that share it. -/
structure World where
  memory : Memory
  clients : List Client := []

/-- What somebody does in a world. -/
inductive Turn where
  /-- An operation of somebody without a handle. -/
  | perform (op : Operation)
  /-- A new writer opens a handle. -/
  | join (opening : Opening)
  | stage (client : Nat) (staging : Staging)
  /-- A writer begins a commit; no call is made yet. -/
  | begin (client : Nat) (id : CommitId) (stamp : Stamp)
  /-- A commit under way makes its next call. -/
  | advance (client : Nat)

namespace World

/-- Lets a writer do something without a call, unless it has a commit under way. -/
def idle (w : World) (i : Nat) (f : Client → Client) : World :=
  match w.clients[i]? with
  | some c => if c.pending.isNone then { w with clients := w.clients.set i (f c) } else w
  | none => w

/-- Lets the commit under way of a writer make its next call. If it is the last one, the writer has
its handle back, and the answer. -/
def advance (w : World) (i : Nat) : World × Option (Except Fault (Option Commit)) :=
  match w.clients[i]? with
  | some ⟨base, h, some p⟩ =>
    let (p, m) := p.step Memory.engine w.memory
    match p.result? with
    | none => (⟨m, w.clients.set i ⟨base, h, some p⟩⟩, none)
    | some (h, answer) => (⟨m, w.clients.set i ⟨base, h, none⟩⟩, some answer)
  | _ => (w, none)

/-- A new writer opens a handle, if it can be opened. -/
def join (w : World) (o : Opening) : World :=
  match (o.program.run Memory.engine w.memory).value with
  | .ok h => { w with clients := w.clients ++ [⟨o.base, h, none⟩] }
  | .error _ => w

/-- The world after a turn. -/
def turn (w : World) : Turn → World
  | .perform op => { w with memory := (Memory.engine op w.memory).2 }
  | .join o => w.join o
  | .stage i s => w.idle i fun c => { c with handle := s.apply c.handle }
  | .begin i id stamp =>
    w.idle i fun c => { c with pending := some (c.handle.commitChanges id stamp) }
  | .advance i => (w.advance i).1

/-- After a change of one writer there are the changed one and the others as they were. -/
theorem of_getElem?_set {cs : List Client} {i k : Nat} {c d : Client}
    (h : (cs.set i d)[k]? = some c) : k = i ∧ c = d ∨ k ≠ i ∧ cs[k]? = some c := by
  rw [List.getElem?_set] at h
  split at h
  · rename_i hk
    split at h
    · exact .inl ⟨hk.symm, (Option.some.inj h).symm⟩
    · cases h
  · rename_i hk
    exact .inr ⟨Ne.symm hk, h⟩

/-- Nothing is deleted, and handles show everything from some revision on. -/
def Allows (w : World) : Turn → Prop
  | .perform op => op.Additive
  | .join o => o.Whole w.memory.ledger
  | _ => True

/-- No commit reaches the greatest revision. -/
def Below (w : World) : Prop := ∀ c ∈ w.memory.ledger.log, c.revision < maxRevision

instance (w : World) : Decidable w.Below :=
  inferInstanceAs (Decidable (∀ c ∈ w.memory.ledger.log, c.revision < maxRevision))

/-- The worlds that turns lead to, from a store with any past. -/
inductive Reachable : World → Prop
  | start (ops : List Operation) (hb : Below ⟨Memory.after ops, []⟩) :
    Reachable ⟨Memory.after ops, []⟩
  | turn {w : World} (t : Turn) (hw : Reachable w) (ht : w.Allows t) (hb : (w.turn t).Below) :
    Reachable (w.turn t)

/-- What is true of every reachable world. -/
structure Sound (w : World) : Prop where
  memory : ∃ tokens, w.memory.Sound tokens
  below : w.Below
  tracks : ∀ c ∈ w.clients, ∃ old post, c.handle.Tracks c.base w.memory.ledger old post
  awaits : ∀ c ∈ w.clients, ∀ p ∈ c.pending, c.handle.Awaits w.memory.ledger p

namespace Sound

variable {w : World}

/-- Turns that change one writer only. -/
theorem set (h : w.Sound) {i : Nat} {c : Client}
    (ht : ∃ old post, c.handle.Tracks c.base w.memory.ledger old post)
    (ha : ∀ p ∈ c.pending, c.handle.Awaits w.memory.ledger p) :
    Sound { w with clients := w.clients.set i c } where
  memory := h.memory
  below := h.below
  tracks d hd := by
    rcases List.mem_or_eq_of_mem_set hd with hd | rfl
    exacts [h.tracks d hd, ht]
  awaits d hd := by
    rcases List.mem_or_eq_of_mem_set hd with hd | rfl
    exacts [h.awaits d hd, ha]

/-- A change of the store by which its streams grow. -/
theorem grow (h : w.Sound) {m : Memory} (hm : ∃ tokens, m.Sound tokens)
    (hb : Below { w with memory := m }) (hl : w.memory.ledger.Grows m.ledger) :
    Sound { w with memory := m } where
  memory := hm
  below := hb
  tracks c hc := by
    obtain ⟨old, post, ht⟩ := h.tracks c hc
    exact ⟨old, ht.mono hl⟩
  awaits c hc p hp := (h.awaits c hc p hp).mono hl

theorem idle (h : w.Sound) (i : Nat) {f : Client → Client}
    (hf : ∀ c ∈ w.clients, c.pending = none →
      (∃ old post, (f c).handle.Tracks (f c).base w.memory.ledger old post) ∧
        ∀ p ∈ (f c).pending, (f c).handle.Awaits w.memory.ledger p) : (w.idle i f).Sound := by
  unfold World.idle
  split
  · rename_i c hc
    split
    · rename_i hidle
      obtain ⟨ht, ha⟩ := hf c (List.mem_of_getElem? hc) (Option.isNone_iff_eq_none.1 hidle)
      exact h.set ht ha
    · exact h
  · exact h

end Sound

variable {w : World} {i : Nat}

/-- Lets the commit under way of a writer make its next call to a store that keeps its commits in
memory, such as one behind hooks. -/
def advanceOn (engine : Engine Memory) (w : World) (i : Nat) :
    World × Option (Except Fault (Option Commit)) :=
  match w.clients[i]? with
  | some ⟨base, h, some p⟩ =>
    let (p, m) := p.step engine w.memory
    match p.result? with
    | none => (⟨m, w.clients.set i ⟨base, h, some p⟩⟩, none)
    | some (h, answer) => (⟨m, w.clients.set i ⟨base, h, none⟩⟩, some answer)
  | _ => (w, none)

/-- Only a writer with a commit under way can make a call. -/
theorem advanceOn_cases (engine : Engine Memory) (w : World) (i : Nat) :
    w.advanceOn engine i = (w, none) ∨
    ∃ c p, w.clients[i]? = some c ∧ c.pending = some p ∧
      (w.advanceOn engine i).1.memory = (p.step engine w.memory).2 ∧
      ((p.step engine w.memory).1.result? = none →
        w.advanceOn engine i = (⟨(p.step engine w.memory).2, w.clients.set i
          { c with pending := some (p.step engine w.memory).1 }⟩, none)) ∧
      ∀ g answer, (p.step engine w.memory).1.result? = some (g, answer) →
        w.advanceOn engine i = (⟨(p.step engine w.memory).2, w.clients.set i
          { c with handle := g, pending := none }⟩, some answer) := by
  unfold World.advanceOn
  cases hc : w.clients[i]? with
  | none => exact .inl rfl
  | some c =>
    obtain ⟨base, h, _ | p⟩ := c
    · exact .inl rfl
    refine .inr ⟨_, p, rfl, rfl, ?_⟩
    cases hr : (p.step engine w.memory).1.result? with
    | none => simp [hr]
    | some r => simp +contextual [hr]

theorem advance_cases (w : World) (i : Nat) : w.advance i = (w, none) ∨
    ∃ c p, w.clients[i]? = some c ∧ c.pending = some p ∧
      (w.advance i).1.memory = (p.step Memory.engine w.memory).2 ∧
      ((p.step Memory.engine w.memory).1.result? = none →
        w.advance i = (⟨(p.step Memory.engine w.memory).2, w.clients.set i
          { c with pending := some (p.step Memory.engine w.memory).1 }⟩, none)) ∧
      ∀ g answer, (p.step Memory.engine w.memory).1.result? = some (g, answer) →
        w.advance i = (⟨(p.step Memory.engine w.memory).2, w.clients.set i
          { c with handle := g, pending := none }⟩, some answer) :=
  w.advanceOn_cases Memory.engine i

/-- What the call of a commit under way comes to, and the world after it. -/
theorem Sound.advance (h : w.Sound) (i : Nat) (hb : (w.advance i).1.Below) :
    (w.advance i).1.Sound ∧ (w.advance i = (w, none) ∨
      ∃ c p', w.clients[i]? = some c ∧
        c.handle.Advance c.base w.memory p' (w.advance i).1.memory ∧
        (p'.result? = none → (w.advance i).2 = none) ∧
        ∀ g answer, p'.result? = some (g, answer) → (w.advance i).2 = some answer ∧
          (w.advance i).1.clients[i]? = some { c with handle := g, pending := none }) := by
  obtain ⟨ts, hs⟩ := h.memory
  obtain hnone | ⟨c, p, hc, hp, hmemory, hmore, hlast⟩ := w.advance_cases i
  · rw [hnone]
    exact ⟨h, .inl rfl⟩
  have hmem := List.mem_of_getElem? hc
  obtain ⟨old, post, ht⟩ := h.tracks c hmem
  have hadvance := (h.awaits c hmem p hp).step ht hs.kept hs.reads hs.commits h.below (by
    rw [← hmemory]; exact hb)
  have hsound := hs.program_step p
  have hbelow : Below { w with memory := (p.step Memory.engine w.memory).2 } := fun d hd =>
    hb d (hmemory ▸ hd)
  rw [hmemory]
  generalize (p.step Memory.engine w.memory).1 = p' at hmore hlast hadvance
  generalize (p.step Memory.engine w.memory).2 = m' at hmore hlast hadvance hsound hbelow
  refine ⟨?_, .inr ⟨c, p', hc, hadvance, fun hr => by rw [hmore hr], fun g answer hr => ?_⟩⟩
  · cases hadvance with
    | goesOn hr ha =>
      rw [hmore hr]
      refine h.set ⟨old, post, ht⟩ fun q hq => ?_
      rwa [← Option.some.inj hq]
    | answers hr old post hg =>
      rw [hlast _ _ hr]
      exact h.set ⟨old, post, hg⟩ nofun
    | caughtUp hr old hg =>
      rw [hlast _ _ hr]
      exact h.set ⟨old, [], hg⟩ nofun
    | writes hr old _ _ _ _ hg =>
      rw [hlast _ _ hr]
      exact (h.grow hsound hbelow (Ledger.grows_append _ _)).set ⟨old, [], hg⟩ nofun
  · rw [hlast g answer hr]
    obtain ⟨hi, -⟩ := List.getElem?_eq_some_iff.1 hc
    exact ⟨rfl, List.getElem?_set_self hi⟩

/-- A handle on everything from some revision on joins with what it has read. -/
theorem Sound.join (h : w.Sound) {o : Opening} (ho : o.Whole w.memory.ledger) :
    (w.join o).Sound := by
  obtain ⟨ts, hs⟩ := h.memory
  unfold World.join
  cases hopen : (o.program.run Memory.engine w.memory).value with
  | error e => exact h
  | ok g =>
    refine ⟨h.memory, h.below, fun c hc => ?_, fun c hc => ?_⟩
    · rcases List.mem_append.1 hc with hc | hc
      · exact h.tracks c hc
      · rw [List.mem_singleton.1 hc]
        exact o.tracks hs.kept hs.reads h.below ho hopen
    · rcases List.mem_append.1 hc with hc | hc
      · exact h.awaits c hc
      · rw [List.mem_singleton.1 hc]
        exact nofun

/-- Every turn that is allowed keeps a world sound. -/
theorem Sound.turn (h : w.Sound) {t : Turn} (ht : w.Allows t) (hb : (w.turn t).Below) :
    (w.turn t).Sound := by
  obtain ⟨ts, hs⟩ := h.memory
  cases t with
  | perform op => exact h.grow ⟨_, hs.step op⟩ hb (hs.grows ht)
  | join o => exact h.join ht
  | stage i s =>
    refine h.idle i fun c hc hidle => ⟨?_, by rw [hidle]; exact nofun⟩
    obtain ⟨old, post, ht⟩ := h.tracks c hc
    exact ⟨old, post, ht.stage s⟩
  | begin i id stamp =>
    refine h.idle i fun c hc hidle => ⟨h.tracks c hc, fun p hp => ?_⟩
    rw [← Option.some.inj hp]
    exact .start id stamp
  | advance i => exact (h.advance i hb).1

/-- Every reachable world is sound. -/
theorem Reachable.sound (hw : w.Reachable) : w.Sound := by
  induction hw with
  | start ops hb => exact ⟨⟨_, Memory.sound_after ops⟩, hb, by simp, by simp⟩
  | turn t _ ht hb ih => exact ih.turn ht hb

end World

/-- A handle shows the events of its stream after a revision, up to its own revision, and has the
sequence of the commit there. -/
structure Client.Faithful (c : Client) (l : Ledger) : Prop where
  committed : c.handle.committed
    = ((eventsOf (l.ofStream c.handle.stream)).take c.handle.revision).drop c.base
  base_le : c.base ≤ c.handle.revision
  revision_le : c.handle.revision ≤ (eventsOf (l.ofStream c.handle.stream)).length
  sequence : c.handle.revision = 0 ∧ c.handle.sequence = 0 ∨
    ∃ d ∈ l.ofStream c.handle.stream,
      d.revision = c.handle.revision ∧ d.sequence = c.handle.sequence

/-- A handle that knows the beginning of its stream is faithful. -/
theorem Handle.Tracks.faithful {c : Client} {l : Ledger} {old post : List Commit}
    (ht : c.handle.Tracks c.base l old post) (hk : l.Kept) : c.Faithful l where
  committed := by
    rw [ht.stream, ht.committed, ht.revision, eventsOf_append, List.take_left']
    rfl
  base_le := ht.revision ▸ ht.base_le
  revision_le := by
    rw [ht.stream, ht.revision, eventsOf_append, List.length_append]
    omega
  sequence := by
    have hc := hk.history c.handle.stream
    rw [ht.stream, Continues.append_iff] at hc
    rw [ht.stream, ht.revision, ht.sequence]
    cases hl : old.getLast? with
    | none =>
      rw [List.getLast?_eq_none_iff.1 hl]
      exact .inl ⟨rfl, rfl⟩
    | some d =>
      obtain ⟨-, hs, hr⟩ := hc.1.getLast hl
      exact .inr ⟨d, List.mem_append_left _ (List.mem_of_getLast? hl), by omega, by omega⟩

/-- **Writers in any order.**  In every reachable world each handle shows exactly the stored events
from its first revision to its own, and has the sequence of the commit there. The next call of a
commit under way writes only if the handle is at the head of its stream, and then what is staged is
appended. The answer to a commit is never that the attempt was invalid, and with a conflict the
handle comes back at the head, with what is staged kept. -/
theorem World.handles_faithful {w : World} (hw : w.Reachable) :
    (∀ c ∈ w.clients, c.Faithful w.memory.ledger) ∧
      ∀ i, (w.advance i).1.Below →
        ((w.advance i).1.memory = w.memory ∨ ∃ c d, w.clients[i]? = some c ∧
          w.memory.ledger.headOf c.handle.stream = (c.handle.sequence, c.handle.revision) ∧
          d.stream = c.handle.stream ∧ d.events = c.handle.uncommitted ∧
          d.headers = c.handle.uncommittedHeaders ∧
          (w.advance i).1.memory = { w.memory with ledger := w.memory.ledger.append d }) ∧
        (∀ text, (w.advance i).2 ≠ some (.error (.invalidAttempt text))) ∧
        ∀ stream revision sequence,
          (w.advance i).2 = some (.error (.conflict stream revision sequence)) →
          ∃ c c', w.clients[i]? = some c ∧ (w.advance i).1.clients[i]? = some c' ∧
            (w.advance i).1.memory.ledger.headOf c'.handle.stream
              = (c'.handle.sequence, c'.handle.revision) ∧
            c'.handle.stream = c.handle.stream ∧
            c'.handle.uncommitted = c.handle.uncommitted ∧
            c'.handle.uncommittedHeaders = c.handle.uncommittedHeaders := by
  have h := hw.sound
  obtain ⟨ts, hs⟩ := h.memory
  refine ⟨fun c hc => ?_, fun i hb => ?_⟩
  · obtain ⟨old, post, ht⟩ := h.tracks c hc
    exact ht.faithful hs.kept
  obtain hnone | ⟨c, p, hc, hadvance, hmore, hlast⟩ := (h.advance i hb).2
  · rw [hnone]
    exact ⟨.inl rfl, nofun, nofun⟩
  generalize (w.advance i).1.memory = m' at hadvance ⊢
  cases hadvance with
  | goesOn hr ha =>
    rw [hmore hr]
    exact ⟨.inl rfl, nofun, nofun⟩
  | answers hr old post hg =>
    rw [(hlast _ _ hr).1]
    exact ⟨.inl rfl, nofun, nofun⟩
  | caughtUp hr old hg hstream hu hh =>
    obtain ⟨hanswer, hclient⟩ := hlast _ _ hr
    rw [hanswer]
    exact ⟨.inl rfl, nofun, fun _ _ _ _ =>
      ⟨c, _, hc, hclient, hg.headOf_eq hs.kept, hstream, hu, hh⟩⟩
  | writes hr old hhead hstream he hh hg =>
    rw [(hlast _ _ hr).1]
    exact ⟨.inr ⟨c, _, hc, hhead, hstream, he, hh, rfl⟩, nofun, nofun⟩

/-- A writer who takes a stream for empty that has a commit of two events, and has just been told of
the conflict. -/
def lateWriter : World :=
  let stream : StreamId := ⟨"tenant", "a"⟩
  let w : World := ⟨Memory.after [.commit (Memory.sampleAttempt "a" 1 2 2 1)], []⟩
  (((w.turn (.join (.create stream))).turn (.stage 0 (.add ⟨⟨"event", .null⟩, []⟩))).turn
    (.begin 0 ⟨List.replicate 16 7, rfl⟩ ⟨0⟩)).turn (.advance 0)

theorem World.handles_faithful_lateWriter :
    lateWriter.Reachable ∧ (lateWriter.advance 0).1.Below ∧
      (∀ c ∈ lateWriter.clients, c.Faithful lateWriter.memory.ledger) ∧
      (lateWriter.advance 0).2 = some (.error (.conflict ⟨"tenant", "a"⟩ 1 1)) ∧
      ∃ c, (lateWriter.advance 0).1.clients[0]? = some c ∧
        (lateWriter.advance 0).1.memory.ledger.headOf c.handle.stream
          = (c.handle.sequence, c.handle.revision) := by
  have hreach : lateWriter.Reachable := by
    unfold lateWriter
    refine .turn _ (.turn _ (.turn _ (.turn _ (.start _ ?_) ?_ ?_) ?_ ?_) ?_ ?_) ?_ ?_
    all_goals first | exact trivial | decide +kernel
  have hbelow : (lateWriter.advance 0).1.Below := by decide +kernel
  have hanswer : (lateWriter.advance 0).2 = some (.error (.conflict ⟨"tenant", "a"⟩ 1 1)) := by
    decide +kernel
  obtain ⟨hfaithful, hadvance⟩ := handles_faithful hreach
  obtain ⟨-, -, hconflict⟩ := hadvance 0 hbelow
  obtain ⟨-, c, -, hc, hhead, -⟩ := hconflict _ _ _ hanswer
  exact ⟨hreach, hbelow, hfaithful, hanswer, c, hc, hhead⟩

end EventSourcing
