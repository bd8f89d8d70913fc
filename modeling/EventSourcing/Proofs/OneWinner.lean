import EventSourcing.Proofs.Interleaving
import EventSourcing.Proofs.Parts

/-!
# One writer wins

Writers who stand at the head of one stream all claim the sequence after it, and each claims as many
revisions as it has staged events. So the ranges overlap without being the same. Whoever reaches the
store first has the place, and every later attempt starts below the new head, however long it is:
it conflicts, and never leaves a gap.

A `Race` is a world together with the answers that the writers were given. `Standing` is how one
writer stands in it, with the winner so far: about to call, told of the winner and about to reload,
or done. One beat of a race moves one writer on (`Race.Stands.beat`), and a writer is done after two
calls of its own. What everybody ends with is `one_winner`.
-/

namespace EventSourcing

/-- The commits of a stream are left alone. -/
def Operation.Elsewhere (s : StreamId) : Operation → Prop
  | .commit a => a.stream ≠ s
  | .dropStore | .purgeAll => False
  | .purge tenant => tenant ≠ s.tenant
  | .deleteStream t => t ≠ s
  | _ => True

/-- A stream is as before after an operation elsewhere. -/
theorem Memory.Sound.ofStream_elsewhere {m : Memory} {ts : List Int} (h : m.Sound ts)
    {s : StreamId} {op : Operation} (hop : op.Elsewhere s) :
    (engine op m).2.ledger.ofStream s = m.ledger.ofStream s := by
  cases op with
  | commit a =>
    show (Memory.commit a m).2.ledger.ofStream s = m.ledger.ofStream s
    obtain he | ⟨he, -⟩ := commit_cases h.kept a <;> rw [he]
    have hne : (a.confirm (m.ledger.lastCheckpoint + 1)).stream ≠ s := hop
    show (m.ledger.append _).ofStream s = m.ledger.ofStream s
    rw [Ledger.ofStream_append, if_neg hne, List.append_nil]
  | addSnapshot t =>
    show (m.ledger.addSnapshot t).2.ofStream s = m.ledger.ofStream s
    obtain ⟨-, he⟩ | ⟨-, he⟩ := h.kept.addSnapshot_cases t <;> rw [he]
    rfl
  | purge tenant =>
    have hne : decide (s.tenant ≠ tenant) = true := decide_eq_true (Ne.symm hop)
    exact (Ledger.ofStream_retain _ _ s).trans (if_pos hne)
  | deleteStream t =>
    have hne : decide (s ≠ t) = true := decide_eq_true (Ne.symm hop)
    exact (Ledger.ofStream_retain _ _ s).trans (if_pos hne)
  | read | snapshot | streamsToSnapshot | setUp => rfl
  | dropStore | purgeAll => exact absurd hop id

namespace Handle

variable {h : Handle} {first last : Nat} {cs : List Commit} {c : Commit} {l : Ledger}

/-- Merging sees no ids but those of the commits that are merged. -/
theorem merge_stream_seen (h : Handle) (cs : List Commit) :
    (h.merge first last cs).stream = h.stream ∧
      ∀ i ∈ (h.merge first last cs).seen, i ∈ h.seen ∨ ∃ c ∈ cs, c.id = i := by
  induction cs generalizing h with
  | nil => exact ⟨rfl, fun i hi => .inl hi⟩
  | cons c cs ih =>
    have hcons (g : Handle) (hg : ∀ i ∈ g.seen, i ∈ h.seen ∨ i = c.id) :
        ∀ i ∈ (g.merge first last cs).seen, i ∈ h.seen ∨ ∃ d ∈ c :: cs, d.id = i := by
      intro i hi
      rcases (ih g).2 i hi with hi | ⟨d, hd, he⟩
      · refine (hg i hi).imp_right fun he => ⟨c, List.mem_cons_self .., he.symm⟩
      · exact .inr ⟨d, List.mem_cons_of_mem _ hd, he⟩
    rw [merge]
    split
    · exact ⟨(ih h).1, hcons h fun i hi => .inl hi⟩
    simp only
    split
    · refine ⟨rfl, fun i hi => ?_⟩
      rcases List.mem_cons.1 hi with rfl | hi
      · exact .inr ⟨c, List.mem_cons_self .., rfl⟩
      · exact .inl hi
    · obtain ⟨hstream, hseen⟩ := takeEvents_stream_seen
        { h with
          seen := c.id :: h.seen
          sequence := c.sequence
          committedHeaders := Fields.merge h.committedHeaders c.headers }
        first last c.firstRevision c.events
      refine ⟨(ih _).1.trans hstream, hcons _ fun i hi => ?_⟩
      rw [hseen] at hi
      exact (List.mem_cons.1 hi).symm

/-- The handle with a commit taken over that begins right after it. -/
def takeOver (c : Commit) (h : Handle) : Handle :=
  { h with
    committed := h.committed ++ c.events
    committedHeaders := Fields.merge h.committedHeaders c.headers
    seen := c.id :: h.seen
    revision := c.revision
    sequence := c.sequence }

/-- The handle stands at the end of these commits, and has seen no others. -/
structure AtEnd (h : Handle) (cs : List Commit) : Prop where
  sequence : h.sequence = cs.length
  revision : h.revision = (eventsOf cs).length
  seen : ∀ i ∈ h.seen, ∃ c ∈ cs, c.id = i

namespace AtEnd

/-- What a handle at the end of a stream makes of one commit more: of its own one, which it merges
by itself, and of another writer's, after which it catches up. -/
theorem takes (ha : h.AtEnd cs) (hk : l.Kept) (hl : l.ofStream h.stream = cs ++ [c])
    (hm : c.revision ≤ maxRevision) :
    h.merge (nextRevision h.revision) c.revision [c] = h.takeOver c ∧
      h.refreshed l = h.takeOver c := by
  have hcont := hk.history h.stream
  have hid := hk.ids h.stream
  rw [hl] at hcont hid
  obtain ⟨-, hnext⟩ := Continues.append_iff.1 hcont
  obtain ⟨hne, hs, hr, -⟩ := hnext
  have hlen := List.length_pos_iff.2 hne
  rw [Nat.zero_add] at hs hr
  have hnew : c.id ∉ h.seen := fun hseen => by
    obtain ⟨d, hd, he⟩ := ha.seen _ hseen
    rw [List.map_append, List.nodup_append] at hid
    exact hid.2.2 _ (List.mem_map_of_mem hd) _ (List.mem_singleton_self _) he
  have hevents : (eventsOf (cs ++ [c])).length = c.revision := by
    rw [eventsOf_append, List.length_append, eventsOf_cons, eventsOf_nil, List.append_nil, hr]
  constructor
  · have hfirst : nextRevision h.revision = (eventsOf cs).length + 1 := by
      rw [ha.revision]
      exact Nat.min_eq_left (by omega)
    have hsingle : Continues cs.length (eventsOf cs).length [c] := ⟨hne, hs, hr, trivial⟩
    have hwindow : window (eventsOf cs).length ((eventsOf cs).length + 1) c.revision
        (eventsOf [c]) = c.events := by
      rw [eventsOf_cons, eventsOf_nil, List.append_nil]
      exact window_eq_self (Nat.le_refl _) hr.ge
    rw [hfirst, merge_eq hsingle (by simp; omega) (by simpa using hnew) (by simp)
      (fun d hd => ?_), hwindow, if_neg hne, takeOver]
    · simp [hs, hr]
    · rw [List.mem_singleton.1 hd]
      have := Commit.firstRevision_eq hne hr hm
      omega
  · rw [refreshed, Ledger.read_revisions, hl, merge_rest hcont hid (by omega) (fun d hd hlt => ?_)
      (fun d hd => ?_) ha.revision.le (by rw [ha.revision]; omega), takeOver]
    · simp [hs, hr, eventsOf_append]
    · have := ((Continues.append_iff.1 hcont).1.revision_le hd).2
      rw [ha.revision] at hlt
      omega
    · rw [List.mem_singleton.1 hd]
      exact hnew

end AtEnd
end Handle

/-- A handle that was opened is on its stream, and has seen no commits but those of the stream. -/
theorem Opening.stream_seen {m : Memory} {o : Opening} {h : Handle} (hr : m.readsDisabled = false)
    (hopen : (o.program.run Memory.engine m).value = .ok h) :
    h.stream = o.stream ∧ ∀ i ∈ h.seen, ∃ c ∈ m.ledger.ofStream o.stream, c.id = i := by
  have hread {first last lo hi : Nat} (s : StreamId) : ∀ i ∈ ((Handle.create s).merge first last
      (m.ledger.read (.revisions s lo hi))).seen, ∃ c ∈ m.ledger.ofStream s, c.id = i := by
    intro i hi
    rcases (Handle.merge_stream_seen _ _).2 i hi with hi | ⟨c, hc, he⟩
    · simp [Handle.create] at hi
    · rw [Ledger.read_revisions] at hc
      exact ⟨c, List.mem_of_mem_filter hc, he⟩
  cases o with
  | create s =>
    obtain rfl : Handle.create s = h := Except.ok.inj hopen
    exact ⟨rfl, by simp [Handle.create]⟩
  | window s first last =>
    have hvalue := (Handle.run_openWindow hr s first last).symm.trans hopen
    split at hvalue
    · cases hvalue
    · obtain rfl := Except.ok.inj hvalue
      exact ⟨(Handle.merge_stream_seen _ _).1, hread s⟩
  | fromSnapshot t last =>
    obtain rfl := Except.ok.inj ((Handle.run_openFromSnapshot hr t last).symm.trans hopen)
    exact ⟨(Handle.merge_stream_seen _ _).1, hread t.stream⟩

/-- A writer who enters a race: what it opens and has then, what it stages, and the id and the stamp
under which it commits. -/
structure Entrant where
  opening : Opening
  handle : Handle
  staged : List Event
  headers : Fields := []
  id : CommitId
  stamp : Stamp := ⟨0⟩

namespace Entrant

variable {e : Entrant} {m : Memory} {s : StreamId}

/-- The handle with everything staged. -/
def ready (e : Entrant) : Handle :=
  { e.handle with uncommitted := e.staged, uncommittedHeaders := e.headers }

/-- The writer at the start of its commit. -/
def client (e : Entrant) : Client :=
  ⟨e.opening.base, e.ready, some (e.ready.commitChanges e.id e.stamp)⟩

/-- What the writer attempts. -/
def attempt (e : Entrant) : Attempt := e.ready.attempt e.id e.stamp

/-- The handle was opened in this store and stands at the head of the stream, something is staged
for which there is room, and the id is new to the stream. -/
structure Enters (e : Entrant) (m : Memory) (s : StreamId) : Prop where
  stream : e.opening.stream = s
  opened : (e.opening.program.run Memory.engine m).value = .ok e.handle
  head : (e.handle.sequence, e.handle.revision) = m.ledger.headOf s
  staged : e.staged ≠ []
  fresh : ∀ c ∈ m.ledger.ofStream s, c.id ≠ e.id
  room : (m.ledger.headOf s).2 + e.staged.length ≤ maxRevision

theorem Enters.ready_stream (he : e.Enters m s) (hr : m.readsDisabled = false) :
    e.ready.stream = s :=
  (Opening.stream_seen hr he.opened).1.trans he.stream

theorem Enters.atEnd (he : e.Enters m s) (hk : m.ledger.Kept) (hr : m.readsDisabled = false) :
    e.ready.AtEnd (m.ledger.ofStream s) := by
  have hhead := he.head
  rw [hk.headOf_eq, Prod.mk.injEq] at hhead
  refine ⟨hhead.1, hhead.2, fun i hi => ?_⟩
  have := (Opening.stream_seen hr he.opened).2 i hi
  rwa [he.stream] at this

theorem Enters.revision_le (he : e.Enters m s) (hk : m.ledger.Kept) (hr : m.readsDisabled = false) :
    e.attempt.revision ≤ maxRevision := by
  have hroom := he.room
  rw [hk.headOf_eq, ← (he.atEnd hk hr).revision] at hroom
  exact hroom

/-- The first call of a commit is that of the attempt, for something is staged and the id is new to
the handle. -/
theorem Enters.client_pending (he : e.Enters m s) (hk : m.ledger.Kept)
    (hr : m.readsDisabled = false) :
    e.client.pending = some (e.ready.submit e.id e.stamp) := by
  have hseen : e.id ∉ e.ready.seen := fun hmem => by
    obtain ⟨c, hc, hid⟩ := (he.atEnd hk hr).seen _ hmem
    exact he.fresh c hc hid
  show some (e.ready.commitChanges e.id e.stamp) = _
  rw [Handle.commitChanges, if_neg (by rw [List.isEmpty_iff]; exact he.staged), if_neg hseen]

end Entrant

/-- A world, and the answers that writers were given in it. -/
structure Race where
  world : World
  answers : List (Nat × Except Fault (Option Commit)) := []

/-- What happens in a race: an operation of somebody without a handle, or the commit of a writer
makes its next call. -/
inductive Beat where
  | perform (op : Operation)
  | advance (writer : Nat)
  deriving DecidableEq

namespace Race

/-- The race after a beat. -/
def beat (r : Race) : Beat → Race
  | .perform op => { r with world := r.world.turn (.perform op) }
  | .advance i =>
    ⟨(r.world.advance i).1, r.answers ++ ((r.world.advance i).2.map fun a => (i, a)).toList⟩

/-- The answers that a writer was given. -/
def answersTo (r : Race) (i : Nat) : List (Except Fault (Option Commit)) :=
  (r.answers.filter fun a => a.1 = i).map (·.2)

end Race

/-- The race of some writers on a store, after some beats. -/
def Entrant.race (es : List Entrant) (m : Memory) (beats : List Beat) : Race :=
  beats.foldl Race.beat ⟨⟨m, es.map (·.client)⟩, []⟩

/-- How a writer stands in a race after some calls of its own, with the winner so far. -/
inductive Standing (e : Entrant) (i : Nat) (winner : Option (Nat × Commit)) (calls : Nat) :
    Client → List (Except Fault (Option Commit)) → Prop
  /-- It has made no call. -/
  | ready (hw : ∀ c, winner ≠ some (i, c)) (hcalls : calls = 0) :
    Standing e i winner calls e.client []
  /-- It was told of the winner, and has still to reload. -/
  | beaten {k c} (hw : winner = some (k, c)) (hk : k ≠ i) (hcalls : calls ≤ 1) :
    Standing e i winner calls
      { e.client with pending := some (e.ready.reload (fun g => g) (.error e.attempt.conflict)) } []
  /-- It has the winner's commit, and what it had staged. -/
  | lost {k c} (hw : winner = some (k, c)) (hk : k ≠ i) :
    Standing e i winner calls ⟨e.opening.base, e.ready.takeOver c, none⟩
      [.error e.attempt.conflict]
  /-- What it had staged is written. -/
  | won {c} (hw : winner = some (i, c)) :
    Standing e i winner calls ⟨e.opening.base, (e.ready.takeOver c).clearChanges, none⟩
      [.ok (some c)]

/-- For others nothing changes when a writer wins. -/
theorem Standing.of_none {e : Entrant} {i k calls : Nat} {d : Client} {c : Commit}
    {answers : List (Except Fault (Option Commit))} (h : Standing e i none calls d answers)
    (hk : k ≠ i) : Standing e i (some (k, c)) calls d answers := by
  cases h with
  | ready hw hcalls =>
    refine .ready (fun d hd => ?_) hcalls
    cases hd
    exact hk rfl
  | beaten hw => cases hw
  | lost hw => cases hw
  | won hw => cases hw

/-- A writer without a commit under way stands the same after any number of calls. -/
theorem Standing.of_done {e : Entrant} {i calls : Nat} {winner : Option (Nat × Commit)}
    {d : Client} {answers : List (Except Fault (Option Commit))}
    (h : Standing e i winner calls d answers) (hd : d.pending = none) (n : Nat) :
    Standing e i winner n d answers := by
  cases h with
  | ready | beaten => cases hd
  | lost hw hk => exact .lost hw hk
  | won hw => exact .won hw

/-- A writer with two calls of its own behind it is done. -/
theorem Standing.answered {e : Entrant} {i calls : Nat} {winner : Option (Nat × Commit)}
    {d : Client} {answers : List (Except Fault (Option Commit))}
    (h : Standing e i winner calls d answers) (hcalls : 2 ≤ calls) : answers ≠ [] := by
  cases h with
  | ready hw h0 => omega
  | beaten hw hk h1 => omega
  | lost hw hk => exact List.cons_ne_nil _ _
  | won hw => exact List.cons_ne_nil _ _

/-- What is true of a race after some beats, with the winner so far. -/
structure Race.Stands (r : Race) (es : List Entrant) (m : Memory) (s : StreamId)
    (beats : List Beat) (winner : Option (Nat × Commit)) : Prop where
  memory : ∃ ts, r.world.memory.Sound ts
  stream : r.world.memory.ledger.ofStream s
    = m.ledger.ofStream s ++ (winner.map (·.2)).toList
  entered : ∀ k c, winner = some (k, c) → ∃ e n, es[k]? = some e ∧ c = e.attempt.confirm n
  length : r.world.clients.length = es.length
  standing : ∀ i e, es[i]? = some e → ∃ d, r.world.clients[i]? = some d ∧
    Standing e i winner (beats.count (Beat.advance i)) d (r.answersTo i)

/-- The commit of a writer under way makes its next call. -/
theorem World.advance_of_step {w : World} {i : Nat} {c : Client} {m' : Memory}
    {p p' : Program (Handle × Except Fault (Option Commit))} (hc : w.clients[i]? = some c)
    (hp : c.pending = some p) (hs : p.step Memory.engine w.memory = (p', m')) :
    (p'.result? = none →
      w.advance i = (⟨m', w.clients.set i { c with pending := some p' }⟩, none)) ∧
    ∀ g answer, p'.result? = some (g, answer) →
      w.advance i = (⟨m', w.clients.set i ⟨c.base, g, none⟩⟩, some answer) := by
  obtain ⟨base, h, pending⟩ := c
  cases hp
  unfold World.advance
  rw [hc]
  constructor
  · intro hr
    simp [hs, hr]
  · intro g answer hr
    simp [hs, hr]

namespace Race

variable {r : Race} {es : List Entrant} {m : Memory} {s : StreamId} {beats : List Beat}
  {winner : Option (Nat × Commit)} {i : Nat} {e : Entrant}

theorem answersTo_append (r : Race) (w : World) (i j : Nat)
    (a : Option (Except Fault (Option Commit))) :
    answersTo ⟨w, r.answers ++ (a.map fun a => (i, a)).toList⟩ j
      = r.answersTo j ++ if j = i then a.toList else [] := by
  unfold answersTo
  rw [List.filter_append, List.map_append]
  by_cases hj : j = i
  · subst hj
    cases a <;> simp
  · cases a <;> simp [hj, Ne.symm hj]

theorem count_advance (beats : List Beat) (i j : Nat) :
    (beats ++ [Beat.advance i]).count (Beat.advance j)
      = beats.count (Beat.advance j) + if j = i then 1 else 0 := by
  rw [List.count_append, List.count_singleton]
  by_cases hj : j = i
  · simp [hj]
  · simp [hj, Ne.symm hj]

namespace Stands

/-- A writer moves on, and the others stand as they did. -/
theorem move (h : r.Stands es m s beats winner) (he : es[i]? = some e) {m' : Memory} {d : Client}
    {a : Option (Except Fault (Option Commit))} {winner' : Option (Nat × Commit)}
    (hm : ∃ ts, m'.Sound ts)
    (hs : m'.ledger.ofStream s = m.ledger.ofStream s ++ (winner'.map (·.2)).toList)
    (hw : winner' = winner ∨ winner = none ∧ ∃ c n, winner' = some (i, c) ∧
      c = e.attempt.confirm n)
    (hd : Standing e i winner' (beats.count (Beat.advance i) + 1) d (r.answersTo i ++ a.toList)) :
    Stands ⟨⟨m', r.world.clients.set i d⟩, r.answers ++ (a.map fun a => (i, a)).toList⟩ es m s
      (beats ++ [.advance i]) winner' where
  memory := hm
  stream := hs
  entered k c hk := by
    rcases hw with rfl | ⟨-, c', n, rfl, hc⟩
    · exact h.entered k c hk
    · cases hk
      exact ⟨e, n, he, hc⟩
  length := by rw [List.length_set, h.length]
  standing j f hj := by
    rw [answersTo_append, count_advance]
    by_cases hji : j = i
    · subst hji
      rw [he] at hj
      cases hj
      rw [if_pos rfl, if_pos rfl]
      obtain ⟨c, hc, -⟩ := h.standing j e he
      exact ⟨d, List.getElem?_set_self (List.getElem?_eq_some_iff.1 hc).1, hd⟩
    · obtain ⟨c, hc, hstanding⟩ := h.standing j f hj
      rw [if_neg hji, if_neg hji, List.append_nil, Nat.add_zero]
      refine ⟨c, (List.getElem?_set_ne (Ne.symm hji)).trans hc, ?_⟩
      rcases hw with rfl | ⟨rfl, c', n, rfl, -⟩
      · exact hstanding
      · exact hstanding.of_none (Ne.symm hji)

/-- The id of a writer that has not won is new to the stream still. -/
theorem fresh (h : r.Stands es m s beats winner) (he : es[i]? = some e)
    (hes : ∀ e ∈ es, e.Enters m s) (hids : (es.map (·.id)).Nodup)
    (hw : ∀ c, winner ≠ some (i, c)) :
    ∀ c ∈ r.world.memory.ledger.ofStream s, c.id ≠ e.id := by
  intro c hc hid
  rw [h.stream] at hc
  rcases List.mem_append.1 hc with hc | hc
  · exact (hes e (List.mem_of_getElem? he)).fresh c hc hid
  · obtain ⟨⟨k, d⟩, hwin, rfl⟩ := Option.map_eq_some_iff.1 (Option.mem_toList.1 hc)
    obtain ⟨f, n, hf, rfl⟩ := h.entered k d hwin
    have hk : (es.map (·.id))[k]? = some f.id := by rw [List.getElem?_map, hf]; rfl
    have hi : (es.map (·.id))[i]? = some f.id := by
      rw [List.getElem?_map, he]
      exact congrArg some hid.symm
    obtain rfl : k = i :=
      (List.getElem?_inj (List.getElem?_eq_some_iff.1 hk).1 hids).1 (hk.trans hi.symm)
    exact hw _ hwin

section Calls

variable (h : r.Stands es m s beats winner) (he : es[i]? = some e) (hk : m.ledger.Kept)
  (hr : m.readsDisabled = false) (hes : ∀ e ∈ es, e.Enters m s)
include h he hk hr hes

/-- The first call of a writer wins if nobody has won, and is told of a conflict otherwise. -/
theorem firstCall (hids : (es.map (·.id)).Nodup) (hw : ∀ c, winner ≠ some (i, c))
    (hcalls : beats.count (Beat.advance i) = 0)
    (hd : r.world.clients[i]? = some e.client) (ha : r.answersTo i = []) :
    ∃ winner', (r.beat (.advance i)).Stands es m s (beats ++ [.advance i]) winner' := by
  obtain ⟨ts, hm⟩ := h.memory
  have hin := hes e (List.mem_of_getElem? he)
  have hstream : e.ready.stream = s := hin.ready_stream hr
  have hend := hin.atEnd hk hr
  have hnew := h.fresh he hes hids hw
  have hpending := hin.client_pending hk hr
  have hsubmit := e.ready.submit_cases hm.kept hm.commits hin.staged e.id e.stamp
  have hsequence : e.ready.sequence = (m.ledger.ofStream s).length := hend.sequence
  have hrevision : e.ready.revision = (eventsOf (m.ledger.ofStream s)).length := hend.revision
  have hroom : e.ready.revision + e.staged.length ≤ maxRevision := hin.revision_le hk hr
  have hstaged : 0 < e.staged.length := List.length_pos_iff.2 hin.staged
  have hle := (hk.history s).length_le
  rw [hstream, h.stream] at hsubmit
  rw [h.stream] at hnew
  obtain ⟨c, hc, hid, -⟩ | ⟨-, hsubmit⟩ := hsubmit
  · exact absurd hid (hnew c hc)
  cases winner with
  | none =>
    simp only [Option.map_none, Option.toList_none, List.append_nil] at hsubmit
    obtain ⟨hbehind, -⟩ | ⟨-, hgap⟩ | ⟨-, c, hc, hs⟩ := hsubmit
    · omega
    · exact absurd ⟨hsequence, hrevision, by omega⟩ hgap
    have hkept := hm.program_step (e.ready.submit e.id e.stamp)
    rw [hs] at hkept
    have hgrown : (r.world.memory.ledger.append c).ofStream s = m.ledger.ofStream s ++ [c] := by
      have hcs : c.stream = s := by rw [hc]; exact hstream
      rw [Ledger.ofStream_append, if_pos hcs, h.stream]
      simp
    have hmax : c.revision ≤ maxRevision := by
      rw [hc]
      exact hroom
    have htakes := (hend.takes hkept.choose_spec.kept (hstream.symm ▸ hgrown) hmax).1
    refine ⟨some (i, c), ?_⟩
    rw [beat, (World.advance_of_step hd hpending hs).2 _ _ rfl, htakes]
    exact h.move he hkept hgrown (.inr ⟨rfl, c, _, rfl, hc⟩) (ha ▸ .won rfl)
  | some kc =>
    obtain ⟨k, c⟩ := kc
    have hlen : (m.ledger.ofStream s ++ [c]).length = (m.ledger.ofStream s).length + 1 :=
      List.length_append
    simp only [Option.map_some, Option.toList_some] at hsubmit
    obtain ⟨-, hs⟩ | ⟨hnot, -⟩ | ⟨⟨hat, -⟩, -⟩ := hsubmit
    · refine ⟨some (k, c), ?_⟩
      rw [beat, (World.advance_of_step hd hpending hs).1 rfl]
      refine h.move he (a := none) ⟨ts, hm⟩ h.stream (.inl rfl) (ha ▸ ?_)
      exact .beaten rfl (fun hki => hw c (hki ▸ rfl)) (by omega)
    · exact absurd (.inl (by omega)) hnot
    · omega

/-- A writer that was told of the winner takes its commit over, and is done. -/
theorem secondCall {k : Nat} {c : Commit} (hw : winner = some (k, c)) (hki : k ≠ i)
    (hd : r.world.clients[i]? = some { e.client with
      pending := some (e.ready.reload (fun g => g) (.error e.attempt.conflict)) })
    (ha : r.answersTo i = []) :
    ∃ winner', (r.beat (.advance i)).Stands es m s (beats ++ [.advance i]) winner' := by
  obtain ⟨ts, hm⟩ := h.memory
  have hin := hes e (List.mem_of_getElem? he)
  have hstream : e.ready.stream = s := hin.ready_stream hr
  obtain ⟨ns, hs⟩ := e.ready.step_reload hm.reads (fun g => g) (.error e.attempt.conflict)
  have hgrown : r.world.memory.ledger.ofStream e.ready.stream = m.ledger.ofStream s ++ [c] := by
    rw [hstream, h.stream, hw]
    rfl
  have hmax : c.revision ≤ maxRevision := by
    obtain ⟨f, n, hf, rfl⟩ := h.entered k c hw
    exact (hes f (List.mem_of_getElem? hf)).revision_le hk hr
  have htakes := ((hin.atEnd hk hr).takes hm.kept hgrown hmax).2
  rw [htakes] at hs
  refine ⟨winner, ?_⟩
  rw [beat, (World.advance_of_step hd rfl hs).2 _ _ rfl]
  exact h.move he ⟨ts, hm⟩ h.stream (.inl rfl) (ha ▸ .lost hw hki)

end Calls

/-- The race stays as it is for a writer without a commit under way. -/
theorem rest (h : r.Stands es m s beats winner)
    (hi : ∀ d, r.world.clients[i]? = some d → d.pending = none) :
    (r.beat (.advance i)).Stands es m s (beats ++ [.advance i]) winner := by
  have hadvance : r.world.advance i = (r.world, none) := by
    obtain hnone | ⟨d, p, hd, hp, -⟩ := r.world.advance_cases i
    · exact hnone
    · rw [hi d hd] at hp
      cases hp
  rw [Race.beat, hadvance]
  refine ⟨h.memory, h.stream, h.entered, h.length, fun j f hj => ?_⟩
  obtain ⟨d, hd, hstanding⟩ := h.standing j f hj
  refine ⟨d, hd, ?_⟩
  rw [answersTo_append, count_advance]
  by_cases hji : j = i
  · subst hji
    rw [if_pos rfl, if_pos rfl, Option.toList_none, List.append_nil]
    exact hstanding.of_done (hi d hd) _
  · rwa [if_neg hji, if_neg hji, List.append_nil, Nat.add_zero]

/-- One beat of a race. -/
theorem beat (h : r.Stands es m s beats winner) (hk : m.ledger.Kept) (hr : m.readsDisabled = false)
    (hes : ∀ e ∈ es, e.Enters m s) (hids : (es.map (·.id)).Nodup) {b : Beat}
    (hb : ∀ op, b = .perform op → op.Elsewhere s) :
    ∃ winner', (r.beat b).Stands es m s (beats ++ [b]) winner' := by
  cases b with
  | perform op =>
    obtain ⟨ts, hm⟩ := h.memory
    refine ⟨winner, ⟨_, hm.step op⟩, ?_, h.entered, h.length, fun i e he => ?_⟩
    · exact (hm.ofStream_elsewhere (hb op rfl)).trans h.stream
    · obtain ⟨d, hd, hstanding⟩ := h.standing i e he
      refine ⟨d, hd, ?_⟩
      rwa [List.count_append, List.count_singleton, if_neg (by simp), Nat.add_zero]
  | advance i =>
    cases he : es[i]? with
    | none =>
      refine ⟨winner, h.rest fun d hd => ?_⟩
      have hi := (List.getElem?_eq_some_iff.1 hd).1
      rw [h.length] at hi
      rw [List.getElem?_eq_none_iff] at he
      omega
    | some e =>
      obtain ⟨d, hd, hstanding⟩ := h.standing i e he
      generalize hn : beats.count (Beat.advance i) = n at hstanding
      generalize ha : r.answersTo i = as at hstanding
      cases hstanding with
      | ready hw hcalls => exact h.firstCall he hk hr hes hids hw (hn.trans hcalls) hd ha
      | beaten hw hki hcalls => exact h.secondCall he hk hr hes hw hki hd ha
      | lost | won =>
        refine ⟨winner, h.rest fun d' hd' => ?_⟩
        rw [hd] at hd'
        cases hd'
        rfl

end Stands

/-- Every race stands somehow. -/
theorem exists_stands (hm : m.Reachable) (hr : m.readsDisabled = false)
    (hc : m.commitsDisabled = false) (hes : ∀ e ∈ es, e.Enters m s)
    (hids : (es.map (·.id)).Nodup) (hbeats : ∀ op, .perform op ∈ beats → op.Elsewhere s) :
    ∃ winner, (Entrant.race es m beats).Stands es m s beats winner := by
  induction beats using List.reverseRecOn with
  | nil =>
    obtain ⟨⟨ts, hsound⟩, -⟩ := hm.sound
    refine ⟨none, ⟨ts, hsound.kept, hr, hc, hsound.last, hsound.consecutive, hsound.stored⟩, ?_,
      nofun, List.length_map _, fun i e he => ?_⟩
    · exact (List.append_nil _).symm
    · refine ⟨e.client, ?_, .ready nofun rfl⟩
      show (es.map _)[i]? = _
      rw [List.getElem?_map, he]
      rfl
  | append_singleton beats b ih =>
    obtain ⟨winner, h⟩ := ih fun op hop => hbeats op (List.mem_append_left _ hop)
    have hrace : Entrant.race es m (beats ++ [b]) = (Entrant.race es m beats).beat b := by
      simp [Entrant.race, List.foldl_append]
    rw [hrace]
    refine h.beat hm.kept hr hes hids fun op hop => hbeats op ?_
    rw [hop]
    exact List.mem_append_right _ (List.mem_singleton_self _)

end Race

/-- **One writer wins.**  Any number of writers stand at the head of one stream, each with its own
handle, something staged and a new id, and each commits once. Whatever the order of their calls, and
whatever happens elsewhere in between, a writer is done after two calls. Once all are done, one of
them has written what it had staged, and that is all that the stream has got; all others were told
of a conflict, have kept what they had staged, and have the winner's commit. -/
theorem one_winner {m : Memory} (hm : m.Reachable) (hr : m.readsDisabled = false)
    (hc : m.commitsDisabled = false) {s : StreamId} {es : List Entrant} (hne : es ≠ [])
    (hes : ∀ e ∈ es, e.Enters m s) (hids : (es.map (·.id)).Nodup) {beats : List Beat}
    (hbeats : ∀ op, .perform op ∈ beats → op.Elsewhere s) :
    (∀ i < es.length, 2 ≤ beats.count (Beat.advance i) →
      (Entrant.race es m beats).answersTo i ≠ []) ∧
    ((∀ i < es.length, (Entrant.race es m beats).answersTo i ≠ []) →
      ∃ k e c, es[k]? = some e ∧ (Entrant.race es m beats).answersTo k = [.ok (some c)] ∧
        (c.stream = s ∧ c.id = e.id ∧ c.events = e.staged ∧ c.headers = e.headers ∧
          c.sequence = (m.ledger.headOf s).1 + 1 ∧
          c.revision = (m.ledger.headOf s).2 + e.staged.length) ∧
        (Entrant.race es m beats).world.memory.ledger.ofStream s = m.ledger.ofStream s ++ [c] ∧
        ∀ i f, i ≠ k → es[i]? = some f →
          (Entrant.race es m beats).answersTo i = [.error (.conflict s
            ((m.ledger.headOf s).2 + f.staged.length) ((m.ledger.headOf s).1 + 1))] ∧
          ∃ d, (Entrant.race es m beats).world.clients[i]? = some d ∧
            d.handle.uncommitted = f.staged ∧ d.handle.uncommittedHeaders = f.headers ∧
            d.handle.revision = c.revision ∧ d.handle.sequence = c.sequence ∧
            d.handle.committed = f.handle.committed ++ c.events) := by
  obtain ⟨winner, h⟩ := Race.exists_stands hm hr hc hes hids hbeats
  refine ⟨fun i hi hcalls => ?_, fun hall => ?_⟩
  · obtain ⟨d, -, hstanding⟩ := h.standing i _ (List.getElem?_eq_getElem hi)
    exact hstanding.answered hcalls
  have hdone {i : Nat} {f : Entrant} (hf : es[i]? = some f) : ∃ k c, winner = some (k, c) ∧
      (i = k → (Entrant.race es m beats).answersTo i = [.ok (some c)]) ∧
      (i ≠ k → (Entrant.race es m beats).answersTo i = [.error f.attempt.conflict] ∧
        (Entrant.race es m beats).world.clients[i]?
          = some ⟨f.opening.base, f.ready.takeOver c, none⟩) := by
    obtain ⟨d, hd, hstanding⟩ := h.standing i f hf
    have hanswered := hall i (List.getElem?_eq_some_iff.1 hf).1
    generalize (Entrant.race es m beats).answersTo i = answers at hstanding hanswered ⊢
    cases hstanding with
    | ready | beaten => exact absurd rfl hanswered
    | lost hw hki => exact ⟨_, _, hw, fun he => absurd he.symm hki, fun _ => ⟨rfl, hd⟩⟩
    | won hw => exact ⟨_, _, hw, fun _ => rfl, fun hne => absurd rfl hne⟩
  have hattempt {f : Entrant} (hf : f ∈ es) : f.attempt.stream = s ∧
      f.attempt.sequence = (m.ledger.headOf s).1 + 1 ∧
      f.attempt.revision = (m.ledger.headOf s).2 + f.staged.length := by
    have hhead := (hes f hf).head
    rw [← hhead]
    exact ⟨(hes f hf).ready_stream hr, rfl, rfl⟩
  obtain ⟨k, c, hw, -⟩ := hdone (List.getElem?_eq_getElem (List.length_pos_iff.2 hne))
  obtain ⟨e, n, he, hce⟩ := h.entered k c hw
  have hstream := h.stream
  rw [hw] at hstream
  obtain ⟨k', c', hw', hwon, -⟩ := hdone he
  cases hw.symm.trans hw'
  obtain ⟨hs, hsequence, hrevision⟩ := hattempt (List.mem_of_getElem? he)
  refine ⟨k, e, c, he, hwon rfl, ?_, hstream, fun i f hik hf => ?_⟩
  · rw [hce]
    exact ⟨hs, rfl, rfl, rfl, hsequence, hrevision⟩
  · obtain ⟨k', c', hw', -, hlost⟩ := hdone hf
    cases hw.symm.trans hw'
    obtain ⟨hanswer, hd⟩ := hlost hik
    obtain ⟨hs, hsequence, hrevision⟩ := hattempt (List.mem_of_getElem? hf)
    rw [Attempt.conflict, hs, hsequence, hrevision] at hanswer
    exact ⟨hanswer, _, hd, rfl, rfl, rfl, rfl, rfl⟩

/-- A store with one stream of two events and a snapshot at the second. -/
def snapshotStore : Memory :=
  Memory.after [.commit (Memory.sampleAttempt "a" 1 2 2 1),
    .addSnapshot ⟨⟨"tenant", "a"⟩, 2, ⟨"state", .null⟩⟩]

/-- A writer at the head of this stream that shows some of its events and has so many staged. -/
def headWriter (opening : Opening) (shown : List Event) (staged : Nat) (id : UInt8) : Entrant where
  opening := opening
  handle :=
    { stream := ⟨"tenant", "a"⟩
      committed := shown
      seen := [(Memory.sampleAttempt "a" 1 2 2 1).id]
      revision := 2
      sequence := 1 }
  staged := (Memory.sampleAttempt "a" 2 (2 + staged) staged id).events
  id := (Memory.sampleAttempt "a" 2 (2 + staged) staged id).id

/-- Three writers, one with the whole stream, one with its last event, and one from the snapshot,
with different numbers of events staged. -/
def threeWriters : List Entrant :=
  [headWriter (.window ⟨"tenant", "a"⟩ 0 maxRevision) (Memory.sampleAttempt "a" 1 2 2 1).events 1 2,
    headWriter (.window ⟨"tenant", "a"⟩ 2 maxRevision)
      ((Memory.sampleAttempt "a" 1 2 2 1).events.drop 1) 3 3,
    headWriter (.fromSnapshot ⟨⟨"tenant", "a"⟩, 2, ⟨"state", .null⟩⟩ maxRevision) [] 2 4]

/-- The second writer comes first; the first one is told, and reloads after the third one. -/
def threeWritersBeats : List Beat :=
  [.perform (.commit (Memory.sampleAttempt "b" 1 1 1 1)), .advance 1, .advance 0, .advance 2,
    .advance 2, .perform (.commit (Memory.sampleAttempt "b" 2 2 1 2)), .advance 0, .advance 1]

theorem one_winner_threeWriters :
    (∀ e ∈ threeWriters, e.Enters snapshotStore ⟨"tenant", "a"⟩) ∧
      (threeWriters.map (·.id)).Nodup ∧
      (∀ op, .perform op ∈ threeWritersBeats → op.Elsewhere ⟨"tenant", "a"⟩) ∧
      ∃ k e c, threeWriters[k]? = some e ∧
        (Entrant.race threeWriters snapshotStore threeWritersBeats).answersTo k = [.ok (some c)] ∧
        ∀ i f, i ≠ k → threeWriters[i]? = some f →
          (Entrant.race threeWriters snapshotStore threeWritersBeats).answersTo i
            = [.error (.conflict ⟨"tenant", "a"⟩ (2 + f.staged.length) 2)] := by
  have henter : ∀ e ∈ threeWriters, e.Enters snapshotStore ⟨"tenant", "a"⟩ := by
    simp only [threeWriters, List.mem_cons, List.not_mem_nil, or_false]
    rintro e (rfl | rfl | rfl) <;>
      exact ⟨rfl, by decide +kernel, by decide +kernel, by decide +kernel, by decide +kernel,
        by decide +kernel⟩
  have hids : (threeWriters.map (·.id)).Nodup := by decide
  have hbeats : ∀ op, .perform op ∈ threeWritersBeats → op.Elsewhere ⟨"tenant", "a"⟩ := by
    intro op hop
    simp only [threeWritersBeats, List.mem_cons, Beat.perform.injEq, reduceCtorEq, false_or,
      List.not_mem_nil, or_false] at hop
    rcases hop with rfl | rfl <;> exact (by decide : (⟨"tenant", "b"⟩ : StreamId) ≠ ⟨"tenant", "a"⟩)
  have hhead : snapshotStore.ledger.headOf ⟨"tenant", "a"⟩ = (1, 2) := by decide +kernel
  have htwice : ∀ i < 3, 2 ≤ threeWritersBeats.count (Beat.advance i) := by decide
  obtain ⟨hcalls, hend⟩ := one_winner (m := snapshotStore) (Memory.reachable_after _)
    (by decide +kernel) (by decide +kernel) (by decide) henter hids hbeats
  obtain ⟨k, e, c, he, hanswer, -, -, hothers⟩ := hend fun i hi => hcalls i hi (htwice i hi)
  refine ⟨henter, hids, hbeats, k, e, c, he, hanswer, fun i f hik hf => ?_⟩
  have hlost := (hothers i f hik hf).1
  rwa [hhead] at hlost

end EventSourcing
