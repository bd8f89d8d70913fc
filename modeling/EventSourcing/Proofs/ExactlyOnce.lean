import EventSourcing.Proofs.Interleaving

/-!
# Every write counts once

Here handles may be in any state: views of any windows, ahead of their stream or far behind it.
Writers take turns as in `World` and may use one commit id as often as they like, for other events
too, and the store may refuse reads or commits for a while.

A `Journal` is a world together with the ids under which commits were begun and the answers that
named a commit. What is left of a commit under way is one of four programs (`Handle.Owes`): all of
it, the submission after its id was looked for in vain, or a reload after the store has told of
other commits. The next call of each writes what is staged as one commit, or writes nothing
(`Handle.Owes.step`). Since a stream keeps one commit of an id, all who are told of a commit under
that id are told of the same one (`Journal.writes_once`).
-/

namespace EventSourcing

namespace Program

variable {σ α : Type}

/-- The next operation of a program. -/
def nextCall? : Program α → Option Operation
  | .done _ => none
  | .note _ rest => nextCall? rest
  | .call op _ => some op

/-- A program changes the state by its next operation only. -/
theorem step_state (engine : Engine σ) (p : Program α) (s : σ) :
    (p.step engine s).2 = match p.nextCall? with
      | some op => (engine op s).2
      | none => s := by
  induction p with
  | done a => rfl
  | note ns rest ih => exact ih
  | call op next => rfl

end Program

/-- A commit that is found has the id that was looked for. -/
theorem findItem_eq_some {id : CommitId} {items : List Item} {c : Commit}
    (h : findItem id items = .ok (some c)) : .ok c ∈ items ∧ c.id = id := by
  induction items with
  | nil => cases h
  | cons item rest ih =>
    cases item with
    | error e => cases h
    | ok d =>
      rw [findItem] at h
      split at h
      · rename_i hid
        cases h
        exact ⟨List.mem_cons_self .., hid⟩
      · obtain ⟨hmem, hid⟩ := ih h
        exact ⟨List.mem_cons_of_mem _ hmem, hid⟩

namespace Memory

variable {m : Memory} {ts : List Int}

/-- Whatever the switches, an additive operation lets the ledger of a sound store grow, and the
store stays sound. -/
theorem Sound.ledger_grows (h : Sound { ledger := m.ledger } ts) {op : Operation}
    (hop : op.Additive) : m.ledger.Grows (engine op m).2.ledger ∧
      ∃ ts', Sound { ledger := (engine op m).2.ledger } ts' := by
  obtain he | he := ledger_engine op m
  · rw [he]
    exact ⟨.refl _, ts, h⟩
  · rw [he]
    exact ⟨h.grows hop, _, (h.step op).ofLedger⟩

/-- What an attempt comes to, whatever the switches: it is stored, or the store stays as it is and
the answer is that there was nothing to store, the commit of the same id, or another fault. -/
theorem commit_outcome (h : m.ledger.Kept) (a : Attempt) :
    (∃ d, d.toAttempt = a ∧
      Memory.commit a m = (.ok (some d), { m with ledger := m.ledger.append d })) ∨
    (Memory.commit a m).2 = m ∧ ((Memory.commit a m).1 = .ok none ∨
      (∃ c ∈ m.ledger.ofStream a.stream, c.id = a.id ∧
        (Memory.commit a m).1 = .error (.duplicate c)) ∨
      ∃ e, (∀ c, e ≠ .duplicate c) ∧ (Memory.commit a m).1 = .error e) := by
  obtain he | hrefused := commit_cases h a
  · exact .inl ⟨_, rfl, he⟩
  · exact .inr hrefused

/-- What a read yields is stored. -/
theorem mem_of_mem_read {s : StreamId} {first last : Nat} {c : Commit}
    (h : .ok c ∈ m.read (.revisions s first last)) : c ∈ m.ledger.ofStream s := by
  unfold Memory.read at h
  split at h
  · rw [refusedRead, List.mem_singleton] at h
    cases h
  · obtain ⟨d, hd, he⟩ := List.mem_map.1 h
    cases he
    rw [Ledger.read_revisions] at hd
    exact List.mem_of_mem_filter hd

end Memory

/-- A stream has one commit of an id. -/
theorem Ledger.Kept.filter_id {l : Ledger} (h : l.Kept) {s : StreamId} {c : Commit}
    (hc : c ∈ l.ofStream s) : (l.ofStream s).filter (·.id = c.id) = [c] := by
  have hid := h.ids s
  obtain ⟨pre, post, he⟩ := List.append_of_mem hc
  rw [he, List.map_append, List.map_cons, List.nodup_middle, List.nodup_cons, List.mem_append,
    not_or] at hid
  have hnone (cs : List Commit) (hcs : c.id ∉ cs.map (·.id)) :
      cs.filter (fun d => decide (d.id = c.id)) = [] := by
    refine List.filter_eq_nil_iff.2 fun d hd hdid => hcs ?_
    exact List.mem_map.2 ⟨d, hd, of_decide_eq_true hdid⟩
  rw [he, List.filter_append, List.filter_cons, hnone pre hid.1.1, hnone post hid.1.2,
    if_pos (decide_eq_true rfl), List.nil_append]

namespace Handle

variable {h : Handle} {id : CommitId} {stamp : Stamp} {l l' : Ledger} {m : Memory}
  {p : Program (Handle × Except Fault (Option Commit))}

/-- How a submission goes on after the answer of the store. -/
def settle (h : Handle) : Except Fault (Option Commit) →
    Program (Handle × Except Fault (Option Commit))
  | .ok (some c) =>
    .done ((h.merge (nextRevision h.revision) c.revision [c]).clearChanges, .ok (some c))
  | .ok none => .done (h, .ok none)
  | .error (.duplicate existing) => h.reload clearChanges (.ok (some existing))
  | .error (.conflict stream revision sequence) =>
    h.reload (fun g => g) (.error (.conflict stream revision sequence))
  | .error e => .done (h, .error e)

/-- Submitting to any store is one call, and goes on by its answer. -/
theorem step_submit_on {σ : Type} (h : Handle) (engine : Engine σ) (id : CommitId) (stamp : Stamp)
    (s : σ) : (h.submit id stamp).step engine s
      = (h.settle (engine (.commit (h.attempt id stamp)) s).1.reply,
        (engine (.commit (h.attempt id stamp)) s).2) := by
  have hperform (f : (Operation.commit (h.attempt id stamp)).Reply
      → Program (Handle × Except Fault (Option Commit))) :
      (Program.perform (.commit (h.attempt id stamp)) >>= f).step engine s
        = (f (engine (.commit (h.attempt id stamp)) s).1.reply,
          (engine (.commit (h.attempt id stamp)) s).2) := rfl
  unfold submit
  rw [hperform]
  generalize (engine (.commit (h.attempt id stamp)) s).1.reply = answer
  cases answer with
  | ok c => cases c <;> rfl
  | error e => cases e <;> rfl

/-- Submitting is one call, and goes on by its answer. -/
theorem step_submit (h : Handle) (id : CommitId) (stamp : Stamp) (m : Memory) :
    (h.submit id stamp).step Memory.engine m
      = (h.settle (Memory.commit (h.attempt id stamp) m).1,
        (Memory.commit (h.attempt id stamp) m).2) :=
  h.step_submit_on Memory.engine id stamp m

/-- What is left of a commit under way: all of it, the submission after the id was looked for in
vain, or a reload after the store has told of the commit of the id, or of other writers. -/
inductive Owes (h : Handle) (id : CommitId) (l : Ledger) :
    Program (Handle × Except Fault (Option Commit)) → Prop
  | start (stamp : Stamp) : Owes h id l (h.commitChanges id stamp)
  | submit (notices : List Notice) (stamp : Stamp) : Owes h id l (.note notices (h.submit id stamp))
  | stored (c : Commit) (hc : c ∈ l.ofStream h.stream) (hid : c.id = id) :
    Owes h id l (h.reload clearChanges (.ok (some c)))
  | beaten (e : Fault) : Owes h id l (h.reload (fun g => g) (.error e))

/-- What is left of a commit is left while the stream grows. -/
theorem Owes.mono (ho : h.Owes id l p) (hl : l.Grows l') : h.Owes id l' p := by
  cases ho with
  | start stamp => exact .start stamp
  | submit notices stamp => exact .submit notices stamp
  | stored c hc hid =>
    obtain ⟨more, hmore⟩ := hl h.stream
    exact .stored c (hmore ▸ List.mem_append_left _ hc) hid
  | beaten e => exact .beaten e

/-- If the next call of a commit under way is an attempt, it is to commit what is staged, and the
commit goes on by its answer. -/
theorem Owes.of_commit (ho : h.Owes id l p) {a : Attempt} (hp : p.nextCall? = some (.commit a)) :
    (∃ stamp, a = h.attempt id stamp) ∧ ∀ m,
      p.step Memory.engine m = (h.settle (Memory.commit a m).1, (Memory.commit a m).2) := by
  have hsubmit (stamp : Stamp) (hp : (h.submit id stamp).nextCall? = some (.commit a)) :
      a = h.attempt id stamp := by
    have hcall : (h.submit id stamp).nextCall? = some (.commit (h.attempt id stamp)) := rfl
    rw [hcall] at hp
    cases hp
    rfl
  cases ho with
  | start stamp =>
    rw [commitChanges] at hp ⊢
    split at hp
    · cases hp
    split at hp
    · cases hp
    · rename_i hne hseen
      obtain rfl := hsubmit stamp hp
      rw [if_neg hne, if_neg hseen]
      exact ⟨⟨stamp, rfl⟩, h.step_submit id stamp⟩
  | submit notices stamp =>
    obtain rfl := hsubmit stamp hp
    exact ⟨⟨stamp, rfl⟩, h.step_submit id stamp⟩
  | stored c hc hid => cases hp
  | beaten e => cases hp

/-- The calls of a commit under way are attempts and reads. -/
theorem Owes.calls (ho : h.Owes id l p) {op : Operation} (hp : p.nextCall? = some op) :
    (∃ a, op = .commit a) ∨ ∃ q, op = .read q := by
  cases ho with
  | start stamp =>
    rw [commitChanges] at hp
    split at hp
    · cases hp
    split at hp
    · cases hp
      exact .inr ⟨_, rfl⟩
    · cases hp
      exact .inl ⟨_, rfl⟩
  | submit notices stamp =>
    cases hp
    exact .inl ⟨_, rfl⟩
  | stored c hc hid | beaten e =>
    cases hp
    exact .inr ⟨_, rfl⟩

/-- What the next call of a commit under way comes to. -/
inductive Comes (h : Handle) (id : CommitId) (m : Memory) :
    Program (Handle × Except Fault (Option Commit)) → Memory → Prop
  /-- There is more to do, and nothing was written. -/
  | goesOn {q} (hq : q.result? = none) (ho : h.Owes id m.ledger q) : Comes h id m q m
  /-- Nothing was written, and the answer names no commit. -/
  | refused {q g answer} (hq : q.result? = some (g, answer)) (hn : ∀ c, answer ≠ .ok (some c)) :
    Comes h id m q m
  /-- Nothing was written, since the stream has a commit of the id. -/
  | found {q g c} (hq : q.result? = some (g, .ok (some c))) (hc : c ∈ m.ledger.ofStream h.stream)
    (hid : c.id = id) : Comes h id m q m
  /-- A commit was written. -/
  | writes {q g c} (hq : q.result? = some (g, .ok (some c))) (hs : c.stream = h.stream)
    (hid : c.id = id) : Comes h id m q { m with ledger := m.ledger.append c }

/-- What a submission comes to. -/
theorem submit_comes (hk : m.ledger.Kept) (h : Handle) (id : CommitId) (stamp : Stamp) :
    h.Comes id m ((h.submit id stamp).step Memory.engine m).1
      ((h.submit id stamp).step Memory.engine m).2 := by
  rw [step_submit]
  obtain ⟨d, hd, he⟩ | ⟨hm, he | ⟨c, hc, hid, he⟩ | ⟨e, hne, he⟩⟩ :=
    Memory.commit_outcome hk (h.attempt id stamp)
  · rw [he]
    exact .writes rfl (congrArg Attempt.stream hd) (congrArg Attempt.id hd)
  · rw [hm, he]
    exact .refused rfl fun c hc => by cases hc
  · rw [hm, he]
    exact .goesOn rfl (.stored c hc hid)
  · rw [hm, he]
    cases e with
    | conflict stream revision sequence => exact .goesOn rfl (.beaten _)
    | duplicate c => exact absurd rfl (hne c)
    | _ => exact .refused rfl fun c hc => by cases hc

/-- A reload writes nothing, and its answer is the one it was given, or a fault of the read. -/
theorem reload_comes (h : Handle) (id : CommitId) {settle : Handle → Handle}
    {result : Except Fault (Option Commit)}
    (hresult : ∀ c, result = .ok (some c) → c ∈ m.ledger.ofStream h.stream ∧ c.id = id) :
    h.Comes id m ((h.reload settle result).step Memory.engine m).1
      ((h.reload settle result).step Memory.engine m).2 := by
  unfold reload refresh
  rw [Program.bind_assoc]
  obtain ⟨ns, hs⟩ := Memory.step_collectItems m
    (.revisions h.stream (nextRevision h.revision) maxRevision) _
  rw [hs]
  cases collectItems (m.read (.revisions h.stream (nextRevision h.revision) maxRevision)) with
  | error e => exact .refused rfl fun c hc => by cases hc
  | ok cs =>
    by_cases hnamed : ∃ c, result = .ok (some c)
    · obtain ⟨c, rfl⟩ := hnamed
      obtain ⟨hc, hid⟩ := hresult c rfl
      exact .found rfl hc hid
    · exact .refused rfl (not_exists.1 hnamed)

/-- **The next call of a commit under way**, for a handle in any state. -/
theorem Owes.step (ho : h.Owes id m.ledger p) (hk : m.ledger.Kept) :
    h.Comes id m (p.step Memory.engine m).1 (p.step Memory.engine m).2 := by
  cases ho with
  | submit notices stamp => exact submit_comes hk h id stamp
  | stored c hc hid =>
    refine h.reload_comes id fun d hd => ?_
    cases hd
    exact ⟨hc, hid⟩
  | beaten e => exact h.reload_comes id fun d hd => by cases hd
  | start stamp =>
    rw [commitChanges]
    split
    · exact .refused rfl fun c hc => by cases hc
    split
    · obtain ⟨ns, hs⟩ := Memory.step_findItem m (.revisions h.stream 0 maxRevision) id _
      rw [hs]
      cases hfound : findItem id (m.read (.revisions h.stream 0 maxRevision)) with
      | error e => exact .refused rfl fun c hc => by cases hc
      | ok found =>
        cases found with
        | none => exact .goesOn rfl (.submit ns stamp)
        | some c =>
          obtain ⟨hmem, hid⟩ := findItem_eq_some hfound
          exact .found rfl (Memory.mem_of_mem_read hmem) hid
    · exact submit_comes hk h id stamp

end Handle

/-- A turn with a commit under way makes its next call; the answer is there once nothing is left. -/
theorem World.advance_pending {w : World} {i : Nat} {c : Client}
    {p : Program (Handle × Except Fault (Option Commit))} (hc : w.clients[i]? = some c)
    (hp : c.pending = some p) : (w.advance i).1.memory = (p.step Memory.engine w.memory).2 ∧
      (w.advance i).2 = (p.step Memory.engine w.memory).1.result?.map (·.2) := by
  obtain ⟨base, h, pending⟩ := c
  cases hp
  unfold World.advance
  rw [hc]
  cases hr : (p.step Memory.engine w.memory).1.result? <;> simp [hr]

/-- An answer that named a commit: to which commit under way, and the commit. -/
structure Told where
  stream : StreamId
  id : CommitId
  commit : Commit

/-- A world, the id under which each writer last began a commit, and the answers so far that named a
commit. -/
structure Journal where
  world : World
  ids : Nat → Option CommitId := fun _ => none
  told : List Told := []

/-- What can happen: a turn of somebody, or the store is told to refuse reads or commits, or to
refuse them no more. -/
inductive Happening where
  | turn (t : Turn)
  | disableReads (on : Bool)
  | disableCommits (on : Bool)

/-- Nothing is deleted. -/
def Happening.Additive : Happening → Prop
  | .turn (.perform op) => op.Additive
  | _ => True

namespace Journal

/-- A writer without a commit under way begins one. -/
def begin (j : Journal) (i : Nat) (id : CommitId) (stamp : Stamp) : Journal :=
  if (j.world.clients[i]?).any (·.pending.isNone) then
    { j with
      world := j.world.turn (.begin i id stamp)
      ids := fun k => if k = i then some id else j.ids k }
  else j

/-- A commit under way makes its next call. If that is the last one and the answer names a commit,
the answer is noted. -/
def advance (j : Journal) (i : Nat) : Journal :=
  { j with
    world := (j.world.advance i).1
    told := match j.world.clients[i]?, j.ids i, (j.world.advance i).2 with
      | some c, some id, some (.ok (some d)) => j.told ++ [⟨c.handle.stream, id, d⟩]
      | _, _, _ => j.told }

/-- The journal after something has happened. -/
def act (j : Journal) : Happening → Journal
  | .turn (.begin i id stamp) => j.begin i id stamp
  | .turn (.advance i) => j.advance i
  | .turn t => { j with world := j.world.turn t }
  | .disableReads on =>
    { j with world := { j.world with memory := { j.world.memory with readsDisabled := on } } }
  | .disableCommits on =>
    { j with world := { j.world with memory := { j.world.memory with commitsDisabled := on } } }

/-- The journals of all that can happen, from a store with any past and writers with any handles. -/
inductive Reachable : Journal → Prop
  | start (ops : List Operation) (clients : List Client) (hc : ∀ c ∈ clients, c.pending = none) :
    Reachable { world := ⟨Memory.after ops, clients⟩ }
  | act {j : Journal} (e : Happening) (hj : Reachable j) (he : e.Additive) : Reachable (j.act e)

/-- What is true of every reachable journal. -/
structure Sound (j : Journal) : Prop where
  memory : ∃ tokens, Memory.Sound { ledger := j.world.memory.ledger } tokens
  owes : ∀ i c p, j.world.clients[i]? = some c → c.pending = some p →
    ∃ id, j.ids i = some id ∧ c.handle.Owes id j.world.memory.ledger p
  told : ∀ t ∈ j.told, t.commit ∈ j.world.memory.ledger.ofStream t.stream ∧ t.commit.id = t.id

namespace Sound

variable {j : Journal}

/-- A change of the store by which its streams grow. -/
theorem grow (h : j.Sound) {m : Memory} (hm : ∃ tokens, Memory.Sound { ledger := m.ledger } tokens)
    (hl : j.world.memory.ledger.Grows m.ledger) :
    Sound { j with world := { j.world with memory := m } } where
  memory := hm
  owes i c p hc hp := by
    obtain ⟨id, hid, ho⟩ := h.owes i c p hc hp
    exact ⟨id, hid, ho.mono hl⟩
  told t ht := by
    obtain ⟨hmem, hid⟩ := h.told t ht
    obtain ⟨more, hmore⟩ := hl t.stream
    exact ⟨hmore ▸ List.mem_append_left _ hmem, hid⟩

/-- A change of one writer, of what it has begun, if what is left of it is known. -/
theorem set (h : j.Sound) (i : Nat) (c : Client) {ids : Nat → Option CommitId}
    (hids : ∀ k, k ≠ i → ids k = j.ids k)
    (ho : ∀ p, c.pending = some p →
      ∃ id, ids i = some id ∧ c.handle.Owes id j.world.memory.ledger p) :
    Sound { j with world := { j.world with clients := j.world.clients.set i c }, ids := ids } where
  memory := h.memory
  told := h.told
  owes k d p hd hp := by
    rcases World.of_getElem?_set hd with ⟨rfl, rfl⟩ | ⟨hk, hd⟩
    · exact ho p hp
    · show ∃ id, ids k = some id ∧ _
      rw [hids k hk]
      exact h.owes k d p hd hp

/-- An answer that names a commit of the stream and the id keeps a journal sound. -/
theorem tell (h : j.Sound) {t : Told} (hmem : t.commit ∈ j.world.memory.ledger.ofStream t.stream)
    (hid : t.commit.id = t.id) : Sound { j with told := j.told ++ [t] } where
  memory := h.memory
  owes := h.owes
  told u hu := by
    rcases List.mem_append.1 hu with hu | hu
    · exact h.told u hu
    · rw [List.mem_singleton.1 hu]
      exact ⟨hmem, hid⟩

/-- The call of a commit under way, and what it comes to. -/
theorem advance_cases (h : j.Sound) (i : Nat) : j.world.advance i = (j.world, none) ∨
    ∃ c id q m, j.world.clients[i]? = some c ∧ j.ids i = some id ∧
      c.handle.Comes id j.world.memory q m ∧
      j.world.memory.ledger.Grows m.ledger ∧
      (∃ tokens, Memory.Sound { ledger := m.ledger } tokens) ∧
      (q.result? = none → j.world.advance i
        = (⟨m, j.world.clients.set i { c with pending := some q }⟩, none)) ∧
      ∀ g answer, q.result? = some (g, answer) → j.world.advance i
        = (⟨m, j.world.clients.set i { c with handle := g, pending := none }⟩, some answer) := by
  obtain ⟨ts, hs⟩ := h.memory
  obtain hnone | ⟨c, p, hc, hp, -, hmore, hlast⟩ := j.world.advance_cases i
  · exact .inl hnone
  obtain ⟨id, hid, ho⟩ := h.owes i c p hc hp
  have hgrows : j.world.memory.ledger.Grows (p.step Memory.engine j.world.memory).2.ledger ∧
      ∃ tokens,
        Memory.Sound { ledger := (p.step Memory.engine j.world.memory).2.ledger } tokens := by
    rw [p.step_state]
    cases hcall : p.nextCall? with
    | none => exact ⟨.refl _, ts, hs⟩
    | some op =>
      obtain ⟨a, rfl⟩ | ⟨q, rfl⟩ := ho.calls hcall
      · exact hs.ledger_grows trivial
      · exact hs.ledger_grows trivial
  exact .inr ⟨c, id, _, _, hc, hid, ho.step hs.kept, hgrows.1, hgrows.2, hmore, hlast⟩

/-- A call keeps a journal sound, and lets streams grow only. -/
theorem advance (h : j.Sound) (i : Nat) : (j.advance i).Sound ∧
    j.world.memory.ledger.Grows (j.advance i).world.memory.ledger := by
  unfold Journal.advance
  obtain hnone | ⟨c, id, q, m, hc, hid, hcomes, hl, hm, hmore, hlast⟩ := h.advance_cases i
  · rw [hnone]
    split
    · rename_i hanswer
      cases hanswer
    · exact ⟨h, .refl _⟩
  rw [hc, hid]
  -- the store after the call, and the writer with its handle back
  have hback (g : Handle) := (h.grow hm hl).set i { c with handle := g, pending := none }
    (fun _ _ => rfl) (fun p hp => by cases hp)
  cases hcomes with
  | goesOn hq ho =>
    rw [hmore hq]
    refine ⟨h.set i _ (fun _ _ => rfl) fun p hp => ⟨id, hid, ?_⟩, hl⟩
    cases hp
    exact ho
  | @refused g answer hq hn =>
    rw [hlast g answer hq]
    refine ⟨?_, hl⟩
    match answer, hn with
    | .ok (some d), hn => exact absurd rfl (hn d)
    | .ok none, _ => exact hback g
    | .error _, _ => exact hback g
  | found hq hmem hdid =>
    rw [hlast _ _ hq]
    exact ⟨(hback _).tell hmem hdid, hl⟩
  | writes hq hs hdid =>
    rw [hlast _ _ hq]
    refine ⟨(hback _).tell ?_ hdid, hl⟩
    show _ ∈ Ledger.ofStream (Ledger.append _ _) _
    rw [Ledger.ofStream_append, if_pos hs]
    exact List.mem_append_right _ (List.mem_singleton_self _)

/-- Beginning a commit keeps a journal sound. -/
theorem begin (h : j.Sound) (i : Nat) (id : CommitId) (stamp : Stamp) :
    (j.begin i id stamp).Sound ∧ (j.begin i id stamp).world.memory = j.world.memory := by
  unfold Journal.begin
  split
  · rename_i hidle
    obtain ⟨c, hc, hnone⟩ := (Option.any_eq_true _ _).1 hidle
    have hturn : j.world.turn (.begin i id stamp) = { j.world with
        clients := j.world.clients.set i
          { c with pending := some (c.handle.commitChanges id stamp) } } := by
      simp only [World.turn, World.idle, hc, hnone, if_true]
    rw [hturn]
    refine ⟨h.set i _ (fun k hk => if_neg hk) fun p hp => ⟨id, if_pos rfl, ?_⟩, rfl⟩
    cases hp
    exact .start stamp
  · exact ⟨h, rfl⟩

/-- Staging keeps a journal sound. -/
theorem stage (h : j.Sound) (i : Nat) (s : Staging) :
    Sound { j with world := j.world.turn (.stage i s) } ∧
      (j.world.turn (.stage i s)).memory = j.world.memory := by
  have hturn : j.world.turn (.stage i s)
      = j.world.idle i fun c => { c with handle := s.apply c.handle } := rfl
  rw [hturn, World.idle]
  split
  · rename_i c hc
    split
    · rename_i hidle
      refine ⟨h.set i _ (fun _ _ => rfl) fun p hp => ?_, rfl⟩
      rw [Option.isNone_iff_eq_none.1 hidle] at hp
      cases hp
    · exact ⟨h, rfl⟩
  · exact ⟨h, rfl⟩

/-- A new writer with any handle keeps a journal sound. -/
theorem join (h : j.Sound) (o : Opening) : Sound { j with world := j.world.turn (.join o) } ∧
    (j.world.turn (.join o)).memory = j.world.memory := by
  have hturn : j.world.turn (.join o) = j.world.join o := rfl
  rw [hturn, World.join]
  split
  · refine ⟨⟨h.memory, fun i c p hc hp => ?_, h.told⟩, rfl⟩
    rcases lt_or_ge i j.world.clients.length with hi | hi
    · rw [List.getElem?_append_left hi] at hc
      exact h.owes i c p hc hp
    · rw [List.getElem?_append_right hi] at hc
      rw [List.mem_singleton.1 (List.mem_of_getElem? hc)] at hp
      cases hp
  · exact ⟨h, rfl⟩

/-- Whatever happens keeps a journal sound, and lets streams grow only. -/
theorem act (h : j.Sound) {e : Happening} (he : e.Additive) :
    (j.act e).Sound ∧ j.world.memory.ledger.Grows (j.act e).world.memory.ledger := by
  obtain ⟨ts, hs⟩ := h.memory
  have hsame {j' : Journal} (h' : j'.Sound ∧ j'.world.memory = j.world.memory) :
      j'.Sound ∧ j.world.memory.ledger.Grows j'.world.memory.ledger := by
    rw [h'.2]
    exact ⟨h'.1, .refl _⟩
  cases e with
  | disableReads on => exact ⟨h.grow ⟨ts, hs⟩ (.refl _), .refl _⟩
  | disableCommits on => exact ⟨h.grow ⟨ts, hs⟩ (.refl _), .refl _⟩
  | turn t =>
    cases t with
    | perform op =>
      obtain ⟨hl, hm⟩ := hs.ledger_grows he
      exact ⟨h.grow hm hl, hl⟩
    | join o => exact hsame (h.join o)
    | stage i s => exact hsame (h.stage i s)
    | begin i id stamp => exact hsame (h.begin i id stamp)
    | advance i => exact h.advance i

end Sound

/-- Every reachable journal is sound. -/
theorem Reachable.sound {j : Journal} (hj : j.Reachable) : j.Sound := by
  induction hj with
  | start ops clients hc =>
    refine ⟨⟨_, (Memory.sound_after ops).ofLedger⟩, fun i c p hi hp => ?_, ?_⟩
    · rw [hc c (List.mem_of_getElem? hi)] at hp
      cases hp
    · simp
  | act e _ he ih => exact (ih.act he).1

/-- Turns by which nothing is deleted lead to reachable journals. -/
theorem Reachable.turns {j : Journal} (hj : j.Reachable) {turns : List Turn}
    (ht : ∀ t ∈ turns, (Happening.turn t).Additive) :
    (turns.foldl (fun j t => j.act (.turn t)) j).Reachable := by
  induction turns generalizing j with
  | nil => exact hj
  | cons t turns ih =>
    obtain ⟨h, ht⟩ := List.forall_mem_cons.1 ht
    exact ih (.act _ hj h) ht

/-- **Every write counts once.**  Whatever happens, as long as nothing is deleted, the streams of
the store grow at their ends only. If the next call of a commit under way is an attempt, it is to
commit what the handle has staged, in order and with its headers, under the id that the commit was
begun with. If the store accepts it, this one commit is appended and is the answer; a call that is
refused, or that is not an attempt, changes nothing. Every answer that names a commit is noted, and
the stream holds that commit and no other one of the id, so that all answers under one id on one
stream name the same commit. -/
theorem writes_once {j : Journal} (hj : j.Reachable) :
    (∀ e : Happening, e.Additive →
      j.world.memory.ledger.Grows (j.act e).world.memory.ledger) ∧
    (∀ i c p, j.world.clients[i]? = some c → c.pending = some p →
      (∀ a, p.nextCall? = some (.commit a) →
        a.stream = c.handle.stream ∧ a.events = c.handle.uncommitted ∧
        a.headers = c.handle.uncommittedHeaders ∧ j.ids i = some a.id ∧
        ((∃ d, d.toAttempt = a ∧ (Memory.commit a j.world.memory).1 = .ok (some d) ∧
            (j.world.advance i).1.memory.ledger.log = j.world.memory.ledger.log ++ [d] ∧
            (j.world.advance i).2 = some (.ok (some d))) ∨
          (∀ d, (Memory.commit a j.world.memory).1 ≠ .ok (some d)) ∧
            (j.world.advance i).1.memory = j.world.memory)) ∧
      ((∀ a, p.nextCall? ≠ some (.commit a)) →
        (j.world.advance i).1.memory = j.world.memory)) ∧
    (∀ i d, (j.world.advance i).2 = some (.ok (some d)) →
      ∃ c id, j.world.clients[i]? = some c ∧ j.ids i = some id ∧
        (j.advance i).told = j.told ++ [⟨c.handle.stream, id, d⟩]) ∧
    (∀ t ∈ j.told,
      (j.world.memory.ledger.ofStream t.stream).filter (·.id = t.id) = [t.commit]) ∧
    ∀ t ∈ j.told, ∀ u ∈ j.told, t.stream = u.stream → t.id = u.id → t.commit = u.commit := by
  have h := hj.sound
  obtain ⟨ts, hs⟩ := h.memory
  have hkept : j.world.memory.ledger.Kept := hs.kept
  have honly : ∀ t ∈ j.told,
      (j.world.memory.ledger.ofStream t.stream).filter (·.id = t.id) = [t.commit] := by
    intro t ht
    obtain ⟨hmem, hid⟩ := h.told t ht
    rw [← hid]
    exact hkept.filter_id hmem
  refine ⟨fun e he => (h.act he).2, fun i c p hc hp => ?_, fun i d hd => ?_, honly,
    fun t ht u hu hstream hid => ?_⟩
  · obtain ⟨id, hid, ho⟩ := h.owes i c p hc hp
    obtain ⟨hmemory, hanswer⟩ := World.advance_pending hc hp
    rw [hmemory, hanswer]
    constructor
    · intro a ha
      obtain ⟨⟨stamp, rfl⟩, hstep⟩ := ho.of_commit ha
      refine ⟨rfl, rfl, rfl, hid, ?_⟩
      rw [hstep]
      obtain ⟨d, hd, he⟩ | ⟨hm, hrefused⟩ := Memory.commit_outcome hkept (c.handle.attempt id stamp)
      · rw [he]
        exact .inl ⟨d, hd, rfl, rfl, rfl⟩
      · refine .inr ⟨fun d hd => ?_, hm⟩
        rw [hd] at hrefused
        obtain hn | ⟨e, -, -, hn⟩ | ⟨e, -, hn⟩ := hrefused <;> cases hn
    · intro hno
      rw [p.step_state]
      cases hcall : p.nextCall? with
      | none => rfl
      | some op =>
        obtain ⟨a, rfl⟩ | hread := ho.calls hcall
        · exact absurd hcall (hno a)
        · obtain ⟨q, rfl⟩ := hread
          rfl
  · obtain hnone | ⟨c, id, q, m, hc, hid, -⟩ := h.advance_cases i
    · rw [hnone] at hd
      cases hd
    · refine ⟨c, id, hc, hid, ?_⟩
      rw [Journal.advance, hc, hid, hd]
  · have he := honly t ht
    rw [hstream, hid, honly u hu] at he
    exact (List.singleton_inj.1 he).symm

end Journal

/-- Two writers take one stream for empty and use one id, the first of them twice, with different
events: it is answered with what was written, then with what is found, and the second one with what
the store tells. -/
def retriedWrites : Journal :=
  let stream : StreamId := ⟨"tenant", "a"⟩
  let id : CommitId := ⟨List.replicate 16 1, rfl⟩
  let event (kind : String) : Event := ⟨⟨kind, .null⟩, []⟩
  let turns : List Turn :=
    [.join (.create stream), .join (.create stream),
      .stage 0 (.add (event "first")), .begin 0 id ⟨0⟩, .advance 0,
      .stage 0 (.add (event "second")), .begin 0 id ⟨0⟩, .advance 0,
      .stage 1 (.add (event "third")), .begin 1 id ⟨0⟩, .advance 1, .advance 1]
  turns.foldl (fun j t => j.act (.turn t)) { world := ⟨Memory.after [], []⟩ }

theorem Journal.writes_once_retriedWrites :
    retriedWrites.Reachable ∧ retriedWrites.told.length = 3 ∧
      (∀ t ∈ retriedWrites.told, ∀ u ∈ retriedWrites.told, t.commit = u.commit) ∧
      ∀ t ∈ retriedWrites.told, t.commit.events = [⟨⟨"first", .null⟩, []⟩] ∧
        (retriedWrites.world.memory.ledger.ofStream t.stream).filter (·.id = t.id)
          = [t.commit] := by
  have hreach : retriedWrites.Reachable :=
    .turns (.start [] [] (by simp)) (by simp [Happening.Additive])
  have htold : ∀ t ∈ retriedWrites.told, ∀ u ∈ retriedWrites.told,
      t.stream = u.stream ∧ t.id = u.id ∧ t.commit.events = [⟨⟨"first", .null⟩, []⟩] := by
    decide +kernel
  obtain ⟨-, -, -, honly, hsame⟩ := writes_once hreach
  refine ⟨hreach, by decide +kernel, fun t ht u hu => ?_, fun t ht => ⟨?_, honly t ht⟩⟩
  · obtain ⟨hstream, hid, -⟩ := htold t ht u hu
    exact hsame t ht u hu hstream hid
  · exact (htold t ht t ht).2.2

end EventSourcing
