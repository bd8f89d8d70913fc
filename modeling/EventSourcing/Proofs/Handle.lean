import EventSourcing.Proofs.Memory
import EventSourcing.Session

/-!
# Handles on the store in memory

What merging does to a handle is said once for a whole piece of history (`Handle.merge_eq`): commits
that were not seen before add exactly their events of the window, move the revision to the last of
these events, the sequence to the last commit, and are seen from then on. Commits that were seen
before are passed over (`Handle.merge_seen`). From the two follow what opening makes of a stream
(`Handle.merge_between`) and what catching up does to a handle anywhere in a stream
(`Handle.merge_rest`).

The programs of handles make one call at a time. On a store whose reads are enabled a read answers
with commits only, so each program is a short list of cases by the answer to its commit.
-/

namespace EventSourcing

namespace Handle

/-- One event lies in a window if its revision does. -/
theorem window_singleton (before first last : Nat) (e : Event) :
    window before first last [e]
      = if first ≤ before + 1 ∧ before + 1 ≤ last then [e] else [] := by
  split
  · exact window_eq_self (by omega) (by simp; omega)
  · rw [← List.length_eq_zero_iff, length_window, List.length_singleton]
    omega

/-- Taking over events adds those of the window and moves to the last of them. -/
theorem takeEvents_eq (h : Handle) (first last before : Nat) (es : List Event)
    (hm : before + es.length ≤ maxRevision) :
    h.takeEvents first last (before + 1) es =
      { h with
        committed := h.committed ++ window before first last es
        revision := if window before first last es = [] then h.revision
          else min last (before + es.length) } := by
  induction es generalizing h before with
  | nil => simp [takeEvents]
  | cons e es ih =>
    rw [List.length_cons] at hm
    have hnext (g : Handle) : g.takeEvents first last (nextRevision (before + 1)) es
        = g.takeEvents first last (before + 1 + 1) es := by
      rcases Nat.lt_or_ge (before + 1) maxRevision with hlt | hge
      · rw [nextRevision, Nat.min_eq_left (by omega)]
      · rw [List.length_eq_zero_iff.1 (show es.length = 0 by omega), takeEvents, takeEvents]
    have hw : window before first last (e :: es)
        = window before first last [e] ++ window (before + 1) first last es :=
      window_append before first last [e] es
    have hlen := length_window (before + 1) first last es
    rw [window_singleton] at hw
    rw [List.length_cons, takeEvents]
    by_cases hlt : last < before + 1
    · have hnil : window before first last (e :: es) = [] := window_eq_nil_of_le (by omega)
      rw [if_pos hlt, hnil]
      simp
    rw [if_neg hlt]
    by_cases hfirst : first ≤ before + 1
    · rw [if_pos ⟨hfirst, by omega⟩, List.singleton_append] at hw
      rw [if_pos hfirst, hnext, ih _ _ (by omega), hw]
      simp only [List.append_assoc, List.singleton_append, reduceCtorEq, if_false, mk.injEq,
        true_and, and_true]
      split
      · rename_i hnil
        rw [hnil, List.length_nil] at hlen
        omega
      · omega
    · rw [if_neg (by omega), List.nil_append] at hw
      rw [if_neg hfirst, hnext, ih _ _ (by omega), hw,
        show before + 1 + es.length = before + (es.length + 1) by omega]

/-- A window does not touch the stream and the ids that were seen. -/
theorem takeEvents_stream_seen (h : Handle) (first last current : Nat) (es : List Event) :
    (h.takeEvents first last current es).stream = h.stream ∧
      (h.takeEvents first last current es).seen = h.seen := by
  induction es generalizing h current with
  | nil => exact ⟨rfl, rfl⟩
  | cons e es ih =>
    rw [takeEvents]
    split
    · exact ⟨rfl, rfl⟩
    split
    · exact ih _ _
    · exact ih _ _

variable {h : Handle} {first last s r : Nat} {cs : List Commit}

/-- Commits that were seen are passed over. -/
theorem merge_seen {pre : List Commit} (hseen : ∀ c ∈ pre, c.id ∈ h.seen) :
    h.merge first last (pre ++ cs) = h.merge first last cs := by
  induction pre with
  | nil => rfl
  | cons c pre ih =>
    obtain ⟨hc, hpre⟩ := List.forall_mem_cons.1 hseen
    rw [List.cons_append, merge, if_pos hc, ih hpre]

/-- A commit that was not seen is taken over as far as it lies in the window, if it does not begin
after it. -/
theorem merge_cons_new {c : Commit} {before : Nat} (hnew : c.id ∉ h.seen)
    (hfirst : c.firstRevision = before + 1) (hlast : c.firstRevision ≤ last)
    (hm : before + c.events.length ≤ maxRevision) :
    h.merge first last (c :: cs) = merge first last
      { h with
        committed := h.committed ++ window before first last c.events
        committedHeaders := Fields.merge h.committedHeaders c.headers
        seen := c.id :: h.seen
        revision := if window before first last c.events = [] then h.revision
          else min last (before + c.events.length)
        sequence := c.sequence } cs := by
  rw [merge, if_neg hnew]
  simp only
  rw [if_neg (by omega), hfirst, takeEvents_eq _ _ _ _ _ hm]

/-- **What merging a piece of history does to a handle** that has not seen any of it, if no commit
starts after the window. -/
theorem merge_eq (hc : Continues s r cs) (hm : r + (eventsOf cs).length ≤ maxRevision)
    (hnew : ∀ c ∈ cs, c.id ∉ h.seen) (hid : (cs.map (·.id)).Nodup)
    (hlast : ∀ c ∈ cs, c.firstRevision ≤ last) :
    h.merge first last cs =
      { h with
        committed := h.committed ++ window r first last (eventsOf cs)
        committedHeaders := cs.foldl (fun f c => Fields.merge f c.headers) h.committedHeaders
        seen := (cs.map (·.id)).reverse ++ h.seen
        revision := if window r first last (eventsOf cs) = [] then h.revision
          else min last (r + (eventsOf cs).length)
        sequence := if cs = [] then h.sequence else s + cs.length } := by
  induction cs generalizing h s r with
  | nil => simp [merge]
  | cons c cs ih =>
    obtain ⟨hne, hs, hr, hcs⟩ := hc
    obtain ⟨hcnew, hnew⟩ := List.forall_mem_cons.1 hnew
    obtain ⟨hclast, hlast⟩ := List.forall_mem_cons.1 hlast
    rw [List.map_cons, List.nodup_cons] at hid
    rw [eventsOf_cons, List.length_append] at hm
    rw [hr] at hcs
    have hfirst := Commit.firstRevision_eq hne hr (by omega)
    rw [merge_cons_new hcnew hfirst hclast (by omega), ih hcs (by omega) ?_ hid.2 hlast]
    · have hx := length_window r first last c.events
      have hy := length_window (r + c.events.length) first last (eventsOf cs)
      simp only [eventsOf_cons, window_append, List.append_assoc, List.foldl_cons, List.map_cons,
        List.reverse_cons, List.singleton_append, List.length_append, List.length_cons,
        List.append_eq_nil_iff, mk.injEq, true_and, reduceCtorEq, if_false]
      refine ⟨?_, ?_⟩
      · by_cases hy0 : window (r + c.events.length) first last (eventsOf cs) = []
        · by_cases hx0 : window r first last c.events = []
          · simp [hx0, hy0]
          · have := List.length_pos_iff.2 hx0
            rw [hy0, List.length_nil] at hy
            simp only [hx0, hy0, if_true, if_false, and_true]
            omega
        · simp only [hy0, and_false, if_false]
          omega
      · rw [hs]
        cases cs with
        | nil => simp
        | cons d cs => simp only [reduceCtorEq, if_false, List.length_cons]; omega
    · intro d hd
      simp only [List.mem_cons, not_or]
      exact ⟨fun he => hid.1 (List.mem_map.2 ⟨d, hd, he⟩), hnew d hd⟩

/-- **What opening makes of a stream.**  Of the commits that are read the handle takes the events of
the window; a first revision below the window only means that more commits are read. -/
theorem merge_between (stream : StreamId) (hc : Continues 0 0 cs) (hid : (cs.map (·.id)).Nodup)
    (hm : (eventsOf cs).length ≤ maxRevision) {from' : Nat} (hfrom : first ≤ from') (last : Nat) :
    ∃ pre mid post, cs = pre ++ mid ++ post ∧
      mid = cs.filter (fun c => first ≤ c.revision && c.firstRevision ≤ last) ∧
      (∀ c ∈ pre, c.revision < first) ∧ (∀ c ∈ post, last < c.firstRevision) ∧
      (create stream).merge from' last mid =
        { create stream with
          committed := window 0 from' last (eventsOf cs)
          committedHeaders := mid.foldl (fun f c => Fields.merge f c.headers) []
          seen := (mid.map (·.id)).reverse
          revision := if window 0 from' last (eventsOf cs) = [] then 0
            else min last (eventsOf cs).length
          sequence := if mid = [] then 0 else (pre ++ mid).length } := by
  obtain ⟨pre, post, hcs, hmid, hwin, hpre, hpost⟩ := hc.window_between (by omega) first last
  refine ⟨pre, _, post, hcs, rfl, hpre, hpost, ?_⟩
  have hsub : ((cs.filter fun c => first ≤ c.revision && c.firstRevision ≤ last).map
      (·.id)).Nodup := hid.sublist (List.filter_sublist.map _)
  have hlast : ∀ c ∈ cs.filter fun c => first ≤ c.revision && c.firstRevision ≤ last,
      c.firstRevision ≤ last := fun c hc => by
    have := (List.mem_filter.1 hc).2
    simp only [Bool.and_eq_true, decide_eq_true_eq] at this
    exact this.2
  generalize cs.filter (fun c => first ≤ c.revision && c.firstRevision ≤ last) = mid at *
  have hlen : (eventsOf cs).length
      = (eventsOf pre).length + (eventsOf mid).length + (eventsOf post).length := by
    rw [hcs]; simp only [eventsOf_append, List.length_append]
  rw [hwin from' hfrom, merge_eq hmid (by omega) (by simp [create]) hsub hlast]
  simp only [create, List.nil_append, List.append_nil, Nat.zero_add, List.length_append, mk.injEq,
    true_and, and_true]
  split
  · rfl
  -- all that is left out starts after the window, so the window ends before it
  cases post with
  | nil => rw [eventsOf_nil, List.length_nil] at hlen; omega
  | cons d post =>
    have hd := hpost d (List.mem_cons_self ..)
    rw [hcs, Continues.append_iff] at hc
    obtain ⟨-, hne, -, hr, -⟩ := hc
    rw [eventsOf_append, List.length_append] at hr
    rw [eventsOf_cons, List.length_append] at hlen
    have := Commit.firstRevision_eq hne hr (by omega)
    omega

/-- **What catching up does to a handle.**  If every commit that ends after the handle's revision
has been seen up to some place in the stream, and none after it, exactly the events from that place
on are taken over. -/
theorem merge_rest {old post : List Commit} (hc : Continues 0 0 (old ++ post))
    (hid : ((old ++ post).map (·.id)).Nodup)
    (hm : (eventsOf (old ++ post)).length ≤ maxRevision)
    (hold : ∀ c ∈ old, h.revision < c.revision → c.id ∈ h.seen)
    (hpost : ∀ c ∈ post, c.id ∉ h.seen) (hrev : h.revision ≤ (eventsOf old).length)
    (hlt : h.revision < maxRevision) :
    h.merge (nextRevision h.revision) maxRevision ((old ++ post).filter fun c =>
        nextRevision h.revision ≤ c.revision && c.firstRevision ≤ maxRevision) =
      { h with
        committed := h.committed ++ eventsOf post
        committedHeaders := post.foldl (fun f c => Fields.merge f c.headers) h.committedHeaders
        seen := (post.map (·.id)).reverse ++ h.seen
        revision := if post = [] then h.revision else (eventsOf (old ++ post)).length
        sequence := if post = [] then h.sequence else (old ++ post).length } := by
  have hnext : nextRevision h.revision = h.revision + 1 := Nat.min_eq_left (by omega)
  obtain ⟨-, hpostC⟩ := Continues.append_iff.1 hc
  rw [Nat.zero_add, Nat.zero_add] at hpostC
  rw [eventsOf_append, List.length_append] at hm
  have hall : (post.filter fun c => nextRevision h.revision ≤ c.revision
      && c.firstRevision ≤ maxRevision) = post := by
    refine List.filter_eq_self.2 fun c hc => ?_
    have := (hpostC.revision_le hc).1
    simp only [Bool.and_eq_true, decide_eq_true_eq]
    exact ⟨by omega, c.firstRevision_le_max⟩
  rw [List.filter_append, merge_seen, hall,
    merge_eq hpostC hm hpost ?_ fun c _ => c.firstRevision_le_max, window_eq_self (by omega) hm]
  · have hnil : eventsOf post = [] ↔ post = [] := by
      refine ⟨fun he => ?_, fun he => by rw [he]; rfl⟩
      have := hpostC.length_le
      rw [he, List.length_nil] at this
      exact List.length_eq_zero_iff.1 (by omega)
    simp only [hnil, eventsOf_append, List.length_append, Nat.min_eq_right hm]
  · rw [List.map_append, List.nodup_append] at hid
    exact hid.2.1
  · intro c hc
    obtain ⟨hc, hp⟩ := List.mem_filter.1 hc
    simp only [Bool.and_eq_true, decide_eq_true_eq] at hp
    exact hold c hc (by omega)

end Handle

section Calls

@[simp] theorem collectItems_ok (cs : List Commit) : collectItems (cs.map .ok) = .ok cs := by
  induction cs with
  | nil => rfl
  | cons c cs ih => rw [List.map_cons, collectItems, ih]

@[simp] theorem findItem_ok (id : CommitId) (cs : List Commit) :
    findItem id (cs.map .ok) = .ok (cs.find? (·.id = id)) := by
  induction cs with
  | nil => rfl
  | cons c cs ih =>
    rw [List.map_cons, findItem, List.find?_cons, ih]
    by_cases h : c.id = id <;> simp [h]

namespace Program

variable {σ α : Type}

theorem bind_assoc {β γ : Type} (p : Program α) (f : α → Program β) (g : β → Program γ) :
    p >>= f >>= g = p >>= fun a => f a >>= g := by
  induction p with
  | done a => rfl
  | note ns rest ih => exact congrArg (Program.note ns) ih
  | call op next ih => exact congrArg (Program.call op) (funext ih)

/-- Running a program to its end is letting it make its next call and running the rest. -/
theorem run_step (engine : Engine σ) (p : Program α) (s : σ) :
    ((p.step engine s).1.run engine (p.step engine s).2).value = (p.run engine s).value ∧
      ((p.step engine s).1.run engine (p.step engine s).2).state = (p.run engine s).state := by
  induction p with
  | done a => exact ⟨rfl, rfl⟩
  | note ns rest ih => exact ih
  | call op next => exact ⟨rfl, rfl⟩

/-- On any store a program that begins with a read goes on with what the read collects. -/
theorem step_collect_on (engine : Engine σ) (q : Query) (f : Except Fault (List Commit) → Program α)
    (s : σ) : ∃ ns, (Program.collect q >>= f).step engine s
      = (.note ns (f (collectItems (Feed.items (engine (.read q) s).1.reply))),
        (engine (.read q) s).2) :=
  ⟨_, rfl⟩

/-- On any store a program that begins by looking for a commit goes on with what is found. -/
theorem step_find_on (engine : Engine σ) (q : Query) (id : CommitId)
    (f : Except Fault (Option Commit) → Program α) (s : σ) :
    ∃ ns, (Program.find q id >>= f).step engine s
      = (.note ns (f (findItem id (Feed.items (engine (.read q) s).1.reply))),
        (engine (.read q) s).2) :=
  ⟨_, rfl⟩

end Program

variable {m : Memory} {α : Type}

namespace Memory

/-- A program that begins with a read goes on with what the read comes to. -/
theorem step_collectItems (m : Memory) (q : Query) (f : Except Fault (List Commit) → Program α) :
    ∃ ns, (Program.collect q >>= f).step engine m = (.note ns (f (collectItems (m.read q))), m) := by
  rw [← Feed.items_ofItems (m.read q)]
  exact Program.step_collect_on engine q f m

/-- A program that begins by looking for a commit goes on with what is found. -/
theorem step_findItem (m : Memory) (q : Query) (id : CommitId)
    (f : Except Fault (Option Commit) → Program α) :
    ∃ ns, (Program.find q id >>= f).step engine m
      = (.note ns (f (findItem id (m.read q))), m) := by
  rw [← Feed.items_ofItems (m.read q)]
  exact Program.step_find_on engine q id f m

/-- On a store that answers reads a program goes on with the commits of its read. -/
theorem step_collect (hm : m.readsDisabled = false) (q : Query)
    (f : Except Fault (List Commit) → Program α) :
    ∃ ns, (Program.collect q >>= f).step engine m = (.note ns (f (.ok (m.ledger.read q))), m) := by
  rw [← collectItems_ok, ← read_eq hm]
  exact step_collectItems m q f

/-- On a store that answers reads a program goes on with the commit it looks for. -/
theorem step_find (hm : m.readsDisabled = false) (q : Query) (id : CommitId)
    (f : Except Fault (Option Commit) → Program α) :
    ∃ ns, (Program.find q id >>= f).step engine m
      = (.note ns (f (.ok ((m.ledger.read q).find? (·.id = id)))), m) := by
  rw [← findItem_ok, ← read_eq hm]
  exact step_findItem m q id f

end Memory

/-- What a program comes to that begins with a read. -/
theorem Memory.run_collect (hm : m.readsDisabled = false) (q : Query)
    (f : Except Fault (List Commit) → Program α) :
    ((Program.collect q >>= f).run engine m).value
        = ((f (.ok (m.ledger.read q))).run engine m).value ∧
      ((Program.collect q >>= f).run engine m).state
        = ((f (.ok (m.ledger.read q))).run engine m).state := by
  obtain ⟨ns, hs⟩ := step_collect hm q f
  obtain ⟨hvalue, hstate⟩ := Program.run_step engine (Program.collect q >>= f) m
  rw [hs] at hvalue hstate
  exact ⟨hvalue.symm, hstate.symm⟩

namespace Handle

/-- Opening a window shows it, or tells that there is nothing to show. -/
theorem run_openWindow (hm : m.readsDisabled = false) (stream : StreamId) (first last : Nat) :
    ((openWindow stream first last).run Memory.engine m).value
      = if 0 < first ∧ ((create stream).merge first last
            (m.ledger.read (.revisions stream first last))).committed = []
        then .error (.streamNotFound stream)
        else .ok ((create stream).merge first last
          (m.ledger.read (.revisions stream first last))) := by
  refine (Memory.run_collect hm _ _).1.trans ?_
  simp only [List.isEmpty_iff]
  split <;> rfl

theorem run_openFromSnapshot (hm : m.readsDisabled = false) (t : Snapshot) (last : Nat) :
    ((openFromSnapshot t last).run Memory.engine m).value
      = .ok { (create t.stream).merge (nextRevision t.revision) last
          (m.ledger.read (.revisions t.stream t.revision last)) with
        revision := t.revision + ((create t.stream).merge (nextRevision t.revision) last
          (m.ledger.read (.revisions t.stream t.revision last))).committed.length } :=
  (Memory.run_collect hm _ _).1

/-- The handle with the commits after its revision merged. -/
def refreshed (h : Handle) (l : Ledger) : Handle :=
  h.merge (nextRevision h.revision) maxRevision
    (l.read (.revisions h.stream (nextRevision h.revision) maxRevision))

/-- What is left to do once the store has told of another writer: catch up, and give the result. -/
def reload (h : Handle) (settle : Handle → Handle) (result : Except Fault (Option Commit)) :
    Program (Handle × Except Fault (Option Commit)) := do
  match ← h.refresh with
  | .error e => return (h, .error e)
  | .ok g => return (settle g, result)

/-- Reloading is one call, and gives the handle as it is after all commits up to then. -/
theorem step_reload (hm : m.readsDisabled = false) (h : Handle) (settle : Handle → Handle)
    (result : Except Fault (Option Commit)) :
    ∃ ns, (h.reload settle result).step Memory.engine m
      = (.note ns (.done (settle (h.refreshed m.ledger), result)), m) := by
  unfold reload refresh
  rw [Program.bind_assoc]
  exact Memory.step_collect hm _ _

section Attempt

variable (h : Handle) (id : CommitId) (stamp : Stamp)

@[simp] theorem attempt_stream : (h.attempt id stamp).stream = h.stream := rfl

@[simp] theorem attempt_id : (h.attempt id stamp).id = id := rfl

@[simp] theorem attempt_events : (h.attempt id stamp).events = h.uncommitted := rfl

@[simp] theorem attempt_sequence : (h.attempt id stamp).sequence = h.sequence + 1 := rfl

@[simp] theorem attempt_revision :
    (h.attempt id stamp).revision = h.revision + h.uncommitted.length := rfl

theorem attempt_conflict : (h.attempt id stamp).conflict
    = .conflict h.stream (h.revision + h.uncommitted.length) (h.sequence + 1) := rfl

end Attempt

/-- What submitting can meet: the id is on the stream, or the handle is behind the stream, or beyond
it, or it stands at its head and the commit is stored. -/
theorem submit_cases (h : Handle) (hk : m.ledger.Kept) (hm : m.commitsDisabled = false)
    (hne : h.uncommitted ≠ []) (id : CommitId) (stamp : Stamp) :
    (∃ c ∈ m.ledger.ofStream h.stream, c.id = id ∧ (h.submit id stamp).step Memory.engine m
      = (h.reload clearChanges (.ok (some c)), m)) ∨
    (∀ c ∈ m.ledger.ofStream h.stream, c.id ≠ id) ∧
      ((h.sequence < (m.ledger.ofStream h.stream).length ∨
          h.revision < (eventsOf (m.ledger.ofStream h.stream)).length) ∧
          (h.submit id stamp).step Memory.engine m
            = (h.reload (fun g => g) (.error (h.attempt id stamp).conflict), m) ∨
        ¬ (h.sequence < (m.ledger.ofStream h.stream).length ∨
            h.revision < (eventsOf (m.ledger.ofStream h.stream)).length) ∧
          ¬ (h.sequence = (m.ledger.ofStream h.stream).length ∧
            h.revision = (eventsOf (m.ledger.ofStream h.stream)).length ∧
            (m.ledger.ofStream h.stream).length < maxRevision) ∨
        (h.sequence = (m.ledger.ofStream h.stream).length ∧
            h.revision = (eventsOf (m.ledger.ofStream h.stream)).length) ∧
          ∃ c, c = (h.attempt id stamp).confirm (m.ledger.lastCheckpoint + 1) ∧
            (h.submit id stamp).step Memory.engine m
              = (.done ((h.merge (nextRevision h.revision) c.revision [c]).clearChanges,
                  .ok (some c)), { m with ledger := m.ledger.append c })) := by
  have hperform (f : (Operation.commit (h.attempt id stamp)).Reply
      → Program (Handle × Except Fault (Option Commit))) :
      (Program.perform (.commit (h.attempt id stamp)) >>= f).step Memory.engine m
        = (f (m.ledger.commit (h.attempt id stamp)).1,
          { m with ledger := (m.ledger.commit (h.attempt id stamp)).2 }) := by
    show (f (Memory.commit (h.attempt id stamp) m).1, (Memory.commit (h.attempt id stamp) m).2) = _
    rw [Memory.commit_eq hm, attempt_events, if_neg hne]
  have hcases := hk.commit_cases (h.attempt id stamp)
  simp only [attempt_stream, attempt_id, attempt_events, attempt_sequence, attempt_revision,
    Nat.add_lt_add_iff_right, Nat.add_right_cancel_iff, Nat.succ_le_iff] at hcases
  unfold submit
  rw [hperform]
  obtain ⟨c, hc, hid, he⟩ | ⟨hid, ⟨hbehind, he⟩ | ⟨hbeyond, -⟩ | ⟨hfit, he⟩⟩ := hcases
  · rw [he]
    exact .inl ⟨c, hc, hid, rfl⟩
  · rw [he]
    exact .inr ⟨hid, .inl ⟨hbehind, rfl⟩⟩
  · exact .inr ⟨hid, .inr (.inl hbeyond)⟩
  · rw [he]
    exact .inr ⟨hid, .inr (.inr ⟨hfit, _, rfl, rfl⟩)⟩

/-- A commit under an id that was seen is one call, if the stream still has a commit of the id. -/
theorem step_commitChanges_seen {h : Handle} (hr : m.readsDisabled = false)
    (hne : h.uncommitted ≠ []) {id : CommitId} (stamp : Stamp) (hseen : id ∈ h.seen) {c : Commit}
    (hc : (m.ledger.read (.revisions h.stream 0 maxRevision)).find? (·.id = id) = some c) :
    ∃ ns, (h.commitChanges id stamp).step Memory.engine m
      = (.note ns (.done (h.clearChanges, .ok (some c))), m) := by
  rw [commitChanges, if_neg (by rwa [List.isEmpty_iff]), if_pos hseen]
  refine (Memory.step_find hr _ id _).imp fun ns hs => hs.trans ?_
  rw [hc]
  rfl

/-- A commit under a new id by a handle that is behind its stream is refused, and the handle catches
up. -/
theorem run_commitChanges_behind {h : Handle} (hk : m.ledger.Kept) (hr : m.readsDisabled = false)
    (hm : m.commitsDisabled = false) (hne : h.uncommitted ≠ []) {id : CommitId} (stamp : Stamp)
    (hseen : id ∉ h.seen) (hid : ∀ c ∈ m.ledger.ofStream h.stream, c.id ≠ id)
    (hlt : h.revision < (eventsOf (m.ledger.ofStream h.stream)).length) :
    ((h.commitChanges id stamp).run Memory.engine m).value
        = (h.refreshed m.ledger, .error (h.attempt id stamp).conflict) ∧
      ((h.commitChanges id stamp).run Memory.engine m).state = m := by
  rw [commitChanges, if_neg (by rwa [List.isEmpty_iff]), if_neg hseen]
  obtain ⟨hvalue, hstate⟩ := Program.run_step Memory.engine (h.submit id stamp) m
  obtain ⟨c, hc, he, -⟩ | ⟨-, ⟨-, hs⟩ | ⟨hbeyond, -⟩ | ⟨⟨-, hhead⟩, -⟩⟩ :=
    h.submit_cases hk hm hne id stamp
  · exact absurd he (hid c hc)
  · obtain ⟨ns, hreload⟩ := h.step_reload hr (fun g => g) (.error (h.attempt id stamp).conflict)
    obtain ⟨hvalue', hstate'⟩ := Program.run_step Memory.engine
      (h.reload (fun g => g) (.error (h.attempt id stamp).conflict)) m
    rw [hs] at hvalue hstate
    rw [hreload] at hvalue' hstate'
    exact ⟨hvalue.symm.trans hvalue'.symm, hstate.symm.trans hstate'.symm⟩
  · omega
  · omega

/-- A commit under a new id by a handle at the head of its stream is accepted. -/
theorem run_commitChanges_head {h : Handle} (hk : m.ledger.Kept) (hm : m.commitsDisabled = false)
    (hne : h.uncommitted ≠ []) {id : CommitId} {stamp : Stamp} (hseen : id ∉ h.seen)
    (hid : ∀ c ∈ m.ledger.ofStream h.stream, c.id ≠ id)
    (hsequence : h.sequence = (m.ledger.ofStream h.stream).length)
    (hrevision : h.revision = (eventsOf (m.ledger.ofStream h.stream)).length)
    (hlt : (m.ledger.ofStream h.stream).length < maxRevision) :
    ((h.commitChanges id stamp).run Memory.engine m).value.2
      = .ok (some ((h.attempt id stamp).confirm (m.ledger.lastCheckpoint + 1))) := by
  rw [commitChanges, if_neg (by rwa [List.isEmpty_iff]), if_neg hseen]
  obtain ⟨hvalue, -⟩ := Program.run_step Memory.engine (h.submit id stamp) m
  obtain ⟨c, hc, he, -⟩ | ⟨-, ⟨hbehind, -⟩ | ⟨hbeyond, hgap⟩ | ⟨-, c, rfl, hs⟩⟩ :=
    h.submit_cases hk hm hne id stamp
  · exact absurd he (hid c hc)
  · omega
  · omega
  · rw [hs] at hvalue
    rw [← hvalue]
    rfl

end Handle

end Calls

namespace Opening

/-- The stream that is opened. -/
def stream : Opening → StreamId
  | .create s | .window s _ _ => s
  | .fromSnapshot t _ => t.stream

/-- The revision before the first event that the opened handle is to show. -/
def base : Opening → Nat
  | .create _ => 0
  | .window _ first _ => first - 1
  | .fromSnapshot t _ => t.revision

/-- The last revision that the opened handle is to show. -/
def last : Opening → Nat
  | .create _ => 0
  | .window _ _ last | .fromSnapshot _ last => last

end Opening

end EventSourcing
