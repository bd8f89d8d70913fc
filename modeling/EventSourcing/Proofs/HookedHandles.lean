import EventSourcing.Proofs.ExactlyOnce
import EventSourcing.Proofs.Hooks

/-!
# Handles behind hooks

Hooks that neither veto nor fail (`Hook.Lenient`) may hide commits and change what they tell. A
handle behind them stands where the last commit stands that it was shown or that it has stored
itself (`Handle.Follows`): it shows the commits up to there as the hooks show them, except its own,
which it takes over as it has written them.

What comes after the place of a handle was hidden from it, or is new. Catching up takes over what is
shown of it, and moves the handle to the last commit that is shown (`Handle.Follows.refreshed`).
Commits hidden at the end of the stream stay ahead of the handle, however often it catches up.

What is left of a commit under way is one of the four programs of `Handle.Pends`, and the next call
of each comes to one of the four outcomes of `Handle.Proceeds` (`Handle.Pends.step`).
-/

namespace EventSourcing

/-- The items up to the last one with a property, and those after it. -/
theorem exists_eq_append_last {α : Type*} (p : α → Prop) (l : List α) :
    ∃ xs ys, l = xs ++ ys ∧ (∀ a ∈ ys, ¬ p a) ∧ (xs = [] ∨ ∃ init a, xs = init ++ [a] ∧ p a) := by
  induction l using List.reverseRecOn with
  | nil => exact ⟨[], [], rfl, by simp, .inl rfl⟩
  | append_singleton l a ih =>
    by_cases ha : p a
    · exact ⟨l ++ [a], [], (List.append_nil _).symm, by simp, .inr ⟨l, a, rfl, ha⟩⟩
    · obtain ⟨xs, ys, rfl, hys, hxs⟩ := ih
      refine ⟨xs, ys ++ [a], List.append_assoc .., fun b hb => ?_, hxs⟩
      rcases List.mem_append.1 hb with hb | hb
      · exact hys b hb
      · rwa [List.mem_singleton.1 hb]

namespace Handle

variable {h : Handle} {first last : Nat}

/-- What merging does to a handle that has seen none of the commits, if all their events lie in the
window. -/
theorem merge_all {vs : List Commit} (hnew : ∀ v ∈ vs, v.id ∉ h.seen)
    (hid : (vs.map (·.id)).Nodup)
    (hin : ∀ v ∈ vs, v.events ≠ [] ∧ first ≤ v.firstRevision ∧
      v.firstRevision + v.events.length = v.revision + 1 ∧ v.revision ≤ last)
    (hlast : last ≤ maxRevision) :
    h.merge first last vs =
      { h with
        committed := h.committed ++ eventsOf vs
        committedHeaders := vs.foldl (fun f c => Fields.merge f c.headers) h.committedHeaders
        seen := (vs.map (·.id)).reverse ++ h.seen
        revision := (vs.getLast?.map (·.revision)).getD h.revision
        sequence := (vs.getLast?.map (·.sequence)).getD h.sequence } := by
  induction vs generalizing h with
  | nil => simp [merge]
  | cons v vs ih =>
    obtain ⟨hvnew, hnew⟩ := List.forall_mem_cons.1 hnew
    obtain ⟨⟨hne, hfirst, hrev, hle⟩, hin⟩ := List.forall_mem_cons.1 hin
    rw [List.map_cons, List.nodup_cons] at hid
    have hlen := List.length_pos_iff.2 hne
    obtain ⟨before, hbefore⟩ : ∃ before, v.firstRevision = before + 1 :=
      ⟨_, (Nat.sub_add_cancel v.firstRevision_pos).symm⟩
    rw [merge_cons_new hvnew hbefore (by omega) (by omega), window_eq_self (by omega) (by omega),
      if_neg hne, ih ?_ hid.2 hin]
    · have hmin : min last (before + v.events.length) = v.revision := by omega
      simp only [hmin, eventsOf_cons, List.append_assoc, List.foldl_cons, List.map_cons,
        List.reverse_cons, List.singleton_append, List.getLast?_cons, Option.map_some,
        Option.getD_some, Option.getD_map]
    · intro d hd
      simp only [List.mem_cons, not_or]
      exact ⟨fun he => hid.1 (List.mem_map.2 ⟨d, hd, he⟩), hnew d hd⟩

/-- What merging does to a handle that has seen nothing of a piece of history, of which it is shown
what the hooks let pass. -/
theorem merge_view {hooks : List Hook} (hl : ∀ k ∈ hooks, k.Lenient) {s r : Nat} {cs : List Commit}
    (hc : Continues s r cs) (hm : r + (eventsOf cs).length ≤ maxRevision) (hfirst : first ≤ r + 1)
    (hid : (cs.map (·.id)).Nodup) (hnew : ∀ c ∈ cs, c.id ∉ h.seen) :
    h.merge first maxRevision (cs.filterMap (Hook.view hooks)) =
      { h with
        committed := h.committed ++ eventsOf (cs.filterMap (Hook.view hooks))
        committedHeaders := (cs.filterMap (Hook.view hooks)).foldl
          (fun f c => Fields.merge f c.headers) h.committedHeaders
        seen := ((cs.filterMap (Hook.view hooks)).map (·.id)).reverse ++ h.seen
        revision := ((cs.filterMap (Hook.view hooks)).getLast?.map (·.revision)).getD h.revision
        sequence :=
          ((cs.filterMap (Hook.view hooks)).getLast?.map (·.sequence)).getD h.sequence } := by
  have hplace : ∀ v ∈ cs.filterMap (Hook.view hooks), ∃ c ∈ cs, v.SamePlace c := fun v hv => by
    obtain ⟨c, hmem, hview⟩ := List.mem_filterMap.1 hv
    exact ⟨c, hmem, Hook.samePlace_of_view hl hview⟩
  have hpair : (cs.filterMap (Hook.view hooks)).Pairwise fun c d => c.id ≠ d.id := by
    refine List.Pairwise.filterMap _ (fun c d hne v hv w hw => ?_) (List.pairwise_map.1 hid)
    rwa [(Hook.samePlace_of_view hl hv).id, (Hook.samePlace_of_view hl hw).id]
  refine merge_all (fun v hv => ?_) (List.pairwise_map.2 hpair) (fun v hv => ?_) le_rfl
  · obtain ⟨c, hmem, hp⟩ := hplace v hv
    rw [hp.id]
    exact hnew c hmem
  · obtain ⟨c, hmem, hp⟩ := hplace v hv
    obtain ⟨hstart, hlt⟩ := hc.firstRevision_add hmem hm
    have hle := (hc.revision_le hmem).2
    have hlen := List.length_pos_iff.2 (hc.of_mem hmem).choose_spec.choose_spec.2.1
    rw [hp.firstRevision, hp.length, hp.revision]
    refine ⟨List.length_pos_iff.1 (hp.length ▸ hlen), by omega, hstart, by omega⟩

/-- The last commit that is shown of a piece of history stands where the last commit does, if that
one is shown. -/
theorem getLast_view {hooks : List Hook} (hl : ∀ k ∈ hooks, k.Lenient) (init : List Commit)
    {d : Commit} (hd : Hook.view hooks d ≠ none) :
    ∃ v, ((init ++ [d]).filterMap (Hook.view hooks)).getLast? = some v ∧ v.SamePlace d := by
  obtain ⟨v, hv⟩ := Option.ne_none_iff_exists'.1 hd
  refine ⟨v, ?_, Hook.samePlace_of_view hl hv⟩
  rw [List.filterMap_append, List.filterMap_cons_some hv, List.filterMap_nil,
    List.getLast?_concat]

/-- The handle with what the hooks show of the commits after its revision merged. -/
def refreshedBehind (hooks : List Hook) (h : Handle) (l : Ledger) : Handle :=
  h.merge (nextRevision h.revision) maxRevision
    ((l.read (.revisions h.stream (nextRevision h.revision) maxRevision)).filterMap
      (Hook.view hooks))

/-- What a writer shows of a commit: one of its own as it is, and another one as the hooks show
it. -/
def shownTo (hooks : List Hook) (own : List Commit) (c : Commit) : Option Commit :=
  if c ∈ own then some c else Hook.view hooks c

/-- How a handle stands behind hooks: it shows the commits up to its place. `own` are the commits
that it has stored, and `rest` comes after its place. -/
structure Follows (h : Handle) (hooks : List Hook) (own : List Commit) (l : Ledger)
    (upto rest : List Commit) : Prop where
  stream : l.ofStream h.stream = upto ++ rest
  own_mem : ∀ c ∈ own, c ∈ upto
  committed : h.committed = eventsOf (upto.filterMap (shownTo hooks own))
  revision : h.revision = (eventsOf upto).length
  sequence : h.sequence = upto.length
  seen : ∀ i ∈ h.seen, ∃ c ∈ upto, c.id = i

namespace Follows

variable {hooks : List Hook} {own upto rest : List Commit} {l l' : Ledger}

/-- What a handle shows stays the beginning of a stream that grows. -/
theorem mono (hf : h.Follows hooks own l upto rest) (hl : l.Grows l') :
    ∃ rest', h.Follows hooks own l' upto rest' := by
  obtain ⟨more, hmore⟩ := hl h.stream
  exact ⟨rest ++ more, by rw [hmore, hf.stream, List.append_assoc], hf.own_mem, hf.committed,
    hf.revision, hf.sequence, hf.seen⟩

/-- Staging does not change what a handle shows. -/
theorem stage (hf : h.Follows hooks own l upto rest) (s : Staging) :
    (s.apply h).Follows hooks own l upto rest := by
  cases s <;> exact ⟨hf.stream, hf.own_mem, hf.committed, hf.revision, hf.sequence, hf.seen⟩

theorem clearChanges (hf : h.Follows hooks own l upto rest) :
    h.clearChanges.Follows hooks own l upto rest :=
  hf.stage .clear

theorem create (stream : StreamId) :
    (Handle.create stream).Follows hooks [] l [] (l.ofStream stream) :=
  ⟨rfl, by simp, rfl, rfl, rfl, by simp [Handle.create]⟩

/-- The commits after the place of a handle are those that catching up reads. -/
theorem read_eq (hf : h.Follows hooks own l upto rest) (hk : l.Kept)
    (hlt : (eventsOf (l.ofStream h.stream)).length < maxRevision) :
    l.read (.revisions h.stream (nextRevision h.revision) maxRevision) = rest := by
  have hc := hk.history h.stream
  rw [hf.stream] at hc hlt
  rw [eventsOf_append, List.length_append] at hlt
  obtain ⟨hupto, hrest⟩ := Continues.append_iff.1 hc
  have hnext : nextRevision h.revision = (eventsOf upto).length + 1 := by
    rw [hf.revision]
    exact Nat.min_eq_left (by omega)
  have hnone : upto.filter (fun c => decide (nextRevision h.revision ≤ c.revision)
      && decide (c.firstRevision ≤ maxRevision)) = [] := by
    refine List.filter_eq_nil_iff.2 fun c hc => ?_
    have := (hupto.revision_le hc).2
    simp only [hnext, Bool.and_eq_true, decide_eq_true_eq]
    omega
  have hall : rest.filter (fun c => decide (nextRevision h.revision ≤ c.revision)
      && decide (c.firstRevision ≤ maxRevision)) = rest := by
    refine List.filter_eq_self.2 fun c hc => ?_
    have := (hrest.revision_le hc).1
    simp only [hnext, Bool.and_eq_true, decide_eq_true_eq]
    exact ⟨by omega, c.firstRevision_le_max⟩
  rw [Ledger.read_revisions, hf.stream, List.filter_append, hnone, hall, List.nil_append]

/-- What is shown of the commits after the place of a handle is taken over, and the handle moves to
the last one that is shown. -/
theorem merged (hl : ∀ k ∈ hooks, k.Lenient) (hf : h.Follows hooks own l upto rest) (hk : l.Kept)
    (hlt : (eventsOf (l.ofStream h.stream)).length < maxRevision)
    (hfirst : first ≤ (eventsOf upto).length + 1) :
    ∃ read hidden, rest = read ++ hidden ∧ (∀ c ∈ hidden, Hook.view hooks c = none) ∧
      (read = [] ∨ ∃ init d, read = init ++ [d] ∧ Hook.view hooks d ≠ none) ∧
      ∃ g, g = h.merge first maxRevision (rest.filterMap (Hook.view hooks)) ∧
        g.Follows hooks own l (upto ++ read) hidden ∧ g.stream = h.stream ∧
        g.uncommitted = h.uncommitted ∧ g.uncommittedHeaders = h.uncommittedHeaders := by
  have hc := hk.history h.stream
  have hid := hk.ids h.stream
  rw [hf.stream] at hc hid hlt
  obtain ⟨read, hidden, hsplit, hhidden, hlast⟩ :=
    exists_eq_append_last (fun c => Hook.view hooks c ≠ none) rest
  have hnone : ∀ c ∈ hidden, Hook.view hooks c = none := fun c hmem => not_not.1 (hhidden c hmem)
  refine ⟨read, hidden, hsplit, hnone, hlast, _, rfl, ?_⟩
  subst hsplit
  have hshown : (read ++ hidden).filterMap (Hook.view hooks)
      = read.filterMap (Hook.view hooks) := by
    rw [List.filterMap_append, List.filterMap_eq_nil_iff.2 hnone, List.append_nil]
  rw [eventsOf_append, eventsOf_append, List.length_append, List.length_append] at hlt
  obtain ⟨-, hreadC, -⟩ := (Continues.append_iff.1 hc).imp_right Continues.append_iff.1
  rw [Nat.zero_add, Nat.zero_add] at hreadC
  have hids : ((upto ++ read).map (·.id)).Nodup := by
    rw [← List.append_assoc, List.map_append] at hid
    exact (List.nodup_append.1 hid).1
  rw [List.map_append, List.nodup_append] at hids
  have hnew : ∀ c ∈ read, c.id ∉ h.seen := fun c hmem hseen => by
    obtain ⟨d, hd, he⟩ := hf.seen _ hseen
    exact hids.2.2 _ (List.mem_map_of_mem hd) _ (List.mem_map_of_mem hmem) he
  have hown : read.filterMap (shownTo hooks own) = read.filterMap (Hook.view hooks) := by
    refine List.filterMap_congr fun c hmem => if_neg fun hc => ?_
    exact hids.2.2 _ (List.mem_map_of_mem (hf.own_mem c hc)) _ (List.mem_map_of_mem hmem) rfl
  rw [hshown, merge_view hl hreadC (by omega) hfirst hids.2.1 hnew]
  refine ⟨⟨?_, fun c hc => List.mem_append_left _ (hf.own_mem c hc), ?_, ?_, ?_, fun i hi => ?_⟩,
    rfl, rfl, rfl⟩
  · show l.ofStream h.stream = _
    rw [hf.stream, List.append_assoc]
  · show h.committed ++ _ = _
    rw [hf.committed, List.filterMap_append, eventsOf_append, hown]
  · show Option.getD _ h.revision = _
    obtain rfl | ⟨init, d, rfl, hd⟩ := hlast
    · rw [List.append_nil]
      exact hf.revision
    · obtain ⟨v, hv, hplace⟩ := getLast_view hl init hd
      rw [hv, Option.map_some, Option.getD_some, hplace.revision, eventsOf_append,
        List.length_append]
      exact (hreadC.getLast (List.getLast?_concat ..)).2.2
  · show Option.getD _ h.sequence = _
    obtain rfl | ⟨init, d, rfl, hd⟩ := hlast
    · rw [List.append_nil]
      exact hf.sequence
    · obtain ⟨v, hv, hplace⟩ := getLast_view hl init hd
      rw [hv, Option.map_some, Option.getD_some, hplace.sequence, List.length_append]
      exact (hreadC.getLast (List.getLast?_concat ..)).2.1
  · rcases List.mem_append.1 hi with hi | hi
    · obtain ⟨v, hv, he⟩ := List.mem_map.1 (List.mem_reverse.1 hi)
      obtain ⟨c, hmem, hview⟩ := List.mem_filterMap.1 hv
      exact ⟨c, List.mem_append_right _ hmem, (Hook.samePlace_of_view hl hview).id.symm.trans he⟩
    · obtain ⟨c, hmem, he⟩ := hf.seen i hi
      exact ⟨c, List.mem_append_left _ hmem, he⟩

/-- **Catching up behind hooks.**  What is shown of the commits after the place of a handle is taken
over, and the handle moves to the last one that is shown. -/
theorem refreshed (hl : ∀ k ∈ hooks, k.Lenient) (hf : h.Follows hooks own l upto rest)
    (hk : l.Kept) (hlt : (eventsOf (l.ofStream h.stream)).length < maxRevision) :
    ∃ read hidden, rest = read ++ hidden ∧ (∀ c ∈ hidden, Hook.view hooks c = none) ∧
      (read = [] ∨ ∃ init d, read = init ++ [d] ∧ Hook.view hooks d ≠ none) ∧
      ∃ g, g = h.refreshedBehind hooks l ∧
        g.Follows hooks own l (upto ++ read) hidden ∧ g.stream = h.stream ∧
        g.uncommitted = h.uncommitted ∧ g.uncommittedHeaders = h.uncommittedHeaders := by
  have hnext : nextRevision h.revision ≤ (eventsOf upto).length + 1 := by
    rw [hf.revision]
    exact Nat.min_le_left ..
  rw [refreshedBehind, hf.read_eq hk hlt]
  exact hf.merged hl hk hlt hnext

/-- A handle at the head takes its own commit over as it has written it. -/
theorem takesOwn (hf : h.Follows hooks own l upto []) {c : Commit} (hc : c.stream = h.stream)
    (hne : c.events ≠ []) (hs : c.sequence = h.sequence + 1)
    (hr : c.revision = h.revision + c.events.length) (hm : c.revision ≤ maxRevision)
    (hid : ∀ d ∈ upto, d.id ≠ c.id) :
    ((h.merge (nextRevision h.revision) c.revision [c]).clearChanges).Follows hooks (own ++ [c])
        (l.append c) (upto ++ [c]) [] ∧
      ((h.merge (nextRevision h.revision) c.revision [c]).clearChanges).stream = h.stream ∧
      ((h.merge (nextRevision h.revision) c.revision [c]).clearChanges).committed
        = h.committed ++ c.events := by
  have hseen : c.id ∉ h.seen := fun hmem => by
    obtain ⟨d, hd, he⟩ := hf.seen _ hmem
    exact hid d hd he
  have hfirst := Commit.firstRevision_eq hne hr hm
  have hnext : nextRevision h.revision ≤ h.revision + 1 := Nat.min_le_left ..
  have hlen := List.length_pos_iff.2 hne
  have hbefore : upto.filterMap (shownTo hooks (own ++ [c]))
      = upto.filterMap (shownTo hooks own) := by
    refine List.filterMap_congr fun d hd => ?_
    have hne : d ≠ c := fun he => hid d hd (congrArg (·.id) he)
    simp [shownTo, hne]
  have hmerge := @merge_all h (nextRevision h.revision) c.revision [c] (by simpa using hseen)
    (by simp) (by simpa using ⟨hne, by omega, by omega⟩) hm
  rw [hmerge]
  refine ⟨clearChanges ⟨?_, fun d hd => ?_, ?_, ?_, ?_, fun i hi => ?_⟩, rfl, ?_⟩
  · show (l.append c).ofStream h.stream = _
    rw [Ledger.ofStream_append, if_pos hc, hf.stream, List.append_nil, List.append_nil]
  · rcases List.mem_append.1 hd with hd | hd
    · exact List.mem_append_left _ (hf.own_mem d hd)
    · exact List.mem_append_right _ hd
  · show h.committed ++ eventsOf [c] = _
    rw [List.filterMap_append, eventsOf_append, hbefore, hf.committed]
    simp [shownTo]
  · show c.revision = _
    rw [hr, hf.revision, eventsOf_append, List.length_append, eventsOf_cons, eventsOf_nil,
      List.append_nil]
  · show c.sequence = _
    rw [hs, hf.sequence, List.length_append, List.length_singleton]
  · rcases List.mem_append.1 hi with hi | hi
    · exact ⟨c, by simp, (List.mem_singleton.1 hi).symm⟩
    · obtain ⟨d, hd, he⟩ := hf.seen i hi
      exact ⟨d, List.mem_append_left _ hd, he⟩
  · show h.committed ++ eventsOf [c] = _
    rw [eventsOf_cons, eventsOf_nil, List.append_nil]

end Follows

/-- What is left of a commit under way: all of it, the submission after the id was looked for in
vain, or a reload after the store has told of the commit of the id, or of other writers; in the last
case the handle is behind its stream. -/
inductive Pends (h : Handle) (l : Ledger) :
    Program (Handle × Except Fault (Option Commit)) → Prop
  | start (id : CommitId) (stamp : Stamp) : Pends h l (h.commitChanges id stamp)
  | submit (notices : List Notice) (id : CommitId) (stamp : Stamp) (hne : h.uncommitted ≠ []) :
    Pends h l (.note notices (h.submit id stamp))
  | stored (c : Commit) : Pends h l (h.reload clearChanges (.ok (some c)))
  | beaten (stream : StreamId) (revision sequence : Nat) (hne : h.uncommitted ≠ [])
    (hbehind : h.sequence < (l.ofStream h.stream).length) :
    Pends h l (h.reload (fun g => g) (.error (.conflict stream revision sequence)))

/-- What is left of a commit is left while the stream grows. -/
theorem Pends.mono {l l' : Ledger} {p : Program (Handle × Except Fault (Option Commit))}
    (hp : h.Pends l p) (hl : l.Grows l') : h.Pends l' p := by
  cases hp with
  | start id stamp => exact .start id stamp
  | submit notices id stamp hne => exact .submit notices id stamp hne
  | stored c => exact .stored c
  | beaten stream revision sequence hne hbehind =>
    obtain ⟨more, hmore⟩ := hl h.stream
    refine .beaten stream revision sequence hne ?_
    rw [hmore, List.length_append]
    omega

/-- What the next call of a commit under way comes to, behind hooks. -/
inductive Proceeds (h : Handle) (hooks : List Hook) (own : List Commit) (m : Memory) :
    Program (Handle × Except Fault (Option Commit)) → Memory → Prop
  /-- There is more to do, and nothing was written. -/
  | goesOn {p} (hp : p.result? = none) (ha : h.Pends m.ledger p) : Proceeds h hooks own m p m
  /-- Nothing was written, and there is nothing more to do. -/
  | answers {p g answer} (hp : p.result? = some (g, .ok answer)) (upto rest : List Commit)
    (hg : g.Follows hooks own m.ledger upto rest) : Proceeds h hooks own m p m
  /-- The handle has taken over what it was shown after a conflict. -/
  | beaten {p g stream revision sequence}
    (hp : p.result? = some (g, .error (.conflict stream revision sequence)))
    (hg : g = h.refreshedBehind hooks m.ledger) (hne : h.uncommitted ≠ [])
    (hbehind : h.sequence < (m.ledger.ofStream h.stream).length) : Proceeds h hooks own m p m
  /-- The handle was at the head, and what it has staged is written. -/
  | writes {p g c} (hp : p.result? = some (g, .ok (some c))) (hs : g.stream = h.stream)
    (hstream : c.stream = h.stream)
    (he : g.committed = h.committed ++ h.uncommitted)
    (hg : g.Follows hooks (own ++ [c]) (m.ledger.append c)
      (m.ledger.ofStream h.stream ++ [c]) []) :
    Proceeds h hooks own m p { m with ledger := m.ledger.append c }

section Calls

variable {hooks : List Hook} {own upto rest : List Commit} {m : Memory}

/-- Reloading behind hooks is one call, and takes over what is shown of the commits after the place
of the handle. -/
theorem step_reload_behind (hl : ∀ k ∈ hooks, k.Lenient) (hr : m.readsDisabled = false)
    (h : Handle) (settle : Handle → Handle) (result : Except Fault (Option Commit)) :
    ∃ ns, (h.reload settle result).step (Hook.store hooks Memory.engine) m
      = (.note ns (.done (settle (h.refreshedBehind hooks m.ledger), result)), m) := by
  unfold reload refresh
  rw [Program.bind_assoc]
  obtain ⟨ns, hs⟩ := Program.step_collect_on (Hook.store hooks Memory.engine)
    (.revisions h.stream (nextRevision h.revision) maxRevision) _ m
  refine ⟨ns, hs.trans ?_⟩
  rw [Hook.read_eq hl hr, collectItems_ok, Hook.store_state fun k hk => (hl k hk).allows]
  rfl

/-- What submitting behind hooks can meet: the id is on the stream, or something comes after the
place of the handle, or the handle is at the head and the commit is stored. -/
theorem submit_behind_cases (hl : ∀ k ∈ hooks, k.Lenient)
    (hf : h.Follows hooks own m.ledger upto rest) (hk : m.ledger.Kept)
    (hc : m.commitsDisabled = false)
    (hlt : (eventsOf (m.ledger.ofStream h.stream)).length < maxRevision) (hne : h.uncommitted ≠ [])
    (id : CommitId) (stamp : Stamp) :
    (∃ c ∈ m.ledger.ofStream h.stream, c.id = id ∧
      (h.submit id stamp).step (Hook.store hooks Memory.engine) m
        = (h.settle ((Hook.view hooks c).elim (.ok none) fun d => .error (.duplicate d)), m)) ∨
    (∀ c ∈ m.ledger.ofStream h.stream, c.id ≠ id) ∧
      (rest ≠ [] ∧ (h.submit id stamp).step (Hook.store hooks Memory.engine) m
          = (h.reload (fun g => g) (.error (h.attempt id stamp).conflict), m) ∨
        rest = [] ∧ ∃ c, c = (h.attempt id stamp).confirm (m.ledger.lastCheckpoint + 1) ∧
          (h.submit id stamp).step (Hook.store hooks Memory.engine) m
            = (.done ((h.merge (nextRevision h.revision) c.revision [c]).clearChanges,
                .ok (some c)), { m with ledger := m.ledger.append c })) := by
  obtain ⟨hreply, hstate⟩ := Hook.commit_eq hl (h.attempt id stamp) m
  have hcommit := Memory.commit_eq hc (h.attempt id stamp)
  rw [attempt_events, if_neg hne] at hcommit
  rw [hcommit] at hreply hstate
  rw [step_submit_on, hstate, hreply]
  -- the numbers of the handle are those of the end of the stream, or smaller ones
  have hlen := (hk.history h.stream).length_le
  have hplace : h.sequence < (m.ledger.ofStream h.stream).length ∧ rest ≠ [] ∨ rest = [] ∧
      h.sequence = (m.ledger.ofStream h.stream).length ∧
      h.revision = (eventsOf (m.ledger.ofStream h.stream)).length := by
    rw [hf.stream, hf.sequence, hf.revision, List.length_append]
    cases rest with
    | nil => exact .inr ⟨rfl, by simp, by simp⟩
    | cons d rest => exact .inl (by simp)
  have hcases := hk.commit_cases (h.attempt id stamp)
  simp only [attempt_stream, attempt_id, attempt_events, attempt_sequence, attempt_revision,
    Nat.add_lt_add_iff_right, Nat.add_right_cancel_iff, Nat.succ_le_iff] at hcases
  obtain ⟨c, hmem, hid, he⟩ | ⟨hid, ⟨hbehind, he⟩ | ⟨⟨hahead, hgap⟩, -⟩ | ⟨⟨hs, hr⟩, he⟩⟩ := hcases
  · rw [he]
    exact .inl ⟨c, hmem, hid, rfl⟩
  · rw [he]
    refine .inr ⟨hid, .inl ⟨?_, rfl⟩⟩
    obtain ⟨-, hrest⟩ | ⟨-, hs, hr⟩ := hplace
    · exact hrest
    · omega
  · omega
  · rw [he]
    refine .inr ⟨hid, .inr ⟨?_, _, rfl, rfl⟩⟩
    obtain ⟨hlt, -⟩ | ⟨hrest, -⟩ := hplace
    · omega
    · exact hrest

/-- A submission behind hooks, by a handle that stands where it was shown its stream. -/
theorem submit_proceeds (hl : ∀ k ∈ hooks, k.Lenient)
    (hf : h.Follows hooks own m.ledger upto rest) (hk : m.ledger.Kept)
    (hc : m.commitsDisabled = false)
    (hlt : (eventsOf (m.ledger.ofStream h.stream)).length < maxRevision) (hne : h.uncommitted ≠ [])
    (id : CommitId) (stamp : Stamp)
    (hb : ∀ c ∈ ((h.submit id stamp).step (Hook.store hooks Memory.engine) m).2.ledger.log,
      c.revision < maxRevision) :
    h.Proceeds hooks own m ((h.submit id stamp).step (Hook.store hooks Memory.engine) m).1
      ((h.submit id stamp).step (Hook.store hooks Memory.engine) m).2 := by
  obtain ⟨c, -, -, hs⟩ | ⟨hid, ⟨hrest, hs⟩ | ⟨rfl, c, rfl, hs⟩⟩ :=
    submit_behind_cases hl hf hk hc hlt hne id stamp
  · rw [hs]
    cases Hook.view hooks c with
    | none => exact .answers rfl _ _ hf
    | some d => exact .goesOn rfl (.stored d)
  · rw [hs]
    refine .goesOn rfl (.beaten _ _ _ hne ?_)
    have := List.length_pos_iff.2 hrest
    rw [hf.stream, hf.sequence, List.length_append]
    omega
  · rw [hs] at hb ⊢
    have hupto : m.ledger.ofStream h.stream = upto := by rw [hf.stream, List.append_nil]
    have hmax := (hb _ (List.mem_append_right _ (List.mem_singleton_self _))).le
    obtain ⟨hfollows, hstream, hcommitted⟩ := hf.takesOwn rfl hne rfl rfl hmax (hupto ▸ hid)
    exact .writes rfl hstream rfl hcommitted (hupto ▸ hfollows)

/-- **The next call of a commit under way, behind hooks.** -/
theorem Pends.step (hl : ∀ k ∈ hooks, k.Lenient)
    {p : Program (Handle × Except Fault (Option Commit))} (hp : h.Pends m.ledger p)
    (hf : h.Follows hooks own m.ledger upto rest) (hk : m.ledger.Kept)
    (hr : m.readsDisabled = false) (hc : m.commitsDisabled = false)
    (hlt : (eventsOf (m.ledger.ofStream h.stream)).length < maxRevision)
    (hb : ∀ c ∈ (p.step (Hook.store hooks Memory.engine) m).2.ledger.log,
      c.revision < maxRevision) :
    h.Proceeds hooks own m (p.step (Hook.store hooks Memory.engine) m).1
      (p.step (Hook.store hooks Memory.engine) m).2 := by
  cases hp with
  | submit notices id stamp hne => exact submit_proceeds hl hf hk hc hlt hne id stamp hb
  | stored c =>
    obtain ⟨ns, hs⟩ := h.step_reload_behind hl hr clearChanges (.ok (some c))
    rw [hs]
    obtain ⟨read, hidden, -, -, -, g, rfl, hg, -⟩ := hf.refreshed hl hk hlt
    exact .answers rfl _ _ hg.clearChanges
  | beaten stream revision sequence hne hbehind =>
    obtain ⟨ns, hs⟩ := h.step_reload_behind hl hr (fun g => g)
      (.error (.conflict stream revision sequence))
    rw [hs]
    exact .beaten rfl rfl hne hbehind
  | start id stamp =>
    by_cases hne : h.uncommitted = []
    · rw [commitChanges, if_pos (by rw [hne]; rfl)]
      exact .answers rfl _ _ hf
    by_cases hseen : id ∈ h.seen
    · rw [commitChanges, if_neg (by rwa [List.isEmpty_iff]), if_pos hseen]
      obtain ⟨ns, hs⟩ := Program.step_find_on (Hook.store hooks Memory.engine)
        (.revisions h.stream 0 maxRevision) id _ m
      rw [Hook.read_eq hl hr, findItem_ok, Hook.store_state fun k hk => (hl k hk).allows] at hs
      rw [hs]
      cases ((m.ledger.read (.revisions h.stream 0 maxRevision)).filterMap
          (Hook.view hooks)).find? (·.id = id) with
      | none => exact .goesOn rfl (.submit ns id stamp hne)
      | some c => exact .answers rfl _ _ hf.clearChanges
    · rw [commitChanges, if_neg (by rwa [List.isEmpty_iff]), if_neg hseen] at hb ⊢
      exact submit_proceeds hl hf hk hc hlt hne id stamp hb

section NewId

variable (hl : ∀ k ∈ hooks, k.Lenient) (hf : h.Follows hooks own m.ledger upto rest)
  (hk : m.ledger.Kept) (hc : m.commitsDisabled = false)
  (hlt : (eventsOf (m.ledger.ofStream h.stream)).length < maxRevision) (hne : h.uncommitted ≠ [])
  {id : CommitId} (stamp : Stamp) (hid : ∀ c ∈ m.ledger.ofStream h.stream, c.id ≠ id)
include hl hf hk hc hlt hne hid

/-- A commit under a new id is submitted right away, and meets what comes after the place of the
handle, or is stored. -/
theorem step_commitChanges_new :
    rest ≠ [] ∧ (h.commitChanges id stamp).step (Hook.store hooks Memory.engine) m
        = (h.reload (fun g => g) (.error (h.attempt id stamp).conflict), m) ∨
      rest = [] ∧ ∃ g c m', (h.commitChanges id stamp).step (Hook.store hooks Memory.engine) m
        = (.done (g, .ok (some c)), m') := by
  have hseen : id ∉ h.seen := fun hmem => by
    obtain ⟨c, hc, he⟩ := hf.seen id hmem
    exact hid c (hf.stream ▸ List.mem_append_left _ hc) he
  rw [commitChanges, if_neg (by rwa [List.isEmpty_iff]), if_neg hseen]
  obtain ⟨c, hmem, he, -⟩ | ⟨-, hrefused | ⟨hrest, c, -, hs⟩⟩ :=
    submit_behind_cases hl hf hk hc hlt hne id stamp
  · exact absurd he (hid c hmem)
  · exact .inl hrefused
  · exact .inr ⟨hrest, _, c, _, hs⟩

/-- A commit under a new id by a handle at the head of its stream is accepted. -/
theorem run_commitChanges_accepted (hrest : rest = []) : ∃ c,
    ((h.commitChanges id stamp).run (Hook.store hooks Memory.engine) m).value.2 = .ok (some c) := by
  obtain ⟨hvalue, -⟩ := Program.run_step (Hook.store hooks Memory.engine)
    (h.commitChanges id stamp) m
  obtain ⟨hno, -⟩ | ⟨-, g, c, m', hs⟩ := step_commitChanges_new hl hf hk hc hlt hne stamp hid
  · exact absurd hrest hno
  · rw [hs] at hvalue
    exact ⟨c, by rw [← hvalue]; rfl⟩

/-- If only hidden commits come after the place of a handle, a commit under a new id is refused, and
handle and store stay as they are. -/
theorem run_commitChanges_refused (hr : m.readsDisabled = false) (hrest : rest ≠ [])
    (hhidden : ∀ c ∈ rest, Hook.view hooks c = none) :
    ((h.commitChanges id stamp).run (Hook.store hooks Memory.engine) m).value
        = (h, .error (h.attempt id stamp).conflict) ∧
      ((h.commitChanges id stamp).run (Hook.store hooks Memory.engine) m).state = m := by
  have hsame : h.refreshedBehind hooks m.ledger = h := by
    rw [refreshedBehind, hf.read_eq hk hlt, List.filterMap_eq_nil_iff.2 hhidden]
    rfl
  obtain ⟨hvalue, hstate⟩ := Program.run_step (Hook.store hooks Memory.engine)
    (h.commitChanges id stamp) m
  obtain ⟨-, hs⟩ | ⟨hno, -⟩ := step_commitChanges_new hl hf hk hc hlt hne stamp hid
  · obtain ⟨hvalue', hstate'⟩ := Program.run_step (Hook.store hooks Memory.engine)
      (h.reload (fun g => g) (.error (h.attempt id stamp).conflict)) m
    obtain ⟨ns, hreload⟩ := h.step_reload_behind hl hr (fun g => g)
      (.error (h.attempt id stamp).conflict)
    rw [hs] at hvalue hstate
    rw [hreload, hsame] at hvalue' hstate'
    exact ⟨hvalue.symm.trans hvalue'.symm, hstate.symm.trans hstate'.symm⟩
  · exact absurd hno hrest

end NewId

end Calls
end Handle
end EventSourcing
