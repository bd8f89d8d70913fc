import EventSourcing.Proofs.Handle

/-!
# Catching up from a bounded window

A handle whose window ends before the head of its stream loses the race for the next commit, and
catches up. What it then has depends on where the window ended. `Opening.Cut` is the state between
the two: the stream is cut into the commits that were read, all of them counted as seen, and those
after them. If the window ended with a commit, everything after it is new, and the handle ends up at
the head. If the window ended inside a commit, that commit is seen although some of its events are
not in the view, and catching up passes over it (`Opening.catches_up_iff`).
-/

namespace EventSourcing

/-- A handle that is at the head of its stream: it has all events after a revision, it stands at the
last commit, and its next commit is accepted. -/
structure Handle.CaughtUp (h : Handle) (base : Nat) (m : Memory) : Prop where
  committed : h.committed = (eventsOf (m.ledger.ofStream h.stream)).drop base
  head : (h.sequence, h.revision) = m.ledger.headOf h.stream
  accepted : ∀ id stamp, (∀ c ∈ m.ledger.ofStream h.stream, c.id ≠ id) →
    ∃ c, ((h.commitChanges id stamp).run Memory.engine m).value.2 = .ok (some c)

namespace Opening

/-- The view ends before the head of the stream, and a window has an event in it. -/
def EndsBelow (head : Nat) : Opening → Prop
  | .create _ => 0 < head
  | .window _ first last => max first 1 ≤ last ∧ last < head
  | .fromSnapshot t last => t.revision ≤ last ∧ last < head

/-- How a handle stands whose view ends inside a stream. -/
structure Cut (o : Opening) (h : Handle) (old post : List Commit) : Prop where
  stream : h.stream = o.stream
  committed : h.committed = ((eventsOf (old ++ post)).take o.last).drop o.base
  revision : h.revision = o.last
  sequence : h.sequence = old.length
  seen : ∀ i ∈ h.seen, ∃ c ∈ old, c.id = i
  straddling : ∀ c ∈ old, o.last < c.revision → c.id ∈ h.seen
  starts : ∀ c ∈ old, c.firstRevision ≤ o.last
  later : ∀ c ∈ post, o.last < c.firstRevision

variable {o : Opening} {h g : Handle} {cs old post : List Commit} {m : Memory}

theorem EndsBelow.last_lt {head : Nat} (hb : o.EndsBelow head) : o.last < head := by
  cases o with
  | create s => exact hb
  | window s first last => exact hb.2
  | fromSnapshot t last => exact hb.2

theorem EndsBelow.base_le {head : Nat} (hb : o.EndsBelow head) : o.base ≤ o.last := by
  cases o with
  | create s => exact Nat.le_refl 0
  | window s first last => have := hb.1; simp only [base, Opening.last]; omega
  | fromSnapshot t last => exact hb.1

/-- The commits of a history that start up to a revision below its end reach it. -/
theorem last_le_old (hc : Continues 0 0 (old ++ post))
    (hm : (eventsOf (old ++ post)).length ≤ maxRevision) {last : Nat}
    (hlast : last < (eventsOf (old ++ post)).length) (hlater : ∀ c ∈ post, last < c.firstRevision) :
    last ≤ (eventsOf old).length := by
  cases post with
  | nil => rw [List.append_nil] at hlast; omega
  | cons d post =>
    have hd := hlater d (List.mem_cons_self ..)
    have hle := (hc.revision_le (c := d) (by simp)).2
    obtain ⟨-, hne, -, hr, -⟩ := Continues.append_iff.1 hc
    have := Commit.firstRevision_eq hne hr (by omega)
    omega

/-- What merging the commits of a read makes of a new handle, if the read begins with the commit
before the view or with the first of the view, and the view ends inside the stream. -/
theorem cut_of_merge (hc : Continues 0 0 cs) (hid : (cs.map (·.id)).Nodup)
    (hm : (eventsOf cs).length ≤ maxRevision) {lo first : Nat} (hfirst : first - 1 = o.base)
    (hlo : lo ≤ first) (hlast : lo ≤ o.last) (hend : o.last < (eventsOf cs).length)
    (hh : h = (Handle.create o.stream).merge first o.last
      (cs.filter fun c => lo ≤ c.revision && c.firstRevision ≤ o.last)) :
    h.committed.length = o.last - o.base ∧ (o.base < o.last → h.revision = o.last) ∧
      ∃ old post, cs = old ++ post ∧ o.Cut { h with revision := o.last } old post := by
  obtain ⟨pre, mid, post, hcs, hmid, hpre, hpost, hmerge⟩ :=
    Handle.merge_between o.stream hc hid hm hlo o.last
  have hlen := length_window 0 first o.last (eventsOf cs)
  rw [Nat.sub_zero, Nat.min_eq_left hend.le, Nat.sub_zero, hfirst] at hlen
  rw [hh, ← hmid, hmerge]
  refine ⟨hlen, fun hlt => ?_, pre ++ mid, post, hcs, ?_⟩
  · show (if _ then _ else _) = _
    rw [if_neg, Nat.min_eq_left hend.le]
    intro hnil
    rw [hnil, List.length_nil] at hlen
    omega
  have hstarts : ∀ c ∈ mid, c.firstRevision ≤ o.last := fun c hc => by
    rw [hmid] at hc
    have := (List.mem_filter.1 hc).2
    simp only [Bool.and_eq_true, decide_eq_true_eq] at this
    exact this.2
  have hreach : o.last ≤ (eventsOf (pre ++ mid)).length :=
    last_le_old (hcs ▸ hc) (hcs ▸ hm) (hcs ▸ hend) hpost
  rw [hcs, Continues.append_iff, Continues.append_iff] at hc
  refine ⟨rfl, by rw [← hcs, ← hfirst]; rfl, rfl, ?_, ?_, ?_, ?_, hpost⟩
  · show (if mid = [] then 0 else (pre ++ mid).length) = _
    split
    · -- nothing was read: then no commit comes before the end of the view
      rename_i hnil
      rw [hnil, List.append_nil] at hreach ⊢
      cases hl : pre.getLast? with
      | none => rw [List.getLast?_eq_none_iff.1 hl]; rfl
      | some c =>
        have := hpre c (List.mem_of_getLast? hl)
        have := (hc.1.1.getLast hl).2.2
        omega
    · rfl
  · intro i hi
    obtain ⟨c, hc, he⟩ := List.mem_map.1 (List.mem_reverse.1 hi)
    exact ⟨c, List.mem_append_right _ hc, he⟩
  · intro c hc hlt
    rcases List.mem_append.1 hc with hc | hc
    · have := hpre c hc
      omega
    · exact List.mem_reverse.2 (List.mem_map_of_mem hc)
  · intro c hmem
    rcases List.mem_append.1 hmem with hmem | hmem
    · have := hpre c hmem
      have := (hc.1.1.firstRevision_add hmem (by
        rw [hcs] at hm; simp only [eventsOf_append, List.length_append] at hm; omega)).1
      have := List.length_pos_iff.2 (hc.1.1.of_mem hmem).choose_spec.choose_spec.2.1
      omega
    · exact hstarts c hmem

/-- A view that ends below the head is opened, and cuts its stream. -/
theorem exists_cut (hk : m.ledger.Kept) (hr : m.readsDisabled = false)
    (hm : (eventsOf (m.ledger.ofStream o.stream)).length ≤ maxRevision)
    (hb : o.EndsBelow (eventsOf (m.ledger.ofStream o.stream)).length) :
    ∃ h old post, (o.program.run Memory.engine m).value = .ok h ∧
      m.ledger.ofStream o.stream = old ++ post ∧ o.Cut h old post := by
  have hlast := hb.last_lt
  cases o with
  | create s =>
    refine ⟨_, [], m.ledger.ofStream s, rfl, rfl, rfl, rfl, rfl, rfl, fun _ hi => ?_, ?_, ?_,
      fun c hc => ?_⟩
    · simp [Handle.create] at hi
    · simp
    · simp
    · exact ((hk.history s).firstRevision_add hc (by rw [Nat.zero_add]; exact hm)).2
  | window s first last =>
    have hlt : first - 1 < last := by have := hb.1; omega
    obtain ⟨h, hh⟩ : ∃ h, h = (Handle.create s).merge first last ((m.ledger.ofStream s).filter
      fun c => first ≤ c.revision && c.firstRevision ≤ last) := ⟨_, rfl⟩
    obtain ⟨hlen, hrev, old, post, hcs, hcut⟩ := cut_of_merge (o := .window s first last)
      (hk.history s) (hk.ids s) hm rfl (Nat.le_refl first)
      (by have := hb.1; simp only [Opening.last]; omega) hlast hh
    rw [← hrev hlt] at hcut
    refine ⟨h, old, post, (Handle.run_openWindow hr s first last).trans ?_, hcs, hcut⟩
    rw [Ledger.read_revisions, ← hh, if_neg]
    rintro ⟨-, hnil⟩
    rw [hnil, List.length_nil] at hlen
    simp only [base, Opening.last] at hlen
    omega
  | fromSnapshot t last =>
    have hnext : nextRevision t.revision = t.revision + 1 :=
      Nat.min_eq_left (Nat.succ_le_of_lt (hb.1.trans_lt (hb.2.trans_le hm)))
    obtain ⟨h, hh⟩ : ∃ h, h = (Handle.create t.stream).merge (t.revision + 1) last
      ((m.ledger.ofStream t.stream).filter fun c =>
        t.revision ≤ c.revision && c.firstRevision ≤ last) := ⟨_, rfl⟩
    obtain ⟨hlen, -, old, post, hcs, hcut⟩ := cut_of_merge (o := .fromSnapshot t last)
      (hk.history t.stream) (hk.ids t.stream) hm rfl (Nat.le_succ _) hb.1 hlast hh
    refine ⟨_, old, post, (Handle.run_openFromSnapshot hr t last).trans ?_, hcs, hcut⟩
    rw [Ledger.read_revisions, hnext, ← hh, hlen]
    simp only [base, Opening.last, Nat.add_sub_cancel' hb.1]

namespace Cut

variable (hc : Continues 0 0 (old ++ post)) (hid : ((old ++ post).map (·.id)).Nodup)
  (hm : (eventsOf (old ++ post)).length ≤ maxRevision)
  (hend : o.last < (eventsOf (old ++ post)).length)

include hc hm hend

/-- The commits up to the cut end with the view just if the view ends with a commit. -/
theorem length_old_iff (h : o.Cut g old post) : (eventsOf old).length = o.last ↔
    o.last = 0 ∨ ∃ c ∈ old ++ post, c.revision = o.last := by
  have hreach := last_le_old hc hm hend h.later
  obtain ⟨hold, hpost⟩ := Continues.append_iff.1 hc
  rw [Nat.zero_add, Nat.zero_add] at hpost
  rw [eventsOf_append, List.length_append] at hm hend
  constructor
  · intro heq
    cases hl : old.getLast? with
    | none =>
      rw [List.getLast?_eq_none_iff.1 hl] at heq
      exact .inl heq.symm
    | some c =>
      refine .inr ⟨c, List.mem_append_left _ (List.mem_of_getLast? hl), ?_⟩
      rw [(hold.getLast hl).2.2, Nat.zero_add, heq]
  · intro hboundary
    cases hl : old.getLast? with
    | none =>
      rw [List.getLast?_eq_none_iff.1 hl] at hreach ⊢
      exact (Nat.le_zero.1 hreach).symm
    | some d =>
      -- the last commit read starts in the view and ends at or after the end of the view
      obtain ⟨init, rfl⟩ := List.getLast?_eq_some_iff.1 hl
      obtain ⟨hinit, hne, -, hr, -⟩ := Continues.append_iff.1 hold
      have hstart := h.starts d (by simp)
      rw [eventsOf_append, eventsOf_cons, eventsOf_nil, List.append_nil, List.length_append] at *
      have hfirst := Commit.firstRevision_eq hne hr (by omega)
      obtain hzero | ⟨c, hmem, hcr⟩ := hboundary
      · omega
      rcases List.mem_append.1 hmem with hmem | hmem
      · rcases List.mem_append.1 hmem with hmem | hmem
        · have := (hinit.revision_le hmem).2
          omega
        · rw [List.mem_singleton.1 hmem] at hcr
          omega
      · have := (hpost.firstRevision_add hmem (by
          rw [List.length_append]; omega)).1
        have := h.later c hmem
        have := List.length_pos_iff.2 (hpost.of_mem hmem).choose_spec.choose_spec.2.1
        omega

include hid in
/-- Catching up takes over what comes after the cut, and no more. -/
theorem refreshed_eq (h : o.Cut g old post) {l : Ledger}
    (hl : l.ofStream o.stream = old ++ post) :
    g.refreshed l = { g with
      committed := g.committed ++ eventsOf post
      committedHeaders := post.foldl (fun f c => Fields.merge f c.headers) g.committedHeaders
      seen := (post.map (·.id)).reverse ++ g.seen
      revision := if post = [] then g.revision else (eventsOf (old ++ post)).length
      sequence := (old ++ post).length } := by
  have hreach := last_le_old hc hm hend h.later
  rw [← h.stream] at hl
  rw [Handle.refreshed, Ledger.read_revisions, hl,
    Handle.merge_rest hc hid hm (fun c hmem hlt => h.straddling c hmem (h.revision ▸ hlt))
      (fun c hmem hseen => ?_) (h.revision ▸ hreach) (by rw [h.revision]; omega)]
  · congr 1
    split
    · rename_i hnil
      rw [h.sequence, hnil, List.append_nil]
    · rfl
  · obtain ⟨d, hd, he⟩ := h.seen _ hseen
    rw [List.map_append, List.nodup_append] at hid
    exact hid.2.2 _ (List.mem_map_of_mem hd) _ (List.mem_map_of_mem hmem) he

include hid in
/-- Catching up leads to the head just if the commits up to the cut end with the view. -/
theorem caughtUp_iff (h : o.Cut g old post) (hk : m.ledger.Kept) (hm' : m.commitsDisabled = false)
    (hl : m.ledger.ofStream o.stream = old ++ post) (hne : g.uncommitted ≠ [])
    (hroom : (eventsOf (old ++ post)).length < maxRevision) (hbase : o.base ≤ o.last) :
    (g.refreshed m.ledger).CaughtUp o.base m ↔ (eventsOf old).length = o.last := by
  rw [h.refreshed_eq hc hid hm hend hl]
  have hsplit : (eventsOf (old ++ post)).length
      = (eventsOf old).length + (eventsOf post).length := by
    rw [eventsOf_append, List.length_append]
  constructor
  · intro hcaught
    have hlen := congrArg List.length hcaught.committed
    simp only [h.stream, hl, h.committed, List.length_append, List.length_drop, List.length_take]
      at hlen
    omega
  · intro heq
    have hpost : post ≠ [] := fun hnil => by
      have : (eventsOf post).length = 0 := by rw [hnil]; rfl
      omega
    refine ⟨?_, ?_, fun id stamp hnew => ?_⟩
    · show g.committed ++ eventsOf post = (eventsOf (m.ledger.ofStream g.stream)).drop o.base
      rw [h.committed, h.stream, hl, eventsOf_append, List.take_append_of_le_length heq.ge, ← heq,
        List.take_length, List.drop_append_of_le_length (heq ▸ hbase)]
    · show ((old ++ post).length, if post = [] then _ else _) = m.ledger.headOf g.stream
      rw [hk.headOf_eq, h.stream, hl, if_neg hpost]
    · simp only [h.stream, hl] at hnew
      refine ⟨_, Handle.run_commitChanges_head hk hm' ?_ ?_ ?_ ?_ ?_ ?_⟩
      · exact hne
      · intro hseen
        rcases List.mem_append.1 hseen with hseen | hseen
        · obtain ⟨c, hc, he⟩ := List.mem_map.1 (List.mem_reverse.1 hseen)
          exact hnew c (List.mem_append_right _ hc) he
        · obtain ⟨c, hc, he⟩ := h.seen _ hseen
          exact hnew c (List.mem_append_left _ hc) he
      · simpa only [h.stream, hl] using hnew
      · simp only [h.stream, hl]
      · simp only [h.stream, hl, if_neg hpost]
      · simp only [h.stream, hl]
        exact hc.length_le.trans_lt hroom

end Cut

/-- **Catching up from a view that ends below the head.**  The commit is refused with a conflict,
the store stays as it is and what is staged is kept. The handle has then all events of its view and
after it, and its next commit is accepted, exactly if the view ended with a commit. -/
theorem catches_up_iff (ops : List Operation) (hops : ∀ op ∈ ops, op.InWords) (o : Opening)
    (hb : o.EndsBelow (eventsOf ((Memory.after ops).ledger.ofStream o.stream)).length) :
    ∃ h, (o.program.run Memory.engine (Memory.after ops)).value = .ok h ∧
      ∀ staged headers id stamp, staged ≠ [] →
        (eventsOf ((Memory.after ops).ledger.ofStream o.stream)).length + staged.length
          ≤ maxRevision →
        (∀ c ∈ (Memory.after ops).ledger.ofStream o.stream, c.id ≠ id) →
        ∃ g sequence, ((({ h with uncommitted := staged, uncommittedHeaders := headers } :
              Handle).commitChanges id stamp).run Memory.engine (Memory.after ops)).value
            = (g, .error (.conflict o.stream (o.last + staged.length) sequence)) ∧
          ((({ h with uncommitted := staged, uncommittedHeaders := headers } :
              Handle).commitChanges id stamp).run Memory.engine (Memory.after ops)).state
            = Memory.after ops ∧
          (g.stream = o.stream ∧ g.uncommitted = staged ∧ g.uncommittedHeaders = headers) ∧
          (g.CaughtUp o.base (Memory.after ops) ↔ o.last = 0 ∨
            ∃ c ∈ (Memory.after ops).ledger.ofStream o.stream, c.revision = o.last) := by
  have hs := Memory.sound_after ops
  have hm : (eventsOf ((Memory.after ops).ledger.ofStream o.stream)).length ≤ maxRevision :=
    Memory.length_eventsOf_le hops o.stream
  obtain ⟨h, old, post, hopen, hcs, hcut⟩ := exists_cut hs.kept hs.reads hm hb
  have hc := hs.kept.history o.stream
  have hid := hs.kept.ids o.stream
  have hend := hb.last_lt
  refine ⟨h, hopen, fun staged headers id stamp hne hroom hnew => ?_⟩
  obtain ⟨g, hg⟩ : ∃ g : Handle, g = { h with
    uncommitted := staged, uncommittedHeaders := headers } := ⟨_, rfl⟩
  have hgcut : o.Cut g old post := by
    rw [hg]
    exact ⟨hcut.stream, hcut.committed, hcut.revision, hcut.sequence, hcut.seen, hcut.straddling,
      hcut.starts, hcut.later⟩
  have hgne : g.uncommitted ≠ [] := by rwa [hg]
  rw [← hg]
  have hgseen : id ∉ g.seen := fun hseen => by
    obtain ⟨c, hmem, he⟩ := hgcut.seen _ hseen
    exact hnew c (hcs ▸ List.mem_append_left _ hmem) he
  obtain ⟨hvalue, hstate⟩ := Handle.run_commitChanges_behind hs.kept hs.reads hs.commits hgne
    stamp hgseen (by rwa [hgcut.stream]) (by rwa [hgcut.stream, hgcut.revision])
  have hlen := List.length_pos_iff.2 hne
  rw [hcs] at hc hid hm hend hroom
  have hcaught := hgcut.caughtUp_iff hc hid hm hend hs.kept hs.commits hcs hgne (by omega)
    hb.base_le
  refine ⟨g.refreshed (Memory.after ops).ledger, g.sequence + 1, hvalue.trans ?_, hstate, ?_, ?_⟩
  · rw [Handle.attempt_conflict, hgcut.stream, hgcut.revision, hg]
  · rw [hgcut.refreshed_eq hc hid hm hend hcs]
    exact ⟨hgcut.stream, by rw [hg], by rw [hg]⟩
  · rw [hcs]
    exact hcaught.trans (hgcut.length_old_iff hc hm hend)

/-- A stream of two commits, with two events and one. -/
def twoCommits : List Operation :=
  [.commit (Memory.sampleAttempt "a" 1 2 2 1), .commit (Memory.sampleAttempt "a" 2 3 1 2)]

theorem catches_up_iff_twoCommits :
    (∀ op ∈ twoCommits, op.InWords) ∧
      (window ⟨"tenant", "a"⟩ 1 2).EndsBelow
        (eventsOf ((Memory.after twoCommits).ledger.ofStream ⟨"tenant", "a"⟩)).length ∧
      ∃ h g answer,
        ((window ⟨"tenant", "a"⟩ 1 2).program.run Memory.engine (Memory.after twoCommits)).value
          = .ok h ∧
        ((({ h with uncommitted := [⟨⟨"event", .null⟩, []⟩], uncommittedHeaders := [] } :
          Handle).commitChanges ⟨List.replicate 16 7, rfl⟩ ⟨0⟩).run Memory.engine
            (Memory.after twoCommits)).value = (g, answer) ∧
        g.CaughtUp 0 (Memory.after twoCommits) := by
  have hops : ∀ op ∈ twoCommits, op.InWords := by decide
  have hbelow : (window ⟨"tenant", "a"⟩ 1 2).EndsBelow
      (eventsOf ((Memory.after twoCommits).ledger.ofStream ⟨"tenant", "a"⟩)).length :=
    ⟨by decide, by decide +kernel⟩
  obtain ⟨h, hopen, hcommit⟩ := catches_up_iff twoCommits hops (window ⟨"tenant", "a"⟩ 1 2) hbelow
  obtain ⟨g, sequence, hvalue, -, -, hcaught⟩ := hcommit [⟨⟨"event", .null⟩, []⟩] []
    ⟨List.replicate 16 7, rfl⟩ ⟨0⟩ (by decide) (by decide +kernel) (by decide +kernel)
  exact ⟨hops, hbelow, h, g, _, hopen, hvalue, hcaught.2 (.inr (by decide +kernel))⟩

/-- A stream of one commit with three events, a view of the first two of them, and what becomes of
the view: it stays where it is, and the next commit is refused again. -/
theorem not_caught_up_inside_commit :
    let m := Memory.after [.commit (Memory.sampleAttempt "a" 1 3 3 1)]
    let staged := (Memory.sampleAttempt "a" 2 4 1 2).events
    let view : Handle :=
      { stream := ⟨"tenant", "a"⟩, committed := (Memory.sampleAttempt "a" 1 2 2 1).events,
        seen := [(Memory.sampleAttempt "a" 1 3 3 1).id], revision := 2, sequence := 1 }
    let conflict : Fault := .conflict ⟨"tenant", "a"⟩ 3 2
    ((window ⟨"tenant", "a"⟩ 0 2).program.run Memory.engine m).value = .ok view ∧
      (({ view with uncommitted := staged }.commitChanges ⟨List.replicate 16 7, rfl⟩ ⟨0⟩).run
        Memory.engine m).value = ({ view with uncommitted := staged }, .error conflict) ∧
      (({ view with uncommitted := staged }.commitChanges ⟨List.replicate 16 8, rfl⟩ ⟨0⟩).run
        Memory.engine m).value.2 = .error conflict ∧
      ¬ Handle.CaughtUp { view with uncommitted := staged } 0 m := by
  refine ⟨by decide +kernel, by decide +kernel, by decide +kernel, fun hcaught => ?_⟩
  exact absurd hcaught.head (by decide +kernel)

end Opening
end EventSourcing
