import EventSourcing.Proofs.Handle
import EventSourcing.Proofs.JsonReader

/-!
# What opening a window shows

Every stored event has a revision, by its place in its commit (`Commit.numbered`). Opening the
window from `first` to `last` shows the stored events of these revisions, and takes the sequence and
the headers from the commits that hold them, although a window may begin and end inside a commit
(`Handle.openWindow_exact`).

The commits are read by a condition on their first and last revisions, and the events are then cut
by counting. In a history without gaps both come to the revisions of the events: the events cut out
are those whose revision lies in the window (`window_eq_filter`), and the commits read are those
with such an event, unless the window is empty (`Continues.meets_iff`).
-/

namespace EventSourcing

/-- The events of a commit, each with its revision. -/
def Commit.numbered (c : Commit) : List (Event × Nat) := c.events.zipIdx c.firstRevision

/-- Whether a revision lies in a window. -/
def inWindow (first last revision : Nat) : Bool := first ≤ revision && revision ≤ last

/-- Whether a commit has an event in a window. -/
def Commit.meets (first last : Nat) (c : Commit) : Bool :=
  c.numbered.any fun e => inWindow first last e.2

namespace Ledger

/-- The stored events of a stream, each with its revision. -/
def numbered (l : Ledger) (s : StreamId) : List (Event × Nat) :=
  (l.ofStream s).flatMap Commit.numbered

/-- The stored events of a stream in a window, each with its revision. -/
def eventsIn (l : Ledger) (s : StreamId) (first last : Nat) : List (Event × Nat) :=
  (l.numbered s).filter fun e => inWindow first last e.2

/-- The commit of a stream that holds a revision. -/
def commitAt (l : Ledger) (s : StreamId) (revision : Nat) : Option Commit :=
  (l.ofStream s).find? (·.meets revision revision)

end Ledger

theorem inWindow_iff {first last revision : Nat} :
    inWindow first last revision = true ↔ first ≤ revision ∧ revision ≤ last := by
  rw [inWindow, Bool.and_eq_true, decide_eq_true_eq, decide_eq_true_eq]

theorem Ledger.eventsIn_eq_nil {l : Ledger} {s : StreamId} {first last : Nat} :
    l.eventsIn s first last = [] ↔ ¬ ∃ e ∈ l.numbered s, first ≤ e.2 ∧ e.2 ≤ last := by
  rw [eventsIn, List.filter_eq_nil_iff]
  simp only [inWindow_iff, not_exists, not_and]

/-- No commit of a stream has an event in a window exactly if the stream has none. -/
theorem Ledger.filter_meets_eq_nil {l : Ledger} {s : StreamId} {first last : Nat} :
    (l.ofStream s).filter (·.meets first last) = [] ↔ l.eventsIn s first last = [] := by
  rw [eventsIn, numbered, List.filter_eq_nil_iff, List.filter_eq_nil_iff]
  constructor
  · intro h e he hin
    obtain ⟨c, hc, hec⟩ := List.mem_flatMap.1 he
    exact h c hc (List.any_eq_true.2 ⟨e, hec, hin⟩)
  · intro h c hc hmeets
    obtain ⟨e, hec, hin⟩ := List.any_eq_true.1 hmeets
    exact h e (List.mem_flatMap.2 ⟨c, hc, hec⟩) hin

section Numbers

variable {s r first last : Nat} {c : Commit} {cs : List Commit} {es : List Event}

/-- In a history the events are numbered one after the other. -/
theorem Continues.numbered_eq (h : Continues s r cs) (hm : r + (eventsOf cs).length ≤ maxRevision) :
    cs.flatMap Commit.numbered = (eventsOf cs).zipIdx (r + 1) := by
  induction cs generalizing s r with
  | nil => rfl
  | cons c cs ih =>
    obtain ⟨hne, -, hr, hcs⟩ := h
    rw [eventsOf_cons, List.length_append] at hm
    have hfirst := Commit.firstRevision_eq hne hr (by omega)
    rw [List.flatMap_cons, ih hcs (by omega), Commit.numbered, hfirst, eventsOf_cons,
      List.zipIdx_append, hr]
    congr 2
    omega

/-- A window cuts out the events whose revision lies in it. -/
theorem window_eq_filter (before first last : Nat) (es : List Event) : window before first last es
    = ((es.zipIdx (before + 1)).filter fun e => inWindow first last e.2).map (·.1) := by
  induction es generalizing before with
  | nil => exact window_nil before first last
  | cons e es ih =>
    have hcons : window before first last (e :: es)
        = window before first last [e] ++ window (before + 1) first last es :=
      window_append before first last [e] es
    rw [hcons, Handle.window_singleton, ih, List.zipIdx_cons, List.filter_cons]
    by_cases hin : first ≤ before + 1 ∧ before + 1 ≤ last
    · rw [if_pos hin, if_pos (inWindow_iff.2 hin)]
      rfl
    · rw [if_neg hin, if_neg fun h => hin (inWindow_iff.1 h)]
      rfl

/-- The last event in a window has the last revision of the window or of the stream. -/
theorem getLast?_filter_zipIdx (before first last : Nat) (es : List Event) :
    ((es.zipIdx (before + 1)).filter fun e => inWindow first last e.2).getLast?.map (·.2)
      = if window before first last es = [] then none
        else some (min last (before + es.length)) := by
  induction es using List.reverseRecOn with
  | nil => rw [window_nil, if_pos rfl, List.zipIdx_nil, List.filter_nil]; rfl
  | append_singleton es e ih =>
    have hsingle : [e].zipIdx (before + 1 + es.length) = [(e, before + es.length + 1)] := by
      rw [show before + 1 + es.length = before + es.length + 1 by omega]
      rfl
    rw [List.zipIdx_append, hsingle, List.filter_append, window_append, Handle.window_singleton,
      List.length_append, List.length_singleton]
    have hfilter : [(e, before + es.length + 1)].filter (fun e => inWindow first last e.2)
        = if first ≤ before + es.length + 1 ∧ before + es.length + 1 ≤ last
          then [(e, before + es.length + 1)] else [] := by
      simp only [List.filter_singleton, Bool.cond_eq_ite, inWindow_iff]
    rw [hfilter]
    split
    · rw [List.getLast?_concat, if_neg (List.concat_ne_nil _ _)]
      simp only [Option.map_some, Option.some.injEq]
      omega
    · rw [List.append_nil, List.append_nil, ih]
      split
      · rfl
      · -- there is an event in the window, so the one after all of these lies behind it
        rename_i hne
        have hlength := length_window before first last es
        have := List.length_pos_iff.2 hne
        simp only [Option.some.injEq]
        omega

/-- The revisions of a commit's events run from its first one on. -/
theorem Commit.meets_iff : c.meets first last = true ↔
    ∃ k, c.firstRevision ≤ k ∧ k < c.firstRevision + c.events.length ∧ first ≤ k ∧ k ≤ last := by
  have hmap : c.meets first last
      = (List.range' c.firstRevision c.events.length).any (inWindow first last) := by
    rw [← List.zipIdx_map_snd, List.any_map]
    rfl
  rw [hmap, List.any_eq_true]
  simp only [List.mem_range'_1, inWindow_iff, and_assoc]

/-- A commit of a history has an event in a window, unless this is empty, if it neither ends before
it nor begins after it. -/
theorem Continues.meets_eq (h : Continues s r cs) (hm : r + (eventsOf cs).length ≤ maxRevision)
    (hc : c ∈ cs) (hle : first ≤ last) :
    c.meets first last = (first ≤ c.revision && c.firstRevision ≤ last) := by
  have hfirst := (h.firstRevision_add hc hm).1
  obtain ⟨-, -, -, hne, -⟩ := h.of_mem hc
  have hpos := List.length_pos_iff.2 hne
  rw [Bool.eq_iff_iff, Commit.meets_iff, Bool.and_eq_true, decide_eq_true_eq, decide_eq_true_eq]
  constructor
  · rintro ⟨k, hk⟩
    omega
  · intro hends
    exact ⟨max first c.firstRevision, by omega⟩

/-- A commit of a history is the one that holds its revisions. -/
theorem Continues.find?_meets {xs ys : List Commit} (h : Continues s r (xs ++ c :: ys))
    (hm : r + (eventsOf (xs ++ c :: ys)).length ≤ maxRevision) {k : Nat}
    (hfirst : c.firstRevision ≤ k) (hlast : k ≤ c.revision) :
    (xs ++ c :: ys).find? (·.meets k k) = some c := by
  have hc : c ∈ xs ++ c :: ys := List.mem_append_right _ (List.mem_cons_self ..)
  refine List.find?_eq_some_iff_append.2 ⟨?_, xs, ys, rfl, fun d hd => ?_⟩
  · rw [h.meets_eq hm hc (Nat.le_refl k), Bool.and_eq_true, decide_eq_true_eq, decide_eq_true_eq]
    exact ⟨hlast, hfirst⟩
  · -- earlier commits end before this one begins
    have hends := (List.pairwise_append.1 h.pairwise).2.2 d hd c (List.mem_cons_self ..)
    have := (h.firstRevision_add hc hm).1
    rw [h.meets_eq hm (List.mem_append_left _ hd) (Nat.le_refl k), Bool.not_eq_true',
      Bool.and_eq_false_iff, decide_eq_false_iff_not]
    left
    omega

end Numbers

namespace Fields

theorem get?_cons (key : String) (f : String × Json) (fs : Fields) :
    get? key (f :: fs) = if f.1 = key then some f.2 else get? key fs := by
  rw [get?, List.find?_cons]
  by_cases hf : f.1 = key
  · simp [hf]
  · simp [hf, get?]

theorem get?_append (key : String) (fs gs : Fields) :
    get? key (fs ++ gs) = (get? key fs).or (get? key gs) := by
  induction fs with
  | nil => rfl
  | cons f fs ih =>
    rw [List.cons_append, get?_cons, get?_cons, ih]
    split <;> rfl

theorem get?_insert (key k : String) (v : Json) (fs : Fields) :
    get? key (insert k v fs) = if k = key then some v else get? key fs := by
  induction fs with
  | nil => exact get?_cons ..
  | cons f fs ih =>
    obtain ⟨l, w⟩ := f
    rw [insert]
    split
    · exact get?_cons ..
    split
    · rename_i heq
      subst heq
      rw [get?_cons, get?_cons]
      split <;> rfl
    · rename_i hne
      rw [get?_cons, get?_cons, ih]
      by_cases hl : l = key
      · subst hl
        rw [if_pos rfl, if_pos rfl, if_neg hne]
      · rw [if_neg hl, if_neg hl]

/-- Of the values that merged fields have for a key the last one counts. -/
theorem get?_merge (key : String) (old new : Fields) :
    get? key (merge old new) = (get? key new.reverse).or (get? key old) := by
  induction new generalizing old with
  | nil => rfl
  | cons f new ih =>
    have hstep : merge old (f :: new) = merge (insert f.1 f.2 old) new := rfl
    rw [hstep, ih, get?_insert, List.reverse_cons, get?_append, Option.or_assoc, get?_cons]
    split <;> rfl

end Fields

namespace Ledger.Kept

variable {l : Ledger} (hk : l.Kept) {s : StreamId}
  (hm : (eventsOf (l.ofStream s)).length ≤ maxRevision) (first last : Nat)
include hk hm

theorem numbered_eq : l.numbered s = (eventsOf (l.ofStream s)).zipIdx 1 :=
  (hk.history s).numbered_eq (by omega)

theorem window_eq_eventsIn :
    window 0 first last (eventsOf (l.ofStream s)) = (l.eventsIn s first last).map (·.1) := by
  rw [Ledger.eventsIn, hk.numbered_eq hm]
  exact window_eq_filter 0 first last _

theorem eventsIn_ascending : (l.eventsIn s first last).Pairwise fun e f => e.2 < f.2 := by
  have hnumbers : ((l.numbered s).map (·.2)).Pairwise (· < ·) := by
    rw [hk.numbered_eq hm, List.zipIdx_map_snd]
    exact List.pairwise_lt_range'
  exact (List.pairwise_map.1 hnumbers).filter _

/-- The revision of the last event in the window. -/
theorem getLast?_eventsIn : (l.eventsIn s first last).getLast?.map (·.2)
    = if window 0 first last (eventsOf (l.ofStream s)) = [] then none
      else some (min last (eventsOf (l.ofStream s)).length) := by
  rw [Ledger.eventsIn, hk.numbered_eq hm, getLast?_filter_zipIdx, Nat.zero_add]

/-- The commits that are read for a window are those with events in it. -/
theorem read_revisions_meets (hle : first ≤ last) :
    l.read (.revisions s first last) = (l.ofStream s).filter (·.meets first last) := by
  rw [Ledger.read_revisions]
  exact List.filter_congr fun c hc => ((hk.history s).meets_eq (by omega) hc hle).symm

/-- Revisions count from 1. -/
theorem commitAt_zero : l.commitAt s 0 = none := by
  refine List.find?_eq_none.2 fun c hc => ?_
  have hpos := ((hk.history s).firstRevision_add hc (by omega)).2
  rw [(hk.history s).meets_eq (by omega) hc (Nat.le_refl 0), Bool.and_eq_true, decide_eq_true_eq,
    decide_eq_true_eq]
  omega

/-- The last commit that is read holds the last revision of the window or of the stream. -/
theorem commitAt_last {pre mid post : List Commit} {c : Commit}
    (hcs : l.ofStream s = pre ++ (mid ++ [c]) ++ post) (hread : c.firstRevision ≤ last)
    (hpost : ∀ d ∈ post, last < d.firstRevision) :
    l.commitAt s (min last (eventsOf (l.ofStream s)).length) = some c ∧
      c.sequence = (pre ++ (mid ++ [c])).length := by
  have h := hk.history s
  have hcut : l.ofStream s = (pre ++ mid) ++ c :: post := by simp [hcs]
  rw [hcut] at h hm
  rw [Ledger.commitAt, hcut]
  obtain ⟨-, hne, hsequence, hrevision, hrest⟩ := Continues.append_iff.1 h
  have hc : c ∈ (pre ++ mid) ++ c :: post := List.mem_append_right _ (List.mem_cons_self ..)
  have hpos := List.length_pos_iff.2 hne
  have hfirst := h.firstRevision_add hc (by omega)
  have hend := h.revision_le hc
  refine ⟨h.find?_meets (by omega) (by omega) ?_, ?_⟩
  · cases post with
    | nil =>
      simp only [eventsOf_append, eventsOf_cons, eventsOf_nil, List.length_append,
        List.length_nil] at hrevision ⊢
      omega
    | cons d post =>
      -- the window ends before the next commit begins
      have hd := hpost d (List.mem_cons_self ..)
      have hdend := h.revision_le (c := d) (by simp)
      have := Commit.firstRevision_eq hrest.1 hrest.2.2.1 (by omega)
      omega
  · rw [hsequence]
    simp only [List.length_append, List.length_singleton]
    omega

end Ledger.Kept

namespace Handle

/-- The handle shows a window of a stream: its events in the order of their revisions, the revision
of the last of them and the sequence of the commit that holds it, zero if there is none, and the
headers of the commits with events in the window, where of several values the last one counts. -/
structure ShowsWindow (h : Handle) (l : Ledger) (s : StreamId) (first last : Nat) : Prop where
  stream : h.stream = s
  committed : h.committed = (l.eventsIn s first last).map (·.1)
  ascending : (l.eventsIn s first last).Pairwise fun e f => e.2 < f.2
  revision : h.revision = ((l.eventsIn s first last).getLast?.map (·.2)).getD 0
  sequence : h.sequence = ((l.commitAt s h.revision).map (·.sequence)).getD 0
  sortedHeaders : Fields.Sorted h.committedHeaders
  headers : ∀ key, Fields.get? key h.committedHeaders = Fields.get? key
    (((l.ofStream s).filter (·.meets first last)).flatMap (·.headers)).reverse
  uncommitted : h.uncommitted = []
  uncommittedHeaders : h.uncommittedHeaders = []

section Opened

variable {l : Ledger} (hk : l.Kept) {s : StreamId}
  (hm : (eventsOf (l.ofStream s)).length ≤ maxRevision) (first last : Nat)
include hk hm

/-- The handle that is opened has the events of the window, whether there are any or not. -/
theorem committed_merge : ((create s).merge first last (l.read (.revisions s first last))).committed
    = (l.eventsIn s first last).map (·.1) := by
  obtain ⟨pre, mid, post, -, hmid, -, -, hmerge⟩ :=
    merge_between s (hk.history s) (hk.ids s) hm (Nat.le_refl first) last
  rw [Ledger.read_revisions, ← hmid, hmerge]
  exact hk.window_eq_eventsIn hm first last

/-- **What opening makes of a window that is not upside down.** -/
theorem merge_showsWindow (hle : first ≤ last) :
    ((create s).merge first last (l.read (.revisions s first last))).ShowsWindow
      l s first last := by
  have hmeets := hk.read_revisions_meets hm first last hle
  have hlast := hk.getLast?_eventsIn hm first last
  have hnil : (l.ofStream s).filter (·.meets first last) = [] ↔ l.eventsIn s first last = [] :=
    Ledger.filter_meets_eq_nil
  obtain ⟨pre, mid, post, hcs, hmid, -, hpost, hmerge⟩ :=
    merge_between s (hk.history s) (hk.ids s) hm (Nat.le_refl first) last
  rw [Ledger.read_revisions, ← hmid] at hmeets ⊢
  rw [← hmeets] at hnil
  have hevents := hk.window_eq_eventsIn hm first last
  have hempty : window 0 first last (eventsOf (l.ofStream s)) = [] ↔ mid = [] := by
    rw [hevents, List.map_eq_nil_iff, hnil]
  have hheaders : mid.foldl (fun f c => Fields.merge f c.headers) []
      = Fields.ofList (mid.flatMap (·.headers)) := (List.foldl_flatMap ..).symm
  rw [hmerge]
  constructor
  case stream => rfl
  case committed => exact hevents
  case ascending => exact hk.eventsIn_ascending hm first last
  case revision =>
    rw [hlast]
    split <;> rfl
  case sequence =>
    dsimp only
    obtain rfl | ⟨init, c, rfl⟩ := List.eq_nil_or_concat' mid
    · rw [if_pos rfl, if_pos (hempty.2 rfl), hk.commitAt_zero hm]
      rfl
    · have hne : init ++ [c] ≠ [] := List.concat_ne_nil _ _
      have hc : c ∈ init ++ [c] := List.mem_append_right _ (List.mem_singleton_self c)
      rw [hmid, List.mem_filter, Bool.and_eq_true, decide_eq_true_eq, decide_eq_true_eq] at hc
      obtain ⟨hholds, hsequence⟩ := hk.commitAt_last hm last hcs hc.2.2 hpost
      rw [if_neg hne, if_neg fun h => hne (hempty.1 h), hholds, ← hsequence]
      rfl
  case sortedHeaders =>
    rw [hheaders]
    exact Json.sorted_ofList _
  case headers =>
    intro key
    rw [hheaders, ← hmeets, Fields.ofList, Fields.get?_merge]
    exact Option.or_none
  case uncommitted => rfl
  case uncommittedHeaders => rfl

end Opened

/-- **Opening shows exactly its window.**  After any run, for any stream and any two bounds, opening
tells that there is no stream exactly if a first revision above zero is asked for and no stored
event has a revision of the window. Otherwise it succeeds, and the handle shows the window. -/
theorem openWindow_exact (ops : List Operation) (hops : ∀ op ∈ ops, op.InWords) (s : StreamId)
    (first last : Nat) :
    let l := (Memory.after ops).ledger
    let answer := ((openWindow s first last).run Memory.engine (Memory.after ops)).value
    (answer = .error (.streamNotFound s) ↔
        0 < first ∧ ¬ ∃ e ∈ l.numbered s, first ≤ e.2 ∧ e.2 ≤ last) ∧
      (answer ≠ .error (.streamNotFound s) →
        ∃ h, answer = .ok h ∧ h.ShowsWindow l s first last) := by
  intro l answer
  have hsound := Memory.sound_after ops
  have hm := Memory.length_eventsOf_le hops s
  have hrun := run_openWindow hsound.reads s first last
  have hempty : ((create s).merge first last (l.read (.revisions s first last))).committed = [] ↔
      ¬ ∃ e ∈ l.numbered s, first ≤ e.2 ∧ e.2 ≤ last := by
    rw [committed_merge hsound.kept hm, List.map_eq_nil_iff]
    exact Ledger.eventsIn_eq_nil
  by_cases hnone : 0 < first ∧ ¬ ∃ e ∈ l.numbered s, first ≤ e.2 ∧ e.2 ≤ last
  · have hanswer : answer = .error (.streamNotFound s) :=
      hrun.trans (if_pos (hnone.imp_right hempty.2))
    exact ⟨iff_of_true hanswer hnone, fun hne => absurd hanswer hne⟩
  · have hanswer : answer = .ok _ := hrun.trans (if_neg fun h => hnone (h.imp_right hempty.1))
    have hle : first ≤ last := by
      rcases Nat.eq_zero_or_pos first with rfl | hpos
      · exact Nat.zero_le last
      · obtain ⟨e, -, hfirst, hlast⟩ := not_not.1 fun h => hnone ⟨hpos, h⟩
        exact hfirst.trans hlast
    refine ⟨iff_of_false (fun he => ?_) hnone, fun _ => ⟨_, hanswer, ?_⟩⟩
    · rw [hanswer] at he
      cases he
    · exact merge_showsWindow hsound.kept hm first last hle

/-- A stream of three events, then three and then one, with headers. -/
def threeCommits : List Operation :=
  [.commit { Memory.sampleAttempt "a" 1 3 3 1 with headers := [("by", .bool true), ("on", .null)] },
    .commit { Memory.sampleAttempt "a" 2 6 3 2 with headers := [("by", .bool false)] },
    .commit (Memory.sampleAttempt "b" 1 1 1 3),
    .commit { Memory.sampleAttempt "a" 3 7 1 4 with headers := [("by", .null)] }]

/-- The window begins inside the first commit and ends inside the second. Turned upside down it
still lies inside the second one, which is then read for nothing. -/
theorem openWindow_exact_threeCommits :
    let s : StreamId := ⟨"tenant", "a"⟩
    let l := (Memory.after threeCommits).ledger
    let answer (first last : Nat) :=
      ((openWindow s first last).run Memory.engine (Memory.after threeCommits)).value
    (∀ op ∈ threeCommits, op.InWords) ∧
      (∃ h, answer 2 5 = .ok h ∧ h.ShowsWindow l s 2 5 ∧
        (l.eventsIn s 2 5).map (·.2) = [2, 3, 4, 5] ∧ h.revision = 5 ∧ h.sequence = 2 ∧
        h.committedHeaders.get? "by" = some (.bool false)) ∧
      answer 6 5 = .error (.streamNotFound s) ∧ (l.read (.revisions s 6 5)).length = 1 := by
  intro s l answer
  have hops : ∀ op ∈ threeCommits, op.InWords := by decide
  obtain ⟨hnone, hshows⟩ := openWindow_exact threeCommits hops s 2 5
  obtain ⟨h, hanswer, hwindow⟩ := hshows fun he => (hnone.1 he).2 (by decide +kernel)
  have hrevision : h.revision = 5 := hwindow.revision.trans (by decide +kernel)
  have hsequence : h.sequence = 2 := by
    rw [hwindow.sequence, hrevision]
    decide +kernel
  have hheader : h.committedHeaders.get? "by" = some (.bool false) :=
    (hwindow.headers "by").trans (by decide +kernel)
  have hupside := (openWindow_exact threeCommits hops s 6 5).1.2 (by decide +kernel)
  exact ⟨hops, ⟨h, hanswer, hwindow, by decide +kernel, hrevision, hsequence, hheader⟩, hupside,
    by decide +kernel⟩

end Handle
end EventSourcing
