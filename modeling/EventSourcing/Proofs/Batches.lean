import EventSourcing.Proofs.Windows

/-!
# Commits that arrive in batches, and again

A handle is given commits in batches, each merged under a window: what opening reads, what catching
up reads, and what the handle has stored itself. It does not matter how commits are cut into
batches, nor whether some of them arrive again.

If no commit begins after the window, a merge goes through all of its commits, one after the other
(`Handle.merge_cons`). So to merge a list is to merge its first part and then its second
(`Handle.merge_append`), and every commit of it counts as seen from then on
(`Handle.mem_seen_merge`). What was seen is passed over, whatever the window under which it arrives
again (`Handle.merge_known`). Hence, by induction on the batches, every way of bringing commits
comes to one merge (`Handle.absorb_eq_merge`). What this merge comes to is said without it by
`Handle.enlarged`: each commit that was not seen before counts once (`Handle.merge_eq_enlarged`).
-/

namespace EventSourcing

/-- Commits that are merged together, and the window under which they are. -/
structure Batch where
  first : Nat
  last : Nat
  commits : List Commit

/-- The batches bring these commits to a handle that has seen the known ids: one piece after the
other, under one window. In between commits may arrive again, in any selection and under any
window. -/
inductive Brings (known : List CommitId) (first last : Nat) : List Batch → List Commit → Prop
  | nothing : Brings known first last [] []
  | piece {batches : List Batch} {cs : List Commit} (hb : Brings known first last batches cs)
    (new : List Commit) : Brings known first last (batches ++ [⟨first, last, new⟩]) (cs ++ new)
  | again {batches : List Batch} {cs : List Commit} (hb : Brings known first last batches cs)
    (b : Batch) (hold : ∀ c ∈ b.commits, c.id ∈ known ∨ ∃ d ∈ cs, d.id = c.id) :
    Brings known first last (batches ++ [b]) cs

/-- Pieces that arrive once each bring the list that they make up. -/
theorem Brings.pieces (known : List CommitId) (first last : Nat) (pieces : List (List Commit)) :
    Brings known first last (pieces.map (Batch.mk first last)) pieces.flatten := by
  induction pieces using List.reverseRecOn with
  | nil => exact .nothing
  | append_singleton pieces new ih =>
    rw [List.map_append, List.flatten_append, List.flatten_singleton]
    exact ih.piece new

/-- The events of commits in a window, each with its revision. -/
def eventsWithin (first last : Nat) (cs : List Commit) : List (Event × Nat) :=
  (cs.flatMap Commit.numbered).filter fun e => inWindow first last e.2

namespace Handle

/-- Merges batches one after the other. -/
def absorb (h : Handle) (batches : List Batch) : Handle :=
  batches.foldl (fun g b => g.merge b.first b.last b.commits) h

/-- The handle with these commits counted once each: it has their events of the window in addition
and stands at the last of them, has the sequence of the last commit, and has seen their ids. -/
def enlarged (first last : Nat) (h : Handle) (cs : List Commit) : Handle :=
  { h with
    committed := h.committed ++ (eventsWithin first last cs).map (·.1)
    committedHeaders := cs.foldl (fun f c => Fields.merge f c.headers) h.committedHeaders
    seen := (cs.map (·.id)).reverse ++ h.seen
    revision := ((eventsWithin first last cs).getLast?.map (·.2)).getD h.revision
    sequence := (cs.getLast?.map (·.sequence)).getD h.sequence }

variable {h : Handle} {first last : Nat} {c : Commit} {cs xs ys : List Commit}

theorem absorb_concat (h : Handle) (batches : List Batch) (b : Batch) :
    h.absorb (batches ++ [b]) = (h.absorb batches).merge b.first b.last b.commits := by
  simp [absorb]

/-- Commits that were seen change nothing. -/
theorem merge_known (hseen : ∀ c ∈ cs, c.id ∈ h.seen) : h.merge first last cs = h := by
  have hmerge : h.merge first last (cs ++ []) = h.merge first last [] := merge_seen hseen
  rwa [List.append_nil] at hmerge

/-- To merge a list is to merge its first commit and then the others. -/
theorem merge_cons (hc : c.firstRevision ≤ last) :
    h.merge first last (c :: cs) = (h.merge first last [c]).merge first last cs := by
  rw [merge, merge]
  split
  · rfl
  · simp only [if_neg (Nat.not_lt.2 hc)]
    rfl

/-- To merge a list is to merge its first part and then its second. -/
theorem merge_append (hstart : ∀ c ∈ xs, c.firstRevision ≤ last) :
    h.merge first last (xs ++ ys) = (h.merge first last xs).merge first last ys := by
  induction xs generalizing h with
  | nil => rfl
  | cons c xs ih =>
    obtain ⟨hc, hxs⟩ := List.forall_mem_cons.1 hstart
    rw [List.cons_append, merge_cons hc, ih hxs, ← merge_cons hc]

/-- A commit that begins after the window ends the merge. Then it matters which commits arrive
together with it. -/
example :
    let c := (Memory.sampleAttempt "a" 1 3 3 1).confirm 1
    let d := (Memory.sampleAttempt "a" 2 5 2 2).confirm 2
    ((create c.stream).merge 0 0 [c, d]).sequence = 1 ∧
      (((create c.stream).merge 0 0 [c]).merge 0 0 [d]).sequence = 2 := by
  decide

theorem mem_seen_singleton (hc : c.firstRevision ≤ last) {i : CommitId} :
    i ∈ (h.merge first last [c]).seen ↔ i ∈ h.seen ∨ c.id = i := by
  rw [merge]
  split
  · rename_i hseen
    constructor
    · exact .inl
    · rintro (hi | rfl)
      · exact hi
      · exact hseen
  · simp only [if_neg (Nat.not_lt.2 hc), merge, (takeEvents_stream_seen _ _ _ _ _).2,
      List.mem_cons]
    rw [or_comm, eq_comm]

/-- After a merge all ids are seen that were seen before, and those of its commits. -/
theorem mem_seen_merge (hstart : ∀ c ∈ cs, c.firstRevision ≤ last) {i : CommitId} :
    i ∈ (h.merge first last cs).seen ↔ i ∈ h.seen ∨ ∃ c ∈ cs, c.id = i := by
  induction cs generalizing h with
  | nil => simp [merge]
  | cons c cs ih =>
    obtain ⟨hc, hcs⟩ := List.forall_mem_cons.1 hstart
    rw [merge_cons hc, ih hcs, mem_seen_singleton hc, or_assoc, List.exists_mem_cons_iff]

/-- **Every way of bringing commits comes to one merge.** -/
theorem absorb_eq_merge {batches : List Batch} (hb : Brings h.seen first last batches cs)
    (hstart : ∀ c ∈ cs, c.firstRevision ≤ last) : h.absorb batches = h.merge first last cs := by
  induction hb with
  | nothing => rfl
  | piece hb new ih =>
    obtain ⟨hcs, -⟩ := List.forall_mem_append.1 hstart
    rw [absorb_concat, ih hcs, merge_append hcs]
  | again hb b hold ih =>
    rw [absorb_concat, ih hstart]
    exact merge_known fun c hc => (mem_seen_merge hstart).2 (hold c hc)

theorem eventsWithin_append (first last : Nat) (xs ys : List Commit) :
    eventsWithin first last (xs ++ ys)
      = eventsWithin first last xs ++ eventsWithin first last ys := by
  simp [eventsWithin]

theorem enlarged_append (h : Handle) (first last : Nat) (xs ys : List Commit) :
    (h.enlarged first last xs).enlarged first last ys = h.enlarged first last (xs ++ ys) := by
  simp only [enlarged, eventsWithin_append, List.getLast?_append, List.map_append,
    List.append_assoc, List.foldl_append, List.reverse_append, mk.injEq, true_and]
  constructor
  · cases (eventsWithin first last ys).getLast? <;> simp
  · cases ys.getLast? <;> simp

/-- One commit that was not seen counts once. -/
theorem merge_singleton (hnew : c.id ∉ h.seen) (hstart : c.firstRevision ≤ last)
    (hwords : c.revision ≤ maxRevision ∧ c.events.length ≤ maxRevision) :
    h.merge first last [c] = h.enlarged first last [c] := by
  obtain ⟨before, hbefore⟩ : ∃ before, c.firstRevision = before + 1 :=
    ⟨_, (Nat.sub_add_cancel c.firstRevision_pos).symm⟩
  have hend : before + c.events.length ≤ maxRevision := by
    unfold Commit.firstRevision nextRevision at hbefore
    omega
  have hwithin : eventsWithin first last [c]
      = (c.events.zipIdx (before + 1)).filter fun e => inWindow first last e.2 := by
    simp [eventsWithin, Commit.numbered, hbefore]
  rw [merge_cons_new hnew hbefore hstart hend, merge, enlarged, hwithin, ← window_eq_filter,
    getLast?_filter_zipIdx]
  split <;> simp

/-- **What a merge comes to:** of the commits that were not seen before each counts once. -/
theorem merge_eq_enlarged (hid : (cs.map (·.id)).Nodup) (hstart : ∀ c ∈ cs, c.firstRevision ≤ last)
    (hwords : ∀ c ∈ cs, c.revision ≤ maxRevision ∧ c.events.length ≤ maxRevision) :
    h.merge first last cs = h.enlarged first last (cs.filter (·.id ∉ h.seen)) := by
  induction cs generalizing h with
  | nil => simp [merge, enlarged, eventsWithin]
  | cons c cs ih =>
    obtain ⟨hc, hcs⟩ := List.forall_mem_cons.1 hstart
    obtain ⟨hcwords, hcswords⟩ := List.forall_mem_cons.1 hwords
    obtain ⟨hcid, hcsid⟩ := List.nodup_cons.1 hid
    by_cases hseen : c.id ∈ h.seen
    · rw [merge, if_pos hseen, ih hcsid hcs hcswords, List.filter_cons_of_neg (by simpa)]
    · have hothers : cs.filter (·.id ∉ (h.enlarged first last [c]).seen)
          = cs.filter (·.id ∉ h.seen) := by
        refine List.filter_congr fun d hd => ?_
        have hne : d.id ≠ c.id := fun he => hcid (List.mem_map.2 ⟨d, hd, he⟩)
        simp [enlarged, hne]
      rw [merge_cons hc, merge_singleton hseen hc hcwords, ih hcsid hcs hcswords, hothers,
        enlarged_append, List.filter_cons_of_pos (by simpa)]
      rfl

/-- **It does not matter how commits arrive.**  Let a list of commits have different ids, and let
none of them begin after the window; nothing else is asked of their order and their revisions.
Merging the pieces of the list one after the other gives the same handle as merging it at once, and
so does every way of bringing it in which commits arrive again in between. What was merged, now or
earlier, changes nothing when it arrives once more, under whatever window. The handle that results
has each commit that was not seen before counted once. -/
theorem merged_as_one (h : Handle) (first last : Nat) (cs : List Commit)
    (hid : (cs.map (·.id)).Nodup) (hstart : ∀ c ∈ cs, c.firstRevision ≤ last) :
    (∀ pieces : List (List Commit), pieces.flatten = cs →
        pieces.foldl (merge first last) h = h.merge first last cs) ∧
      (∀ batches, Brings h.seen first last batches cs →
        h.absorb batches = h.merge first last cs) ∧
      (∀ again : List Commit, (∀ c ∈ again, c.id ∈ h.seen ∨ c ∈ cs) → ∀ first' last',
        (h.merge first last cs).merge first' last' again = h.merge first last cs) ∧
      ((∀ c ∈ cs, c.revision ≤ maxRevision ∧ c.events.length ≤ maxRevision) →
        h.merge first last cs = h.enlarged first last (cs.filter (·.id ∉ h.seen))) := by
  refine ⟨?_, fun batches hb => absorb_eq_merge hb hstart, ?_, merge_eq_enlarged hid hstart⟩
  · rintro pieces rfl
    rw [← absorb_eq_merge (Brings.pieces h.seen first last pieces) hstart, absorb, List.foldl_map]
  · intro again hold first' last'
    refine merge_known fun c hc => (mem_seen_merge hstart).2 ?_
    exact (hold c hc).imp_right fun hmem => ⟨c, hmem, rfl⟩

/-- A handle that has merged the second of three commits by itself is given all three, under a
window that begins inside the first and ends inside the third. The first arrives again before the
others, and all three after them in another order, under other windows. -/
theorem merged_as_one_arrivesAgain :
    let a := (Memory.sampleAttempt "a" 1 3 3 1).confirm 1
    let b := (Memory.sampleAttempt "a" 2 5 2 2).confirm 2
    let c := (Memory.sampleAttempt "a" 3 8 3 3).confirm 4
    let h := (create ⟨"tenant", "a"⟩).merge 4 5 [b]
    let g := h.merge 2 6 [a, b, c]
    (([a, b, c].map (·.id)).Nodup ∧ ∀ d ∈ [a, b, c], d.firstRevision ≤ 6) ∧
      [[a], [b, c]].foldl (merge 2 6) h = g ∧
      h.absorb [⟨2, 6, [a]⟩, ⟨0, maxRevision, [b, a]⟩, ⟨2, 6, [b, c]⟩] = g ∧
      g.merge 0 1 [c, a, b] = g ∧
      (g.committed.length, g.revision, g.sequence) = (5, 6, 3) := by
  intro a b c h g
  have hid : ([a, b, c].map (·.id)).Nodup := by decide
  have hstart : ∀ d ∈ [a, b, c], d.firstRevision ≤ 6 := by decide
  obtain ⟨hpieces, hbatches, hagain, hcounted⟩ := merged_as_one h 2 6 [a, b, c] hid hstart
  have hbrings : Brings h.seen 2 6
      [⟨2, 6, [a]⟩, ⟨0, maxRevision, [b, a]⟩, ⟨2, 6, [b, c]⟩] [a, b, c] :=
    ((Brings.nothing.piece [a]).again ⟨0, maxRevision, [b, a]⟩ (by decide)).piece [b, c]
  have hg : g = h.enlarged 2 6 [a, c] := hcounted (by decide)
  refine ⟨⟨hid, hstart⟩, hpieces [[a], [b, c]] rfl, hbatches _ hbrings,
    hagain [c, a, b] (by decide) 0 1, ?_⟩
  rw [hg]
  decide

end Handle
end EventSourcing
