import EventSourcing.Proofs.Ledger
import EventSourcing.Proofs.Rows
import Mathlib.Data.Prod.Lex

/-!
# Reading page by page reads everything once

If every row can be read and stands for its commit (`Query.Sees`), then a page of rows is a page of
commits: the first that answer the query after the last commit of the page before
(`Query.Sees.fetchPage_eq`). Since these have different places in the order of the query, what is
after a commit is what its page has left over, and the pages of any size from one row on put the
whole answer together, in order (`Query.Sees.readFrom_eq`). Reading the rows of a ledger finds what
the ledger itself finds (`Ledger.Kept.readRows_eq`): for a span of time the ledger sorts by stamp
alone, which keeps equal stamps in the order of checkpoints (`pairwise_mergeSort_stable`).
-/

namespace EventSourcing

section Sorting

variable {α : Type*} {le : α → α → Bool} {R : α → α → Prop} {l : List α}

/-- Sorting keeps the items that compare as equal in the order in which they were. -/
theorem pairwise_mergeSort_stable (trans : ∀ a b c, le a b → le b c → le a c)
    (total : ∀ a b, le a b || le b a) (h : l.Pairwise R) :
    (l.mergeSort le).Pairwise fun a b => le a b ∧ (le b a → R a b) := by
  refine List.pairwise_iff_forall_sublist.2 fun {a b} hab => ?_
  have hle := List.pairwise_iff_forall_sublist.1 (List.pairwise_mergeSort trans total l) hab
  refine ⟨hle, fun hge => ?_⟩
  let p (x : α) : Bool := le a x && le x a
  have hp {x y : α} (hx : p x = true) (hy : p y = true) : le x y := by
    simp only [p, Bool.and_eq_true] at hx hy
    exact trans x a y hx.2 hy.1
  have hsub : (l.filter p).Sublist (l.mergeSort le) :=
    List.sublist_mergeSort trans total (List.pairwise_of_forall_mem_list fun x hx y hy =>
      hp (List.mem_filter.1 hx).2 (List.mem_filter.1 hy).2) List.filter_sublist
  have hclass : l.filter p = (l.mergeSort le).filter p := by
    have hfilter := hsub.filter p
    rw [List.filter_filter, List.filter_congr fun x _ => Bool.and_self (p x)] at hfilter
    exact hfilter.eq_of_length ((List.mergeSort_perm l le).filter p).length_eq.symm
  have hself : le a a := by simpa using total a a
  have hpair : [a, b].filter p = [a, b] := by simp [p, hself, hle, hge]
  have hsorted : [a, b].Sublist (l.filter p) := by
    rw [hclass, ← hpair]
    exact hab.filter p
  exact List.pairwise_iff_forall_sublist.1 h (hsorted.trans List.filter_sublist)

variable {β : Type*} [LinearOrder β]

theorem pairwise_mergeSort_by (f : α → β) (l : List α) :
    (l.mergeSort fun a b => decide (f a ≤ f b)).Pairwise fun a b => f a ≤ f b := by
  refine (List.pairwise_mergeSort (fun a b c => ?_) (fun a b => ?_) l).imp of_decide_eq_true
  · simp only [decide_eq_true_eq]
    exact le_trans
  · simp only [Bool.or_eq_true, decide_eq_true_eq]
    exact le_total ..

/-- Items at different places are sorted in one way only. -/
theorem mergeSort_by_eq_of_perm {f : α → β} {xs ys : List α} (hperm : xs.Perm ys)
    (hsorted : ys.Pairwise fun a b => f a < f b) :
    (xs.mergeSort fun a b => decide (f a ≤ f b)) = ys := by
  have hinj : ∀ a ∈ ys, ∀ b ∈ ys, f a = f b → a = b := fun a ha b hb =>
    List.inj_on_of_nodup_map (List.pairwise_map.2 (hsorted.imp ne_of_lt)) ha hb
  refine List.Perm.eq_of_pairwise (fun a b ha hb hab hba => ?_) (pairwise_mergeSort_by f xs)
    (hsorted.imp le_of_lt) ((List.mergeSort_perm xs _).trans hperm)
  exact hinj a (hperm.mem_iff.1 (List.mem_mergeSort.1 ha)) b hb (le_antisymm hab hba)

end Sorting

/-- A commit as it is read back from its row. -/
def Commit.Stored (c : Commit) : Prop := ∃ a : Attempt, a.Storable ∧ c.toAttempt = a.floored

theorem Commit.Stored.decode {c : Commit} (h : c.Stored) (layout : Layout) :
    (CommitRow.ofCommit layout c).decode = .ok c := by
  obtain ⟨a, ha, he⟩ := h
  obtain ⟨c, checkpoint⟩ := c
  cases he
  exact CommitRow.decode_ofCommit ha checkpoint

theorem Commit.Stored.revision_le {c : Commit} (h : c.Stored) : c.revision ≤ maxRevision := by
  obtain ⟨a, ha, he⟩ := h
  rw [he]
  exact ha.revision_le

theorem Commit.Stored.sequence_le {c : Commit} (h : c.Stored) : c.sequence ≤ maxRevision := by
  obtain ⟨a, ha, he⟩ := h
  rw [he]
  exact ha.sequence_le

/-- The commit of a row that can be read. -/
def CommitRow.commit (r : CommitRow) : Commit := r.decode.toOption.getD default

theorem CommitRow.commit_eq {r : CommitRow} {c : Commit} (h : r.decode = .ok c) : r.commit = c := by
  rw [commit, h]
  rfl

theorem Commit.Stored.commit_ofCommit {c : Commit} (h : c.Stored) (layout : Layout) :
    (CommitRow.ofCommit layout c).commit = c :=
  CommitRow.commit_eq (h.decode layout)

/-- Rows can be read if each of them can. -/
theorem decodeRows_eq_ok_iff {rows : List CommitRow} {log : List Commit} :
    decodeRows rows = .ok log ↔
    (∀ r ∈ rows, r.decode = .ok r.commit) ∧ rows.map CommitRow.commit = log := by
  induction rows generalizing log with
  | nil =>
    exact ⟨fun h => ⟨fun _ hr => absurd hr List.not_mem_nil, Except.ok.inj h⟩,
      fun h => congrArg Except.ok h.2⟩
  | cons r rows ih =>
    rw [decodeRows, List.forall_mem_cons, List.map_cons]
    cases hr : r.decode with
    | error e => exact ⟨nofun, fun h => nomatch h.1.1⟩
    | ok c =>
      cases hrows : decodeRows rows with
      | error e =>
        refine ⟨nofun, fun h => ?_⟩
        have := ih.2 ⟨h.1.2, rfl⟩
        rw [hrows] at this
        cases this
      | ok cs =>
        obtain ⟨hread, rfl⟩ := ih.1 hrows
        rw [CommitRow.commit_eq hr]
        exact ⟨fun h => ⟨⟨rfl, hread⟩, Except.ok.inj h⟩, fun h => congrArg Except.ok h.2⟩

theorem PageKey.before_integer (a b m n : Int) :
    PageKey.before ⟨.integer a, m⟩ ⟨.integer b, n⟩ = decide (toLex (a, m) < toLex (b, n)) := by
  rw [PageKey.before, Cell.order_integer, Bool.eq_iff_iff, decide_eq_true_eq,
    Prod.Lex.toLex_lt_toLex]
  cases h : compare a b with
  | lt => simp [Int.compare_eq_lt.1 h]
  | eq => simp [Int.compare_eq_eq.1 h]
  | gt =>
    have := Int.compare_eq_gt.1 h
    simp only [Bool.false_eq_true, false_iff]
    omega

namespace Query

/-- Where a commit stands in the order of a query. -/
def place : Query → Commit → ℤ ×ₗ ℤ
  | .revisions .., c => toLex ((c.sequence : ℤ), 0)
  | .after .., c => toLex (c.checkpoint, 0)
  | .during .., c => toLex (c.stamp.micros, c.checkpoint)

/-- The query with its stamps in whole microseconds. -/
def floored : Query → Query
  | .during tenant start stop => .during tenant start.floorMicros (stop.map Stamp.floorMicros)
  | q => q

theorem commitKey_before (q : Query) (c d : Commit) :
    (q.commitKey c).before (q.commitKey d) = decide (q.place c < q.place d) := by
  cases q <;> exact PageKey.before_integer ..

@[simp] theorem rowKey_ofCommit (q : Query) (layout : Layout) (c : Commit) :
    q.rowKey (CommitRow.ofCommit layout c) = q.commitKey c := by
  cases q <;> rfl

/-- The query sees rows as their commits: every row can be read, stands where its commit stands, and
is selected if its commit answers the query in whole microseconds. -/
structure Sees (q : Query) (rows : List CommitRow) : Prop where
  decode : ∀ r ∈ rows, r.decode = .ok r.commit
  rowKey : ∀ r ∈ rows, q.rowKey r = q.commitKey r.commit
  selects : ∀ r ∈ rows, q.selects r = Ledger.answers q.floored r.commit

/-- The commits of a log that answer a query and come after a position, in its order. -/
def rest (q : Query) (cursor : Option PageKey) (log : List Commit) : List Commit :=
  ((log.filter (Ledger.answers q.floored)).filter fun c =>
    cursor.all (·.before (q.commitKey c))).mergeSort fun c d => decide (q.place c ≤ q.place d)

end Query

section Pages

variable {q : Query} {rows : List CommitRow} {size : Nat} {log found pre post : List Commit}

/-- What comes after the last commit of the pages before is the rest of the answer. -/
theorem Query.rest_eq (hperm : found.Perm (log.filter (Ledger.answers q.floored)))
    (hsorted : found.Pairwise fun c d => q.place c < q.place d) (hfound : found = pre ++ post) :
    q.rest (pre.getLast?.map q.commitKey) log = post := by
  subst hfound
  obtain ⟨hpre, hpost, hbetween⟩ := List.pairwise_append.1 hsorted
  have hafter : (pre ++ post).filter (fun c =>
      (pre.getLast?.map q.commitKey).all (·.before (q.commitKey c))) = post := by
    cases hlast : pre.getLast? with
    | none =>
      rw [List.getLast?_eq_none_iff.1 hlast, List.nil_append]
      exact List.filter_eq_self.2 fun _ _ => rfl
    | some d =>
      obtain ⟨ys, rfl⟩ := List.getLast?_eq_some_iff.1 hlast
      simp only [Option.map_some, Option.all_some, Query.commitKey_before]
      rw [List.filter_append, List.filter_eq_nil_iff.2, List.nil_append, List.filter_eq_self]
      · exact fun c hc => decide_eq_true (hbetween d (by simp) c hc)
      · intro c hc
        rw [decide_eq_true_eq, not_lt]
        rcases List.mem_append.1 hc with hc | hc
        · exact le_of_lt ((List.pairwise_append.1 hpre).2.2 c hc d (by simp))
        · rw [List.mem_singleton.1 hc]
  rw [Query.rest, mergeSort_by_eq_of_perm ?_ hpost]
  exact (hperm.symm.filter _).trans (.of_eq hafter)

namespace Query.Sees

/-- The rows after a position are those of the commits after it. -/
theorem map_rowsAfter (h : q.Sees rows) (cursor : Option PageKey) :
    (q.rowsAfter cursor rows).map CommitRow.commit
      = q.rest cursor (rows.map CommitRow.commit) := by
  rw [rowsAfter, rest, List.map_mergeSort, List.filter_map, List.filter_map, List.filter_filter]
  · congr 2
    refine List.filter_congr fun r hr => ?_
    rw [Function.comp, Function.comp, h.selects r hr, h.rowKey r hr, Bool.and_comm]
    cases cursor <;> rfl
  · intro r hr s hs
    rw [h.rowKey r (List.mem_of_mem_filter hr), h.rowKey s (List.mem_of_mem_filter hs),
      PageKey.atMost, commitKey_before, ← decide_not, decide_eq_decide, not_lt]

/-- A page of rows is a page of commits. -/
theorem fetchPage_eq (h : q.Sees rows) (size : Nat) (cursor : Option PageKey) :
    let page := (q.rest cursor (rows.map CommitRow.commit)).take size
    fetchPage q size cursor rows
      = .ok ⟨page, if page.length < size then none else page.getLast?.map q.commitKey⟩ := by
  have hdecode : decodeRows ((q.rowsAfter cursor rows).take size)
      = .ok ((q.rest cursor (rows.map CommitRow.commit)).take size) := by
    rw [← h.map_rowsAfter, ← List.map_take]
    refine decodeRows_eq_ok_iff.2 ⟨fun r hr => h.decode r ?_, rfl⟩
    exact List.mem_of_mem_filter (List.mem_mergeSort.1 (List.mem_of_mem_take hr))
  have hlength : ((q.rowsAfter cursor rows).take size).length
      = ((q.rest cursor (rows.map CommitRow.commit)).take size).length := by
    rw [← h.map_rowsAfter, ← List.map_take, List.length_map]
  rw [fetchPage, hdecode, hlength]
  rfl

/-- **Pages put the answer together.**  From any place in the answer on, enough pages of at least
one row read the rest of it, each commit once and in order. -/
theorem readFrom_eq (h : q.Sees rows)
    (hperm : found.Perm ((rows.map CommitRow.commit).filter (Ledger.answers q.floored)))
    (hsorted : found.Pairwise fun c d => q.place c < q.place d) (hsize : 1 ≤ size) {n : Nat}
    (hfound : found = pre ++ post) (hn : post.length < n) :
    readFrom q size rows n (pre.getLast?.map q.commitKey) = post.map .ok := by
  induction n generalizing pre post with
  | zero => omega
  | succ n ih =>
    rw [readFrom, h.fetchPage_eq, rest_eq hperm hsorted hfound]
    simp only [List.length_take]
    by_cases hshort : post.length < size
    · rw [if_pos (by omega), List.append_nil, List.take_of_length_le (by omega)]
    · have hlength : (post.take size).length = size := List.length_take_of_le (by omega)
      obtain ⟨ys, d, hd⟩ : ∃ ys d, post.take size = ys ++ [d] :=
        ⟨_, _, (List.dropLast_append_getLast (List.ne_nil_of_length_pos (by omega))).symm⟩
      have hlast : (pre ++ post.take size).getLast? = some d := by
        rw [hd, ← List.append_assoc, List.getLast?_concat]
      have hrest : readFrom q size rows n
          ((pre ++ post.take size).getLast?.map q.commitKey) = (post.drop size).map .ok :=
        ih (by rw [List.append_assoc, List.take_append_drop, hfound])
          (by rw [List.length_drop]; omega)
      rw [hlast, Option.map_some] at hrest
      rw [if_neg (by omega), hd, List.getLast?_concat, Option.map_some]
      simp only [hrest]
      rw [← hd, ← List.map_append, List.take_append_drop]

/-- A read of pages of at least one row, and no more than a database can be asked for, finds the
answer to the query. -/
theorem readRows_eq (h : q.Sees rows)
    (hperm : found.Perm ((rows.map CommitRow.commit).filter (Ledger.answers q.floored)))
    (hsorted : found.Pairwise fun c d => q.place c < q.place d) (hsize : 1 ≤ size)
    (hmax : size ≤ maxPage) : readRows q size rows = found.map .ok := by
  have hlength := hperm.length_eq.trans_le (List.length_filter_le ..)
  rw [List.length_map] at hlength
  rw [readRows, if_neg (by omega)]
  exact h.readFrom_eq hperm hsorted hsize (List.nil_append _).symm (by omega)

end Query.Sees
end Pages

theorem Commit.Stored.nanos_eq {c : Commit} (h : c.Stored) :
    c.stamp.nanos = c.stamp.micros * 1000 := by
  obtain ⟨a, -, he⟩ := h
  have hstamp : c.stamp = a.stamp.floorMicros := congrArg Attempt.stamp he
  rw [hstamp, Stamp.floorMicros, Stamp.micros_ofMicros]
  rfl

/-- A query selects the row of a commit if the commit answers it in whole microseconds. Rows have no
first revision: a row is taken if the revision before its events is below the last one asked for, a
commit if its first revision is not above it. -/
theorem Query.selects_ofCommit {layout : Layout} {c : Commit} (q : Query) (hne : c.events ≠ [])
    (hle : c.events.length ≤ c.revision) (hmax : c.revision ≤ maxRevision)
    (hnanos : c.stamp.nanos = c.stamp.micros * 1000) :
    q.selects (CommitRow.ofCommit layout c) = Ledger.answers q.floored c := by
  cases q with
  | revisions s first last =>
    have hfirst : c.firstRevision = c.revision - c.events.length + 1 :=
      Commit.firstRevision_eq hne (by omega) hmax
    show ((CommitRow.ofCommit layout c).ofStream s
        && (Cell.integer first).atMost (.integer c.revision)
        && ((Cell.integer c.revision).sub? (.integer c.events.length)).any
          fun previous => previous.before (.integer last))
      = (decide (c.stream = s) && decide (first ≤ c.revision) && decide (c.firstRevision ≤ last))
    rw [CommitRow.ofStream_ofCommit, Cell.atMost_integer, Cell.sub?_words hmax (by omega),
      Option.any_some, Cell.before_integer, hfirst]
    congr 1
    · congr 1
      exact decide_eq_decide.2 Int.ofNat_le
    · rw [decide_eq_decide]
      omega
  | after tenant checkpoint =>
    show ((CommitRow.ofCommit layout c).ofTenant tenant && _) = _
    rw [CommitRow.ofTenant_ofCommit]
    rfl
  | during tenant start stop =>
    have hstart : ((CommitRow.ofCommit layout c).ofTenant tenant
        && (Cell.integer start.micros).atMost (.integer c.stamp.micros))
        = (decide (c.stream.tenant = tenant)
          && decide (start.micros * 1000 ≤ c.stamp.nanos)) := by
      rw [CommitRow.ofTenant_ofCommit, Cell.atMost_integer, hnanos]
      congr 1
      rw [decide_eq_decide]
      omega
    cases stop with
    | none => exact congrArg (· && true) hstart
    | some t =>
      have hstop : (Cell.integer c.stamp.micros).before (.integer t.micros)
          = decide (c.stamp.nanos < t.micros * 1000) := by
        rw [Cell.before_integer, hnanos, decide_eq_decide]
        omega
      exact congrArg₂ (· && ·) hstart hstop

namespace Ledger

variable {l : Ledger} {layout : Layout} {q : Query} {size : Nat} {c : Commit}

theorem perm_read (l : Ledger) (q : Query) : (l.read q).Perm (l.log.filter (answers q)) := by
  cases q with
  | revisions | after => exact .refl _
  | during => exact List.mergeSort_perm ..

namespace Kept

/-- A query sees the rows of a ledger as its commits. -/
theorem sees (h : l.Kept) (hstored : ∀ c ∈ l.log, c.Stored) :
    q.Sees (l.log.map (CommitRow.ofCommit layout)) := by
  constructor <;> refine List.forall_mem_map.2 fun c hc => ?_
  · rw [(hstored c hc).commit_ofCommit]
    exact (hstored c hc).decode layout
  · rw [(hstored c hc).commit_ofCommit]
    exact q.rowKey_ofCommit layout c
  · obtain ⟨_, _, -, hne, -, hrev⟩ := (h.history c.stream).of_mem (mem_ofStream.2 ⟨hc, rfl⟩)
    rw [(hstored c hc).commit_ofCommit]
    exact q.selects_ofCommit hne (by omega) (hstored c hc).revision_le (hstored c hc).nanos_eq

/-- The answer to a query stands in the order of the query. -/
theorem pairwise_read (h : l.Kept) (hstored : ∀ c ∈ l.log, c.Stored) (q : Query) :
    (l.read q.floored).Pairwise fun c d => q.place c < q.place d := by
  cases q with
  | revisions s first last =>
    show (l.read (.revisions s first last)).Pairwise _
    rw [read_revisions]
    exact ((h.history s).pairwise.filter _).imp fun hcd =>
      Prod.Lex.toLex_lt_toLex.2 (.inl (Int.ofNat_lt.2 hcd.1))
  | after tenant checkpoint =>
    exact (h.ascending.filter _).imp fun hcd => Prod.Lex.toLex_lt_toLex.2 (.inl hcd)
  | during tenant start stop =>
    refine (pairwise_mergeSort_stable (fun a b c => ?_) (fun a b => ?_)
      (h.ascending.filter _)).imp_of_mem fun {c d} hc hd hcd => ?_
    · simp only [decide_eq_true_eq]
      exact Int.le_trans
    · simp only [Bool.or_eq_true, decide_eq_true_eq]
      exact Int.le_total ..
    · have hc := (hstored c (List.mem_of_mem_filter (List.mem_mergeSort.1 hc))).nanos_eq
      have hd := (hstored d (List.mem_of_mem_filter (List.mem_mergeSort.1 hd))).nanos_eq
      simp only [decide_eq_true_eq] at hcd
      refine Prod.Lex.toLex_lt_toLex.2 ?_
      show c.stamp.micros < d.stamp.micros ∨
        c.stamp.micros = d.stamp.micros ∧ c.checkpoint < d.checkpoint
      omega

/-- **Reading the rows of a ledger.**  Pages of at least one row, and no more than a database can
be asked for, find what the ledger finds for the query in whole microseconds. -/
theorem readRows_eq (h : l.Kept) (hstored : ∀ c ∈ l.log, c.Stored) (hsize : 1 ≤ size)
    (hmax : size ≤ maxPage) (q : Query) :
    readRows q size (l.log.map (CommitRow.ofCommit layout)) = (l.read q.floored).map .ok := by
  have hlog : (l.log.map (CommitRow.ofCommit layout)).map CommitRow.commit = l.log := by
    rw [List.map_map]
    exact (List.map_congr_left fun c hc => (hstored c hc).commit_ofCommit layout).trans
      (List.map_id _)
  refine (h.sees hstored).readRows_eq ?_ (h.pairwise_read hstored q) hsize hmax
  rw [hlog]
  exact l.perm_read q.floored

end Kept
end Ledger
end EventSourcing
