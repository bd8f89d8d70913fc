import EventSourcing.Proofs.Unreadable
import EventSourcing.Tables.Overwrite

/-!
# What the size of a page shows

Whatever is in the tables, the rows that answer a query have different places in its order: keys
belong to one row each (`Tables.keysDistinct`), also after columns were overwritten, and every order
is by a key (`Tables.apart_of_keysDistinct`). So a read of any size of page goes over the same rows.

It ends at the first row that cannot be read, and of the readable rows before it
(`Query.leading`) it hands out those that fill pages. Two sizes show the same if these are equally
many; a read shows what handing out row by row would show if they are all (`rowByRow`).
-/

namespace EventSourcing

section Keys

variable {ρ : Type} {a b c : Cell}

theorem Cell.same_trans (hac : a.same c = true) (hbc : b.same c = true) : a.same b = true := by
  rw [Cell.same, beq_iff_eq] at hac hbc ⊢
  have hcb : c.order b = .eq := by rw [Cell.order_swap, hbc, Ordering.swap_eq]
  exact Std.TransCmp.eq_trans hac hcb

namespace PageKey

/-- Positions that are not the same come one before the other. -/
theorem before_or_before {a b : PageKey} (h : a.order b ≠ .eq) :
    a.before b = true ∨ b.before a = true := by
  rw [before_eq, before_eq, order_swap a b]
  cases horder : a.order b with
  | lt => exact .inl rfl
  | eq => exact absurd horder h
  | gt => exact .inr rfl

theorem order_ne_of_major {a b : PageKey} (h : a.major.same b.major = false) :
    a.order b ≠ .eq := by
  intro horder
  rw [order, Ordering.then_eq_eq] at horder
  rw [Cell.same, horder.1] at h
  cases h

theorem order_ne_of_minor {a b : PageKey} (h : a.minor ≠ b.minor) : a.order b ≠ .eq := by
  intro horder
  rw [order, Ordering.then_eq_eq, Int.compare_eq_eq] at horder
  exact h horder.2

end PageKey

theorem pairwise_of_distinctBy {key : ρ → List Cell} {rows : List ρ}
    (h : distinctBy key rows = true) :
    rows.Pairwise fun r s => ((key r).zipWith Cell.same (key s)).all id = false := by
  rw [distinctBy, decide_eq_true_eq, List.pairwise_map] at h
  exact h.imp fun hrs => Bool.eq_false_iff.2 hrs

/-- **Rows with keys of their own are apart**, in the order of any query. -/
theorem Tables.apart_of_keysDistinct {t : Tables} (ht : t.keysDistinct = true) (q : Query) :
    q.Apart t.commits := by
  simp only [keysDistinct, Bool.and_eq_true] at ht
  obtain ⟨⟨⟨⟨hcheckpoints, hsequences⟩, -⟩, -⟩, -⟩ := ht
  have hcheckpoints := pairwise_of_distinctBy hcheckpoints
  have hsequences := pairwise_of_distinctBy hsequences
  have hcheckpoints : t.commits.Pairwise fun r s => r.checkpoint ≠ s.checkpoint :=
    hcheckpoints.imp fun hrs => by simpa using hrs
  cases q with
  | revisions stream first last =>
    refine (hsequences.filter _).imp_of_mem fun {r s} hr hs hrs => ?_
    have hof {r : CommitRow}
        (hr : r ∈ t.commits.filter (Query.revisions stream first last).selects) :
        r.tenant.same (.text stream.tenant) = true ∧
          r.stream.same (.text stream.stream) = true := by
      have hselects := (List.mem_filter.1 hr).2
      rw [Query.selects, Bool.and_eq_true, Bool.and_eq_true, CommitRow.ofStream,
        Bool.and_eq_true] at hselects
      exact hselects.1.1
    obtain ⟨htenant, hstream⟩ := hof hr
    obtain ⟨htenant', hstream'⟩ := hof hs
    have hsequence : r.sequence.same s.sequence = false := by
      simpa [Cell.same_trans htenant htenant', Cell.same_trans hstream hstream'] using hrs
    exact PageKey.before_or_before (PageKey.order_ne_of_major hsequence)
  | after tenant checkpoint =>
    refine (hcheckpoints.filter _).imp fun {r s} hrs => ?_
    refine PageKey.before_or_before (PageKey.order_ne_of_major ?_)
    rw [Query.rowKey, Query.rowKey, Cell.same_integer, decide_eq_false_iff_not]
    exact hrs
  | during tenant start stop =>
    refine (hcheckpoints.filter _).imp fun {r s} hrs => ?_
    exact PageKey.before_or_before (PageKey.order_ne_of_minor hrs)

end Keys

/-- The items of a read that hands out each row as soon as it is decoded. -/
def rowByRow : List CommitRow → List Item
  | [] => []
  | r :: rs =>
    match r.decode with
    | .error e => [.error e]
    | .ok c => .ok c :: rowByRow rs

/-- The number of readable rows that a query finds before the first that cannot be read. -/
def Query.leading (q : Query) (rows : List CommitRow) : Nat :=
  ((q.found rows).takeWhile fun r => decide r.Readable).length

section Pages

variable {q : Query} {rows good rest : List CommitRow} {r : CommitRow} {e : Fault} {size : Nat}

theorem rowByRow_readable (h : ∀ r ∈ rows, r.Readable) :
    rowByRow rows = (rows.map CommitRow.commit).map .ok := by
  induction rows with
  | nil => rfl
  | cons r rows ih =>
    obtain ⟨hr, hrows⟩ := List.forall_mem_cons.1 h
    rw [rowByRow, hr, ih hrows]
    rfl

theorem rowByRow_refused (hgood : ∀ s ∈ good, s.Readable) (he : r.decode = .error e) :
    rowByRow (good ++ r :: rest) = (good.map CommitRow.commit).map .ok ++ [.error e] := by
  induction good with
  | nil =>
    rw [List.nil_append, rowByRow, he]
    rfl
  | cons s good ih =>
    obtain ⟨hs, hgood⟩ := List.forall_mem_cons.1 hgood
    rw [List.cons_append, rowByRow, hs, ih hgood]
    rfl

namespace Query

theorem leading_refused (hfound : q.found rows = good ++ r :: rest)
    (hgood : ∀ s ∈ good, s.Readable) (he : r.decode = .error e) :
    q.leading rows = good.length := by
  have htake : (good ++ r :: rest).takeWhile (fun r => decide r.Readable) = good := by
    rw [List.takeWhile_append_of_pos fun s hs => decide_eq_true (hgood s hs),
      List.takeWhile_cons_of_neg (by simpa using CommitRow.not_readable he), List.append_nil]
  rw [leading, hfound, htake]

namespace Apart

variable (h : q.Apart rows) (hsize : 1 ≤ size) (hmax : size ≤ maxPage)
include h hsize hmax

/-- Pages of one size end after as many commits as pages of another. -/
theorem readRows_eq_iff {size' : Nat} (hsize' : 1 ≤ size') (hmax' : size' ≤ maxPage) :
    readRows q size rows = readRows q size' rows ↔
      (∀ r ∈ q.found rows, r.Readable) ∨
        q.leading rows / size * size = q.leading rows / size' * size' := by
  rcases readable_or_exists (q.found rows) with hread | ⟨good, r, rest, e, hfound, hgood, he⟩
  · rw [h.readRows_readable hsize hmax hread, h.readRows_readable hsize' hmax' hread]
    exact iff_of_true rfl (.inl hread)
  · have hbad : ¬ ∀ r ∈ q.found rows, r.Readable := fun hread =>
      CommitRow.not_readable he (hread r (by simp [hfound]))
    rw [or_iff_right hbad, leading_refused hfound hgood he,
      h.readRows_refused hsize hmax hfound hgood he,
      h.readRows_refused hsize' hmax' hfound hgood he, List.append_cancel_right_eq]
    constructor
    · intro heq
      have hlength := congrArg List.length heq
      have hle := Nat.div_mul_le_self good.length size
      have hle' := Nat.div_mul_le_self good.length size'
      simp only [List.length_map, List.length_take] at hlength
      omega
    · intro heq
      rw [heq]

/-- Pages hide no readable row if the readable rows before the end fill them. -/
theorem readRows_eq_rowByRow_iff :
    readRows q size rows = rowByRow (q.found rows) ↔
      (∀ r ∈ q.found rows, r.Readable) ∨ size ∣ q.leading rows := by
  rcases readable_or_exists (q.found rows) with hread | ⟨good, r, rest, e, hfound, hgood, he⟩
  · rw [h.readRows_readable hsize hmax hread, rowByRow_readable hread]
    exact iff_of_true rfl (.inl hread)
  · have hbad : ¬ ∀ r ∈ q.found rows, r.Readable := fun hread =>
      CommitRow.not_readable he (hread r (by simp [hfound]))
    rw [or_iff_right hbad, leading_refused hfound hgood he,
      h.readRows_refused hsize hmax hfound hgood he, hfound, rowByRow_refused hgood he,
      List.append_cancel_right_eq]
    constructor
    · intro heq
      have hlength := congrArg List.length heq
      have hle := Nat.div_mul_le_self good.length size
      simp only [List.length_map, List.length_take] at hlength
      exact ⟨good.length / size, by rw [Nat.mul_comm]; omega⟩
    · intro hdvd
      rw [Nat.div_mul_cancel hdvd, List.take_length]

end Apart

/-- Rows that are stored in the order of a query are found in it. -/
theorem found_of_pairwise (h : (rows.filter q.selects).Pairwise fun r s =>
    (q.rowKey r).atMost (q.rowKey s) = true) : q.found rows = rows.filter q.selects := by
  rw [found_eq, List.mergeSort_of_pairwise h]

end Query
end Pages

/-- **What the size of a page shows.**  Sizes that the database can be asked for show the same of a
query if all rows that it finds can be read, or if the readable rows before the first that cannot
be read make up the same number of rows in full pages. A read then misses none of them if they are
full pages. A greater size shows nothing but a fault, and so does every size where the names of the
query cannot stand in a statement. -/
theorem Database.read_page_size {t : Tables} (ht : t.keysDistinct = true) (q : Query) :
    (q.quotable = true →
      (∀ o o' : TableOptions, o.pageSize ≤ maxPage → o'.pageSize ≤ maxPage →
        (read o q (some t) = read o' q (some t) ↔
          (∀ r ∈ q.found t.commits, r.Readable) ∨
            q.leading t.commits / o.rowsPerPage * o.rowsPerPage
              = q.leading t.commits / o'.rowsPerPage * o'.rowsPerPage)) ∧
      ∀ o : TableOptions, o.pageSize ≤ maxPage →
        (read o q (some t) = rowByRow (q.found t.commits) ↔
          (∀ r ∈ q.found t.commits, r.Readable) ∨ o.rowsPerPage ∣ q.leading t.commits)) ∧
    ∀ o : TableOptions, q.quotable = false ∨ maxPage < o.pageSize →
      read o q (some t) = [.error .database] := by
  have hapart := Tables.apart_of_keysDistinct ht q
  refine ⟨fun hname => ⟨fun o o' hmax hmax' => ?_, fun o hmax => ?_⟩, fun o hrefused => ?_⟩
  · rw [read_of_quotable hname, read_of_quotable hname]
    exact hapart.readRows_eq_iff o.one_le_rowsPerPage (o.rowsPerPage_le_maxPage_iff.2 hmax)
      o'.one_le_rowsPerPage (o'.rowsPerPage_le_maxPage_iff.2 hmax')
  · rw [read_of_quotable hname]
    exact hapart.readRows_eq_rowByRow_iff o.one_le_rowsPerPage
      (o.rowsPerPage_le_maxPage_iff.2 hmax)
  · cases hname : q.quotable with
    | false => exact read_of_not_quotable hname
    | true =>
      have hgreat : maxPage < o.pageSize := hrefused.resolve_left (by simp [hname])
      rw [read_of_quotable hname, readRows,
        if_pos (Nat.not_le.1 (mt o.rowsPerPage_le_maxPage_iff.1 (Nat.not_le.2 hgreat)))]

namespace Database

/-- Three commits, after something else was written in the place of the id of the last. -/
def spoiled : Database :=
  let run := ["a", "b", "c"].map fun stream => .commit (Memory.sampleAttempt stream 1 1 1 1)
  (overwrite ⟨"commits", "commit_id", .text "zz", [("checkpoint_number", .integer 3)]⟩
    (after ((.setUp :: run).map ({}, ·)))).2

/-- Two of the three rows come before the one that cannot be read. -/
theorem exists_spoiled : ∃ t ∈ spoiled, t.keysDistinct = true ∧
    Query.leading (.after "tenant" 0) t.commits = 2 ∧
    ¬ ∀ r ∈ Query.found (.after "tenant" 0) t.commits, r.Readable := by
  have hmap : spoiled.map (fun t =>
      let found := t.commits.filter (Query.after "tenant" 0).selects
      (t.keysDistinct,
        decide (found.Pairwise fun r s => ((Query.after "tenant" 0).rowKey r).atMost
          ((Query.after "tenant" 0).rowKey s) = true),
        (found.takeWhile fun r => decide r.Readable).length, decide (∀ r ∈ found, r.Readable)))
      = some (true, true, 2, false) := by decide +kernel
  obtain ⟨t, ht, hall⟩ := Option.map_eq_some_iff.1 hmap
  rw [Prod.mk.injEq, Prod.mk.injEq, Prod.mk.injEq] at hall
  obtain ⟨hkeys, hsorted, hleading, hread⟩ := hall
  have hfound := Query.found_of_pairwise (of_decide_eq_true hsorted)
  refine ⟨t, ht, hkeys, ?_, ?_⟩
  · rw [Query.leading, hfound, hleading]
  · rw [hfound]
    exact of_decide_eq_false hread

theorem read_page_size_spoiled : ∃ t ∈ spoiled, t.keysDistinct = true ∧
    read ⟨1, .compact⟩ (.after "tenant" 0) (some t)
      = read ⟨2, .compact⟩ (.after "tenant" 0) (some t) ∧
    read ⟨2, .compact⟩ (.after "tenant" 0) (some t)
      = rowByRow (Query.found (.after "tenant" 0) t.commits) ∧
    maxPage < 9223372036854775808 ∧
    read ⟨9223372036854775808, .compact⟩ (.after "tenant" 0) (some t) = [.error .database] := by
  obtain ⟨t, ht, hkeys, hleading, -⟩ := exists_spoiled
  obtain ⟨hasked, hgreat⟩ := read_page_size hkeys (.after "tenant" 0)
  obtain ⟨hsizes, hrows⟩ := hasked (by decide)
  refine ⟨t, ht, hkeys, (hsizes _ _ (by decide) (by decide)).2 (.inr ?_),
    (hrows _ (by decide)).2 (.inr ?_), by decide, hgreat _ (.inr (by decide))⟩
  · rw [hleading]
    decide
  · rw [hleading]
    decide

/-- The size of a page shows: two readable rows before one that cannot be read are handed out by
pages of one row and not by pages of 128, and a size can be too great for any contents. -/
theorem page_size_observable :
    (∃ t ∈ spoiled, t.keysDistinct = true ∧
      read ⟨1, .compact⟩ (.after "tenant" 0) (some t) ≠ read {} (.after "tenant" 0) (some t)) ∧
    ∃ t ∈ after [({}, .setUp)], t.keysDistinct = true ∧
      read ⟨1, .compact⟩ (.after "tenant" 0) (some t)
        ≠ read ⟨9223372036854775808, .compact⟩ (.after "tenant" 0) (some t) := by
  constructor
  · obtain ⟨t, ht, hkeys, hleading, hbad⟩ := exists_spoiled
    have hapart := Tables.apart_of_keysDistinct hkeys (.after "tenant" 0)
    refine ⟨t, ht, hkeys, fun heq => ?_⟩
    rw [read_of_quotable (by decide), read_of_quotable (by decide)] at heq
    have hsizes := (hapart.readRows_eq_iff (by decide) (by decide) (by decide) (by decide)).1 heq
    rw [or_iff_right hbad, hleading] at hsizes
    revert hsizes
    decide
  · exact ⟨{}, rfl, by decide, fun heq => absurd (congrArg List.length heq) (by decide +kernel)⟩

end Database
end EventSourcing
