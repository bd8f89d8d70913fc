import EventSourcing.Proofs.Parts
import EventSourcing.Proofs.TableOrder
import Mathlib.Algebra.Order.Field.Rat
import Mathlib.Algebra.Order.Ring.Cast
import Mathlib.Tactic.FieldSimp

/-!
# Reads that meet unreadable rows

Cells of any kinds are ordered, numbers by their exact values, so the places of rows in the order of
a query are ordered whatever is in the tables. If the rows that answer a query have different places
(`Query.Apart`), there is one order of them, and the page after a row starts with the row that
follows it (`Query.Apart.rowsAfter_eq`).

A page is decoded before any of its commits is handed out, and one row that cannot be read takes the
place of all of them. So a read hands out the full pages before the one that has the first
unreadable row, and then the fault of this row: the readable rows before it on its own page are not
seen (`Query.Apart.readRows_refused`). How many these are depends on the size of a page.
-/

namespace EventSourcing

section Order

namespace Numeral

/-- The exact value of a number, if it is finite. -/
def value (a : Numeral) : ℚ :=
  match a.fraction? with
  | some (n, d) => n / d
  | none => 0

theorem fraction?_eq_some {a : Numeral} {n : Int} {d : Nat} (h : a.fraction? = some (n, d)) :
    a.rank = 1 ∧ 0 < d ∧ a.value = n / d := by
  have hvalue : a.value = n / d := by rw [value, h]
  match a with
  | .integer m =>
    obtain rfl : 1 = d := congrArg Prod.snd (Option.some.inj h)
    exact ⟨rfl, Nat.one_pos, hvalue⟩
  | .real (.finite x) =>
    obtain rfl : x.ratio.2 = d := congrArg Prod.snd (Option.some.inj h)
    refine ⟨rfl, ?_, hvalue⟩
    rw [Binary64.ratio]
    split
    · exact Nat.two_pow_pos _
    · exact Nat.one_pos

theorem fraction?_eq_none {a : Numeral} (h : a.fraction? = none) : a.rank ≠ 1 ∧ a.value = 0 := by
  refine ⟨?_, by rw [value, h]⟩
  match a with
  | .real (.infinite true) | .real (.infinite false) | .real .nan => exact nofun

/-- Fractions are compared by cross-multiplication. -/
theorem compare_cross (m n : Int) {c d : Nat} (hc : 0 < c) (hd : 0 < d) :
    compare (m * d) (n * c) = compare (m / c : ℚ) (n / d) := by
  have hc : (0 : ℚ) < c := Nat.cast_pos.2 hc
  have hd : (0 : ℚ) < d := Nat.cast_pos.2 hd
  have hm : ((m * d : ℤ) : ℚ) = m / c * (c * d) := by
    push_cast
    field_simp
  have hn : ((n * c : ℤ) : ℚ) = n / d * (c * d) := by
    push_cast
    field_simp
  rw [← cmp_eq_compare, ← cmp_eq_compare, ← (Int.cast_strictMono (R := ℚ)).cmp_map_eq, hm, hn]
  exact (strictMono_mul_right_of_pos (mul_pos hc hd)).cmp_map_eq _ _

/-- Numbers are ordered by rank, and the finite ones by their exact values. -/
theorem order_eq (a b : Numeral) :
    a.order b = compareLex (compareOn rank) (compareOn value) a b := by
  rw [compareLex, compareOn, compareOn, order]
  cases ha : a.fraction? with
  | none =>
    obtain ⟨hrank, hvalue⟩ := fraction?_eq_none ha
    cases hb : b.fraction? with
    | none => rw [hvalue, (fraction?_eq_none hb).2, Std.compare_self, Ordering.then_eq]
    | some r =>
      obtain ⟨hrank', -, -⟩ := fraction?_eq_some hb
      rw [hrank'] at *
      cases hcompare : compare a.rank 1 with
      | eq => exact absurd (Nat.compare_eq_eq.1 hcompare) hrank
      | lt | gt => rfl
  | some r =>
    obtain ⟨hrank, hc, hvalue⟩ := fraction?_eq_some ha
    cases hb : b.fraction? with
    | none =>
      obtain ⟨hrank', -⟩ := fraction?_eq_none hb
      rw [hrank]
      cases hcompare : compare 1 b.rank with
      | eq => exact absurd (Nat.compare_eq_eq.1 hcompare).symm hrank'
      | lt | gt => rfl
    | some s =>
      obtain ⟨hrank', hd, hvalue'⟩ := fraction?_eq_some hb
      rw [hrank, hrank', hvalue, hvalue', Std.compare_self, Ordering.eq_then]
      exact compare_cross r.1 s.1 hc hd

instance : Std.TransCmp order := by
  rw [show order = _ from funext fun a => funext (order_eq a)]
  infer_instance

end Numeral

namespace Cell

/-- Cells of any kinds are ordered. -/
instance : Std.TransCmp order where
  eq_swap {a b} := by
    cases a <;> cases b
    case number.number a b =>
      have h : a.order b = (b.order a).swap := Std.OrientedCmp.eq_swap
      exact h
    case text.text a b =>
      have h : compare a b = (compare b a).swap := Std.OrientedCmp.eq_swap
      exact h
    case bytes.bytes a b =>
      have h : compare a b = (compare b a).swap := Std.OrientedCmp.eq_swap
      exact h
    all_goals rfl
  isLE_trans {a b c} := by
    cases a <;> cases b <;> cases c
    case number.number.number a b c =>
      have h : (a.order b).isLE → (b.order c).isLE → (a.order c).isLE := Std.TransCmp.isLE_trans
      exact h
    case text.text.text a b c =>
      have h : (compare a b).isLE → (compare b c).isLE → (compare a c).isLE :=
        Std.TransCmp.isLE_trans
      exact h
    case bytes.bytes.bytes a b c =>
      have h : (compare a b).isLE → (compare b c).isLE → (compare a c).isLE :=
        Std.TransCmp.isLE_trans
      exact h
    all_goals simp [order]

theorem order_swap (a b : Cell) : b.order a = (a.order b).swap := Std.OrientedCmp.eq_swap

theorem atMost_eq (a b : Cell) : a.atMost b = (a.order b).isLE := by
  rw [atMost, before, order_swap a b]
  cases a.order b <;> rfl

theorem atMost_trans {a b c : Cell} (hab : a.atMost b = true) (hbc : b.atMost c = true) :
    a.atMost c = true := by
  rw [atMost_eq] at hab hbc ⊢
  exact Std.TransCmp.isLE_trans hab hbc

theorem before_eq (a b : Cell) : a.before b = (a.order b).isLT := by
  rw [before]
  cases a.order b <;> rfl

theorem before_of_before_of_atMost {a b c : Cell} (hab : a.before b = true)
    (hbc : b.atMost c = true) : a.before c = true := by
  rw [before_eq, Ordering.isLT_iff_eq_lt] at hab ⊢
  rw [atMost_eq] at hbc
  exact Std.TransCmp.lt_of_lt_of_isLE hab hbc

theorem before_of_atMost_of_before {a b c : Cell} (hab : a.atMost b = true)
    (hbc : b.before c = true) : a.before c = true := by
  rw [before_eq, Ordering.isLT_iff_eq_lt] at hbc ⊢
  rw [atMost_eq] at hab
  exact Std.TransCmp.lt_of_isLE_of_lt hab hbc

end Cell

namespace PageKey

/-- The order of two positions. -/
def order (a b : PageKey) : Ordering := (a.major.order b.major).then (compare a.minor b.minor)

instance : Std.TransCmp order :=
  letI : Ord Cell := ⟨Cell.order⟩
  haveI : Std.TransOrd Cell := inferInstanceAs (Std.TransCmp Cell.order)
  inferInstanceAs (Std.TransCmp (compareLex (compareOn PageKey.major) (compareOn PageKey.minor)))

theorem order_swap (a b : PageKey) : b.order a = (a.order b).swap := Std.OrientedCmp.eq_swap

theorem before_eq (a b : PageKey) : a.before b = (a.order b).isLT := by
  rw [before, order]
  cases a.major.order b.major with
  | lt | gt => rfl
  | eq =>
    rw [Ordering.eq_then, Bool.eq_iff_iff, decide_eq_true_eq, Ordering.isLT_iff_eq_lt,
      Int.compare_eq_lt]

theorem before_of_major {a b : PageKey} (h : a.major.before b.major = true) :
    a.before b = true := by
  rw [Cell.before_eq, Ordering.isLT_iff_eq_lt] at h
  rw [before_eq, order, h]
  rfl

theorem atMost_eq (a b : PageKey) : a.atMost b = (a.order b).isLE := by
  rw [atMost, before_eq, order_swap a b]
  cases a.order b <;> rfl

theorem atMost_trans (a b c : PageKey) (hab : a.atMost b = true) (hbc : b.atMost c = true) :
    a.atMost c = true := by
  rw [atMost_eq] at hab hbc ⊢
  exact Std.TransCmp.isLE_trans hab hbc

theorem atMost_major {a b : PageKey} (h : a.atMost b = true) : a.major.atMost b.major = true := by
  rw [atMost_eq, order] at h
  rw [Cell.atMost_eq]
  cases hmajor : a.major.order b.major with
  | lt | eq => rfl
  | gt =>
    rw [hmajor] at h
    cases h

theorem atMost_total (a b : PageKey) : (a.atMost b || b.atMost a) = true := by
  rw [atMost_eq, atMost_eq, order_swap a b]
  cases a.order b <;> rfl

end PageKey
end Order

/-- A row that can be read. -/
def CommitRow.Readable (r : CommitRow) : Prop := r.decode = .ok r.commit

section Rows

variable {rows good rest : List CommitRow} {r : CommitRow} {e : Fault}

theorem CommitRow.readable_or (r : CommitRow) : r.Readable ∨ ∃ e, r.decode = .error e := by
  cases h : r.decode with
  | error e => exact .inr ⟨e, rfl⟩
  | ok c =>
    left
    rw [Readable, commit_eq h, h]

theorem CommitRow.readable_iff (r : CommitRow) : r.Readable ↔ r.decode.isOk = true := by
  rw [Readable]
  cases h : r.decode with
  | error e => exact iff_of_false nofun nofun
  | ok c => exact iff_of_true (by rw [commit_eq h]) rfl

instance : DecidablePred CommitRow.Readable := fun r => decidable_of_iff _ r.readable_iff.symm

theorem CommitRow.not_readable {r : CommitRow} {e : Fault} (he : r.decode = .error e) :
    ¬ r.Readable := fun hr => by
  rw [Readable, he] at hr
  cases hr

/-- Rows can all be read, or there is a first one that cannot. -/
theorem readable_or_exists (rows : List CommitRow) : (∀ r ∈ rows, r.Readable) ∨
    ∃ good r rest e, rows = good ++ r :: rest ∧ (∀ s ∈ good, s.Readable) ∧ r.decode = .error e := by
  induction rows with
  | nil => exact .inl (List.forall_mem_nil _)
  | cons s rows ih =>
    rcases s.readable_or with hs | ⟨e, he⟩
    · rcases ih with hrows | ⟨good, r, rest, e, rfl, hgood, he⟩
      · exact .inl (List.forall_mem_cons.2 ⟨hs, hrows⟩)
      · exact .inr ⟨s :: good, r, rest, e, rfl, List.forall_mem_cons.2 ⟨hs, hgood⟩, he⟩
    · exact .inr ⟨[], s, rows, e, rfl, List.forall_mem_nil _, he⟩

theorem decodeRows_readable (h : ∀ r ∈ rows, r.Readable) :
    decodeRows rows = .ok (rows.map CommitRow.commit) :=
  decodeRows_eq_ok_iff.2 ⟨h, rfl⟩

/-- The first row that cannot be read gives the fault of all. -/
theorem decodeRows_refused (hgood : ∀ s ∈ good, s.Readable) (he : r.decode = .error e) :
    decodeRows (good ++ r :: rest) = .error e := by
  induction good with
  | nil =>
    rw [List.nil_append, decodeRows, he]
    rfl
  | cons s good ih =>
    obtain ⟨hs, hgood⟩ := List.forall_mem_cons.1 hgood
    rw [List.cons_append, decodeRows, hs, ih hgood]
    rfl

end Rows

namespace Query

variable {q : Query} {rows pre post good rest : List CommitRow} {r : CommitRow} {e : Fault}
  {size n : Nat}

theorem atMost_trans (q : Query) (r s t : CommitRow)
    (hrs : (q.rowKey r).atMost (q.rowKey s) = true)
    (hst : (q.rowKey s).atMost (q.rowKey t) = true) :
    (q.rowKey r).atMost (q.rowKey t) = true :=
  PageKey.atMost_trans _ _ _ hrs hst

theorem atMost_total (q : Query) (r s : CommitRow) :
    ((q.rowKey r).atMost (q.rowKey s) || (q.rowKey s).atMost (q.rowKey r)) = true :=
  PageKey.atMost_total _ _

/-- The rows that answer a query, in its order. -/
def found (q : Query) (rows : List CommitRow) : List CommitRow := q.rowsAfter none rows

theorem found_eq (q : Query) (rows : List CommitRow) : q.found rows
    = (rows.filter q.selects).mergeSort fun r s => (q.rowKey r).atMost (q.rowKey s) := by
  rw [found, rowsAfter]
  simp only [Bool.and_true]

theorem perm_found (q : Query) (rows : List CommitRow) :
    (q.found rows).Perm (rows.filter q.selects) := by
  rw [found_eq]
  exact List.mergeSort_perm ..

theorem mem_found : r ∈ q.found rows ↔ r ∈ rows ∧ q.selects r = true :=
  (q.perm_found rows).mem_iff.trans List.mem_filter

theorem length_found_le (q : Query) (rows : List CommitRow) :
    (q.found rows).length ≤ rows.length :=
  (q.perm_found rows).length_eq.trans_le (List.length_filter_le ..)

/-- Rows after a position are those that answer the query and are after it. -/
theorem rowsAfter_eq (q : Query) (cursor : Option PageKey) (rows : List CommitRow) :
    q.rowsAfter cursor rows
      = (q.found rows).filter fun r => cursor.all (·.before (q.rowKey r)) := by
  rw [found, rowsAfter, rowsAfter, filter_mergeSort q.atMost_trans q.atMost_total,
    List.filter_filter]
  congr 1
  refine List.filter_congr fun r _ => ?_
  cases cursor <;> simp [Bool.and_comm]

/-- The rows that answer a query have different places in its order. -/
def Apart (q : Query) (rows : List CommitRow) : Prop :=
  (rows.filter q.selects).Pairwise fun r s =>
    (q.rowKey r).before (q.rowKey s) = true ∨ (q.rowKey s).before (q.rowKey r) = true

namespace Apart

theorem pairwise_found (h : q.Apart rows) : (q.found rows).Pairwise fun r s =>
    (q.rowKey r).before (q.rowKey s) = true := by
  have hapart := (q.perm_found rows).pairwise_iff (fun h => h.symm) |>.2 h
  have hsorted : (q.found rows).Pairwise fun r s => (q.rowKey r).atMost (q.rowKey s) = true :=
    List.pairwise_mergeSort q.atMost_trans q.atMost_total _
  refine (hapart.and hsorted).imp fun {r s} hrs => ?_
  obtain ⟨hbefore | hbefore, hle⟩ := hrs
  · exact hbefore
  · rw [PageKey.atMost, hbefore] at hle
    cases hle

/-- After the pages that were fetched comes the rest of the rows. -/
theorem rowsAfter_eq (h : q.Apart rows) (hfound : q.found rows = pre ++ post) :
    q.rowsAfter (pre.getLast?.map q.rowKey) rows = post := by
  have hsorted := h.pairwise_found
  rw [Query.rowsAfter_eq, hfound]
  rw [hfound] at hsorted
  obtain ⟨hpre, -, hbetween⟩ := List.pairwise_append.1 hsorted
  cases hlast : pre.getLast? with
  | none =>
    rw [List.getLast?_eq_none_iff.1 hlast, List.nil_append]
    exact List.filter_eq_self.2 fun _ _ => rfl
  | some r =>
    obtain ⟨rs, rfl⟩ := List.getLast?_eq_some_iff.1 hlast
    simp only [Option.map_some, Option.all_some]
    rw [List.filter_append, List.filter_eq_nil_iff.2, List.nil_append, List.filter_eq_self]
    · exact fun s hs => hbetween r (by simp) s hs
    · intro s hs hafter
      have htotal := PageKey.atMost_total (q.rowKey s) (q.rowKey r)
      rcases List.mem_append.1 hs with hs | hs
      · have hbefore := (List.pairwise_append.1 hpre).2.2 s hs r (by simp)
        rw [PageKey.atMost, PageKey.atMost, hbefore, hafter] at htotal
        cases htotal
      · obtain rfl := List.mem_singleton.1 hs
        rw [PageKey.atMost, hafter] at htotal
        cases htotal

/-- A page is decoded whole, and the next page starts after it if it is full. -/
theorem readFrom_succ (h : q.Apart rows) (hfound : q.found rows = pre ++ post) (hsize : 1 ≤ size) :
    readFrom q size rows (n + 1) (pre.getLast?.map q.rowKey)
      = match decodeRows (post.take size) with
        | .error e => [.error e]
        | .ok cs => cs.map .ok ++ if post.length < size then [] else
            readFrom q size rows n ((pre ++ post.take size).getLast?.map q.rowKey) := by
  rw [readFrom, fetchPage, h.rowsAfter_eq hfound]
  cases hdecode : decodeRows (post.take size) with
  | error e => rfl
  | ok cs =>
    obtain ⟨hread, rfl⟩ := decodeRows_eq_ok_iff.1 hdecode
    show _ ++ _ = _ ++ _
    simp only [List.length_take]
    by_cases hshort : post.length < size
    · rw [if_pos (by omega), if_pos hshort]
    · have hlength : (post.take size).length = size := List.length_take_of_le (by omega)
      obtain ⟨rs, r, hrs⟩ : ∃ rs r, post.take size = rs ++ [r] :=
        ⟨_, _, (List.dropLast_append_getLast (List.ne_nil_of_length_pos (by omega))).symm⟩
      have hr : r.decode = .ok r.commit := hread r (by simp [hrs])
      rw [if_neg (by omega), if_neg hshort, hrs, List.map_append, ← List.append_assoc]
      simp only [List.getLast?_concat, Option.map_some, List.map_cons, List.map_nil,
        CommitRow.rowKey_of_decode hr q]

/-- Rows that can all be read are read. -/
theorem readFrom_readable (h : q.Apart rows) (hsize : 1 ≤ size)
    (hfound : q.found rows = pre ++ post) (hn : post.length < n) (hread : ∀ r ∈ post, r.Readable) :
    readFrom q size rows n (pre.getLast?.map q.rowKey)
      = (post.map CommitRow.commit).map .ok := by
  induction n generalizing pre post with
  | zero => omega
  | succ n ih =>
    have hpage := decodeRows_readable fun r hr => hread r (List.mem_of_mem_take (i := size) hr)
    rw [h.readFrom_succ hfound hsize, hpage]
    by_cases hshort : post.length < size
    · simp only [if_pos hshort]
      rw [List.append_nil, List.take_of_length_le (by omega)]
    · have hnext : q.found rows = (pre ++ post.take size) ++ post.drop size := by
        rw [List.append_assoc, List.take_append_drop, hfound]
      have hrest := ih hnext (by rw [List.length_drop]; omega) fun r hr =>
        hread r (List.mem_of_mem_drop hr)
      simp only [if_neg hshort, hrest]
      rw [← List.map_append, ← List.map_append, List.take_append_drop]

/-- A row that cannot be read stands for all rows of its page. -/
theorem readFrom_refused (h : q.Apart rows) (hsize : 1 ≤ size)
    (hfound : q.found rows = pre ++ (good ++ r :: rest)) (hn : good.length < n)
    (hgood : ∀ s ∈ good, s.Readable) (he : r.decode = .error e) :
    readFrom q size rows n (pre.getLast?.map q.rowKey)
      = ((good.take (good.length / size * size)).map CommitRow.commit).map .ok ++ [.error e] := by
  induction n generalizing pre good with
  | zero => omega
  | succ n ih =>
    rw [h.readFrom_succ hfound hsize]
    by_cases hshort : good.length < size
    · obtain ⟨k, hk⟩ : ∃ k, size = good.length + (k + 1) := ⟨size - good.length - 1, by omega⟩
      have hpage : (good ++ r :: rest).take size = good ++ r :: rest.take k := by
        rw [hk, List.take_length_add_append, List.take_succ_cons]
      rw [hpage, decodeRows_refused hgood he, Nat.div_eq_of_lt hshort]
      simp
    · have htake : (good ++ r :: rest).take size = good.take size :=
        List.take_append_of_le_length (by omega)
      have hpage := decodeRows_readable fun s hs => hgood s (List.mem_of_mem_take (i := size) hs)
      have hnext : q.found rows
          = (pre ++ good.take size) ++ (good.drop size ++ r :: rest) := by
        rw [hfound, List.append_assoc, ← List.append_assoc (good.take size),
          List.take_append_drop]
      have hrest := ih hnext (by rw [List.length_drop]; omega) fun s hs =>
        hgood s (List.mem_of_mem_drop hs)
      have hcount : good.length / size * size
          = size + (good.length - size) / size * size := by
        rw [Nat.div_eq_sub_div hsize (by omega), Nat.succ_mul, Nat.add_comm]
      have hlong : ¬ (good ++ r :: rest).length < size := by
        rw [List.length_append]
        omega
      rw [htake, hpage]
      simp only [if_neg hlong, hrest]
      rw [List.length_drop, ← List.append_assoc, ← List.map_append, ← List.map_append, hcount,
        List.take_add]

variable (h : q.Apart rows) (hsize : 1 ≤ size) (hmax : size ≤ maxPage)
include h hsize hmax

theorem readRows_readable (hread : ∀ r ∈ q.found rows, r.Readable) :
    readRows q size rows = ((q.found rows).map CommitRow.commit).map .ok := by
  have hlength := q.length_found_le rows
  rw [readRows, if_neg (Nat.not_lt.2 hmax)]
  exact h.readFrom_readable hsize (List.nil_append _).symm (by omega) hread

/-- **An unreadable row ends a read at the page before it.**  A read hands out the full pages before
the first row that cannot be read, and then the fault of this row. -/
theorem readRows_refused (hfound : q.found rows = good ++ r :: rest)
    (hgood : ∀ s ∈ good, s.Readable) (he : r.decode = .error e) :
    readRows q size rows
      = ((good.take (good.length / size * size)).map CommitRow.commit).map .ok ++ [.error e] := by
  have hlength := q.length_found_le rows
  have hfirst : q.found rows = [] ++ (good ++ r :: rest) := hfound
  rw [hfound, List.length_append, List.length_cons] at hlength
  rw [readRows, if_neg (Nat.not_lt.2 hmax)]
  exact h.readFrom_refused hsize hfirst (by omega) hgood he

end Apart
end Query

namespace Tables

/-- Rows in order have different places in the order of any query. -/
theorem InOrder.apart {rows : List CommitRow} (h : InOrder rows) (q : Query) : q.Apart rows := by
  cases q with
  | revisions stream first last =>
    refine (h.sequences.filter _).imp_of_mem fun {r s} hr hs hrs => .inl ?_
    have hof {r : CommitRow} (hr : r ∈ rows.filter (Query.revisions stream first last).selects) :
        r.ofStream stream = true := by
      have hselects := (List.mem_filter.1 hr).2
      rw [Query.selects, Bool.and_eq_true, Bool.and_eq_true] at hselects
      exact hselects.1.1
    exact PageKey.before_of_major (hrs stream (hof hr) (hof hs))
  | after tenant checkpoint =>
    refine (h.checkpoints.filter _).imp fun {r s} hrs => .inl ?_
    rw [Query.rowKey, Query.rowKey, PageKey.before_integer, decide_eq_true_eq]
    exact Prod.Lex.toLex_lt_toLex.2 (.inl hrs)
  | during tenant start stop =>
    refine (h.checkpoints.filter _).imp fun {r s} hrs => ?_
    show PageKey.before ⟨r.stamp, r.checkpoint⟩ ⟨s.stamp, s.checkpoint⟩ = true ∨
      PageKey.before ⟨s.stamp, s.checkpoint⟩ ⟨r.stamp, r.checkpoint⟩ = true
    rw [PageKey.before, PageKey.before, Cell.order_swap r.stamp s.stamp]
    cases r.stamp.order s.stamp with
    | lt => exact .inl rfl
    | eq => exact .inl (decide_eq_true hrs)
    | gt => exact .inr rfl

end Tables
end EventSourcing
