import EventSourcing.Proofs.Unreadable

/-!
# Adjacent spans of time

A span of time is cut in two at a stamp `b`: what is stamped before `b`, and what is stamped at `b`
or later. In the order of stamps the first part comes before the second, so sorting the parts apart
sorts the whole (`mergeSort_filter_append`). This makes the two halves of a read put together the
whole read, in memory (`Ledger.read_span`) and for the rows of tables, whatever their cells hold
(`Query.found_span`). Stamps and bounds are rounded down to the microsecond together, which is why
`b` cuts the rows in one place in either of its roles.

What is read of the rows goes by pages, and the pages of the second half start at the cut, while
those of the whole span run over it. This makes a difference if, and only if, there is a row that
cannot be read (`Tables.Seamless`).
-/

namespace EventSourcing

section Lists

variable {α : Type*} {le : α → α → Bool} {p : α → Bool} {l : List α}

theorem filter_append_filter_not (h : l.Pairwise fun a b => p b → p a) :
    l.filter p ++ l.filter (fun a => !p a) = l := by
  obtain ⟨post, hpost, hfalse⟩ := exists_eq_filter_append h
  have hnone : l.filter (fun a => !p a && p a) = [] :=
    List.filter_eq_nil_iff.2 fun a _ => by simp
  have hall : post.filter (fun a => !p a) = post :=
    List.filter_eq_self.2 fun a ha => by rw [hfalse a ha, Bool.not_false]
  have hnot : l.filter (fun a => !p a) = post := by
    have hfilter := congrArg (List.filter fun a => !p a) hpost
    rwa [List.filter_append, List.filter_filter, hnone, List.nil_append, hall] at hfilter
  rw [hnot, ← hpost]

/-- Sorting what meets a condition that passes on to all smaller items, and then the rest, sorts the
whole. -/
theorem mergeSort_filter_append (trans : ∀ a b c, le a b → le b c → le a c)
    (total : ∀ a b, le a b || le b a) (hp : ∀ a b, le a b → p b → p a) (l : List α) :
    (l.filter p).mergeSort le ++ (l.filter fun a => !p a).mergeSort le = l.mergeSort le := by
  rw [← filter_mergeSort trans total, ← filter_mergeSort trans total]
  exact filter_append_filter_not
    ((List.pairwise_mergeSort trans total l).imp fun hab => hp _ _ hab)

end Lists

section Cut

variable {tenant : String} {a b : Stamp} {c : Option Stamp}

theorem Ledger.answers_during {x : Commit} : answers (.during tenant a c) x = true ↔
    x.stream.tenant = tenant ∧ a.nanos ≤ x.stamp.nanos ∧ ∀ d ∈ c, x.stamp.nanos < d.nanos := by
  cases c <;> simp [answers, and_assoc]

/-- **The halves of a span of time in memory.** -/
theorem Ledger.read_span (l : Ledger) (hab : a.nanos ≤ b.nanos) (hbc : ∀ d ∈ c, b.nanos ≤ d.nanos) :
    l.read (.during tenant a (some b)) ++ l.read (.during tenant b c)
      = l.read (.during tenant a c) := by
  let p (x : Commit) : Bool := x.stamp.nanos < b.nanos
  have hbefore : answers (.during tenant a (some b)) = fun x =>
      p x && answers (.during tenant a c) x := by
    funext x
    rw [Bool.eq_iff_iff, Bool.and_eq_true, answers_during, answers_during, decide_eq_true_eq]
    constructor
    · rintro ⟨htenant, hstart, hstop⟩
      exact ⟨hstop b rfl, htenant, hstart, fun d hd => Int.lt_of_lt_of_le (hstop b rfl) (hbc d hd)⟩
    · rintro ⟨hbefore, htenant, hstart, -⟩
      refine ⟨htenant, hstart, fun d hd => ?_⟩
      obtain rfl := Option.some.inj hd
      exact hbefore
  have hfrom : answers (.during tenant b c) = fun x =>
      !p x && answers (.during tenant a c) x := by
    funext x
    rw [Bool.eq_iff_iff, Bool.and_eq_true, answers_during, answers_during, Bool.not_eq_true',
      decide_eq_false_iff_not, Int.not_lt]
    constructor
    · rintro ⟨htenant, hstart, hstop⟩
      exact ⟨hstart, htenant, Int.le_trans hab hstart, hstop⟩
    · rintro ⟨hfrom, htenant, -, hstop⟩
      exact ⟨htenant, hfrom, hstop⟩
  simp only [read]
  rw [hbefore, hfrom, ← List.filter_filter, ← List.filter_filter]
  refine mergeSort_filter_append (fun x y z hxy hyz => ?_) (fun x y => ?_) (fun x y hxy hy => ?_) _
  · rw [decide_eq_true_eq] at hxy hyz ⊢
    omega
  · rw [Bool.or_eq_true, decide_eq_true_eq, decide_eq_true_eq]
    omega
  · rw [decide_eq_true_eq] at hxy hy ⊢
    omega

namespace Query

/-- The rows of a span of time are cut where their stamps reach a bound. -/
theorem selects_before (hbc : ∀ d ∈ c, b.nanos ≤ d.nanos) (r : CommitRow) :
    (during tenant a (some b)).selects r
      = (r.stamp.before (.integer b.micros) && (during tenant a c).selects r) := by
  have hstop : r.stamp.before (.integer b.micros) = true →
      c.all (fun d => r.stamp.before (.integer d.micros)) = true := fun hbefore => by
    cases c with
    | none => rfl
    | some d =>
      have hbd := hbc d rfl
      refine Cell.before_of_before_of_atMost hbefore ?_
      rw [Cell.atMost_integer, decide_eq_true_eq, Stamp.micros, Stamp.micros]
      omega
  rw [Bool.eq_iff_iff]
  simp only [selects, Bool.and_eq_true, Option.all_some]
  constructor
  · rintro ⟨h, hbefore⟩
    exact ⟨hbefore, h, hstop hbefore⟩
  · rintro ⟨hbefore, h, -⟩
    exact ⟨h, hbefore⟩

theorem selects_from (hab : a.nanos ≤ b.nanos) (r : CommitRow) :
    (during tenant b c).selects r
      = (!r.stamp.before (.integer b.micros) && (during tenant a c).selects r) := by
  have hstart : (Cell.integer b.micros).atMost r.stamp = true →
      (Cell.integer a.micros).atMost r.stamp = true := fun hle => by
    refine Cell.atMost_trans ?_ hle
    rw [Cell.atMost_integer, decide_eq_true_eq, Stamp.micros, Stamp.micros]
    omega
  rw [Bool.eq_iff_iff]
  simp only [selects, Bool.and_eq_true]
  constructor
  · rintro ⟨⟨htenant, hle⟩, h⟩
    exact ⟨hle, ⟨htenant, hstart hle⟩, h⟩
  · rintro ⟨hle, ⟨htenant, -⟩, h⟩
    exact ⟨⟨htenant, hle⟩, h⟩

/-- **The halves of a span of time in tables.** -/
theorem found_span (hab : a.nanos ≤ b.nanos) (hbc : ∀ d ∈ c, b.nanos ≤ d.nanos)
    (rows : List CommitRow) :
    (during tenant a (some b)).found rows ++ (during tenant b c).found rows
      = (during tenant a c).found rows := by
  rw [found_eq, found_eq, found_eq, funext (selects_before hbc), funext (selects_from hab),
    ← List.filter_filter, ← List.filter_filter]
  refine mergeSort_filter_append (during tenant a c).atMost_trans (during tenant a c).atMost_total
    (fun r s hrs hs => ?_) _
  exact Cell.before_of_atMost_of_before (PageKey.atMost_major hrs) hs

end Query
end Cut

section Seams

variable {q q₁ q₂ : Query} {rows before after : List CommitRow} {size : Nat}

/-- Rows that are read in two parts as in one: after a row that cannot be read there is nothing to
read, and if the first such row comes after the seam, the rows before the seam are full pages. -/
structure Tables.Seamless (size : Nat) (before after : List CommitRow) : Prop where
  ends : (∃ r ∈ before, ¬ r.Readable) → after = []
  fills : (∀ r ∈ before, r.Readable) → (∃ r ∈ after, ¬ r.Readable) → size ∣ before.length

namespace Tables

theorem seamless_of_readable (hbefore : ∀ r ∈ before, r.Readable)
    (hafter : ∀ r ∈ after, r.Readable) : Seamless size before after where
  ends := fun ⟨r, hr, hbad⟩ => absurd (hbefore r hr) hbad
  fills _ := fun ⟨r, hr, hbad⟩ => absurd (hafter r hr) hbad

theorem seamless_iff_dvd (hbefore : ∀ r ∈ before, r.Readable)
    (hafter : ∃ r ∈ after, ¬ r.Readable) : Seamless size before after ↔ size ∣ before.length :=
  ⟨fun h => h.fills hbefore hafter, fun hdvd =>
    ⟨fun ⟨r, hr, hbad⟩ => absurd (hbefore r hr) hbad, fun _ _ => hdvd⟩⟩

theorem seamless_iff_nil (hbefore : ∃ r ∈ before, ¬ r.Readable) :
    Seamless size before after ↔ after = [] := by
  obtain ⟨r, hr, hbad⟩ := hbefore
  exact ⟨fun h => h.ends ⟨r, hr, hbad⟩, fun hnil => ⟨fun _ => hnil, fun hread =>
    absurd (hread r hr) hbad⟩⟩

end Tables

/-- Full pages of two parts are full pages of the whole if the first part is full pages. -/
theorem full_pages_add {m n : Nat} :
    m + n / size * size = (m + n) / size * size ↔ size ∣ m := by
  constructor
  · intro h
    exact (Nat.dvd_add_left (Nat.dvd_mul_left size (n / size))).1 (h ▸ Nat.dvd_mul_left ..)
  · rintro ⟨k, rfl⟩
    rcases Nat.eq_zero_or_pos size with rfl | hsize
    · simp
    · rw [Nat.mul_add_div hsize, Nat.add_mul, Nat.mul_comm k]

namespace Query.Apart

/-- Nothing is read only where there is nothing. -/
theorem readRows_eq_nil_iff (h : q.Apart rows) (hsize : 1 ≤ size) (hmax : size ≤ maxPage) :
    readRows q size rows = [] ↔ q.found rows = [] := by
  rcases readable_or_exists (q.found rows) with hread | ⟨good, r, rest, e, hfound, hgood, he⟩
  · rw [h.readRows_readable hsize hmax hread, List.map_eq_nil_iff, List.map_eq_nil_iff]
  · rw [h.readRows_refused hsize hmax hfound hgood he, hfound]
    simp

/-- **Reading in two parts.**  Two reads that find what a third finds, one after the other, yield
what the third yields if and only if there is no seam between them. -/
theorem readRows_append_iff (h₁ : q₁.Apart rows) (h₂ : q₂.Apart rows) (h : q.Apart rows)
    (hsize : 1 ≤ size) (hmax : size ≤ maxPage)
    (hfound : q₁.found rows ++ q₂.found rows = q.found rows) :
    readRows q₁ size rows ++ readRows q₂ size rows = readRows q size rows ↔
      Tables.Seamless size (q₁.found rows) (q₂.found rows) := by
  rcases readable_or_exists (q₁.found rows) with hread₁ | ⟨good, r, rest, e, hfound₁, hgood, he⟩
  · rcases readable_or_exists (q₂.found rows) with
      hread₂ | ⟨good, r, rest, e, hfound₂, hgood, he⟩
    · have hread : ∀ r ∈ q.found rows, r.Readable := by
        rw [← hfound]
        exact List.forall_mem_append.2 ⟨hread₁, hread₂⟩
      rw [h₁.readRows_readable hsize hmax hread₁, h₂.readRows_readable hsize hmax hread₂,
        h.readRows_readable hsize hmax hread, ← hfound, List.map_append, List.map_append]
      exact iff_of_true rfl (Tables.seamless_of_readable hread₁ hread₂)
    · -- the first unreadable row comes after the seam
      have hbad : ∃ r ∈ q₂.found rows, ¬ r.Readable :=
        ⟨r, by simp [hfound₂], CommitRow.not_readable he⟩
      have hwhole : q.found rows = (q₁.found rows ++ good) ++ r :: rest := by
        rw [← hfound, hfound₂, List.append_assoc]
      rw [Tables.seamless_iff_dvd hread₁ hbad, h₁.readRows_readable hsize hmax hread₁,
        h₂.readRows_refused hsize hmax hfound₂ hgood he,
        h.readRows_refused hsize hmax hwhole (List.forall_mem_append.2 ⟨hread₁, hgood⟩) he,
        ← List.append_assoc, List.append_cancel_right_eq, ← List.map_append, ← List.map_append,
        List.length_append]
      have hle := Nat.div_mul_le_self good.length size
      have hle' := Nat.div_mul_le_self ((q₁.found rows).length + good.length) size
      constructor
      · intro heq
        have hlength := congrArg List.length heq
        simp only [List.length_map, List.length_append, List.length_take] at hlength
        exact full_pages_add.1 (by omega : _ + good.length / size * size = _)
      · intro hdvd
        rw [← full_pages_add.2 hdvd, List.take_length_add_append]
  · -- both the first half and the whole end at the same row
    have hbad : ∃ r ∈ q₁.found rows, ¬ r.Readable :=
      ⟨r, by simp [hfound₁], CommitRow.not_readable he⟩
    have hwhole : q.found rows = good ++ r :: (rest ++ q₂.found rows) := by
      rw [← hfound, hfound₁, List.append_assoc, List.cons_append]
    rw [Tables.seamless_iff_nil hbad, h₁.readRows_refused hsize hmax hfound₁ hgood he,
      h.readRows_refused hsize hmax hwhole hgood he,
      List.append_right_eq_self, h₂.readRows_eq_nil_iff hsize hmax]

end Query.Apart
end Seams

/-- **Adjacent spans of time tile.**  In memory the commits of two adjacent spans, one after the
other, are the commits of the whole span, whenever reads are enabled. In tables they are if the
tenant can stand in a statement, a page is no greater than the database can be asked for and there
is no seam between the rows of the two spans; otherwise they are not. -/
theorem adjacent_spans (tenant : String) {a b : Stamp} {c : Option Stamp} (hab : a.nanos ≤ b.nanos)
    (hbc : ∀ d ∈ c, b.nanos ≤ d.nanos) :
    (∀ m : Memory,
      m.read (.during tenant a (some b)) ++ m.read (.during tenant b c)
        = m.read (.during tenant a c) ↔ m.readsDisabled = false) ∧
    ∀ (run : List (TableOptions × Operation)), ∀ t ∈ Database.after run, ∀ o : TableOptions,
      (Database.read o (.during tenant a (some b)) (some t)
          ++ Database.read o (.during tenant b c) (some t)
        = Database.read o (.during tenant a c) (some t) ↔
      quotable tenant = true ∧ o.pageSize ≤ maxPage ∧ Tables.Seamless o.rowsPerPage
        ((Query.during tenant a (some b)).found t.commits)
        ((Query.during tenant b c).found t.commits)) := by
  constructor
  · intro m
    rw [Memory.read, Memory.read, Memory.read]
    cases hdisabled : m.readsDisabled with
    | true => exact iff_of_false (by simp [Memory.refusedRead]) (by decide)
    | false => exact iff_of_true (by simp [← m.ledger.read_span hab hbc]) rfl
  · intro run t ht o
    have hordered := Database.ordered_after run t ht
    cases hname : quotable tenant with
    | false =>
      have hrefused (a : Stamp) (c : Option Stamp) :
          Database.read o (.during tenant a c) (some t) = [.error .database] :=
        Database.read_of_not_quotable hname
      rw [hrefused, hrefused, hrefused]
      exact iff_of_false (by simp) fun h => Bool.false_ne_true h.1
    | true =>
      have hread (a : Stamp) (c : Option Stamp) : Database.read o (.during tenant a c) (some t)
          = readRows (.during tenant a c) o.rowsPerPage t.commits :=
        Database.read_of_quotable hname
      rw [hread, hread, hread, and_iff_right rfl, ← o.rowsPerPage_le_maxPage_iff]
      by_cases hmax : o.rowsPerPage ≤ maxPage
      · rw [and_iff_right hmax]
        exact (hordered.apart _).readRows_append_iff (hordered.apart _) (hordered.apart _)
          o.one_le_rowsPerPage hmax (Query.found_span hab hbc t.commits)
      · have hgreat (q : Query) : readRows q o.rowsPerPage t.commits = [.error .database] :=
          if_pos (Nat.not_le.1 hmax)
        rw [hgreat, hgreat, hgreat]
        exact iff_of_false (by simp) fun h => hmax h.1

/-- The first attempt of a stream, at a stamp, with one event. -/
def stampedAttempt (stream : String) (nanos : Int) (data : Json) : Attempt :=
  { Memory.sampleAttempt stream 1 1 1 1 with stamp := ⟨nanos⟩, events := [⟨⟨"event", data⟩, []⟩] }

/-- Three streams that are not written in the order of their stamps, two of which share one in whole
microseconds. -/
def scattered : List Operation :=
  [.setUp, .commit (stampedAttempt "a" 3500 .null), .commit (stampedAttempt "b" 1000 .null),
    .commit (stampedAttempt "c" 3999 .null)]

theorem adjacent_spans_scattered :
    (Stamp.mk 0).nanos ≤ (Stamp.mk 3600).nanos ∧
      (∀ d ∈ some (Stamp.mk 9000), (Stamp.mk 3600).nanos ≤ d.nanos) ∧
      Memory.read (.during "tenant" ⟨0⟩ (some ⟨3600⟩)) (Memory.after scattered)
          ++ Memory.read (.during "tenant" ⟨3600⟩ (some ⟨9000⟩)) (Memory.after scattered)
        = Memory.read (.during "tenant" ⟨0⟩ (some ⟨9000⟩)) (Memory.after scattered) ∧
      ∃ t ∈ Database.after (scattered.map ({}, ·)),
        Database.read ⟨1, .compact⟩ (.during "tenant" ⟨0⟩ (some ⟨3600⟩)) (some t)
            ++ Database.read ⟨1, .compact⟩ (.during "tenant" ⟨3600⟩ (some ⟨9000⟩)) (some t)
          = Database.read ⟨1, .compact⟩ (.during "tenant" ⟨0⟩ (some ⟨9000⟩)) (some t) := by
  have hab : (Stamp.mk 0).nanos ≤ (Stamp.mk 3600).nanos := by decide
  have hbc : ∀ d ∈ some (Stamp.mk 9000), (Stamp.mk 3600).nanos ≤ d.nanos := by decide
  obtain ⟨hmemory, htables⟩ := adjacent_spans "tenant" hab hbc
  have hmap : (Database.after (scattered.map ({}, ·))).map (fun t =>
      decide (∀ r ∈ t.commits, r.Readable)) = some true := by decide +kernel
  obtain ⟨t, ht, hread⟩ := Option.map_eq_some_iff.1 hmap
  have hread (q : Query) : ∀ r ∈ q.found t.commits, r.Readable := fun r hr =>
    of_decide_eq_true hread r (Query.mem_found.1 hr).1
  refine ⟨hab, hbc, (hmemory _).2 (by decide +kernel), t, ht,
    (htables _ t ht ⟨1, .compact⟩).2 ⟨by decide, by decide,
      Tables.seamless_of_readable (hread _) (hread _)⟩⟩

/-- Two streams, the later one of which cannot be read. -/
def halfReadable : List (TableOptions × Operation) :=
  [({}, .setUp), ({}, .commit (stampedAttempt "a" 1000 .null)),
    ({}, .commit (stampedAttempt "b" 2000 (Database.nested 125)))]

/-- Spans do not tile where a page is one row too great, on any contents, nor where the row that
cannot be read shares a page with one before the cut. -/
theorem not_tiling :
    (∃ t ∈ Database.after [({}, .setUp)],
      Database.read ⟨9223372036854775808, .compact⟩ (.during "tenant" ⟨0⟩ (some ⟨1000⟩)) (some t)
          ++ Database.read ⟨9223372036854775808, .compact⟩ (.during "tenant" ⟨1000⟩ none) (some t)
        ≠ Database.read ⟨9223372036854775808, .compact⟩ (.during "tenant" ⟨0⟩ none) (some t)) ∧
    ∃ t ∈ Database.after halfReadable,
      Database.read {} (.during "tenant" ⟨0⟩ (some ⟨2000⟩)) (some t)
          ++ Database.read {} (.during "tenant" ⟨2000⟩ none) (some t)
        ≠ Database.read {} (.during "tenant" ⟨0⟩ none) (some t) := by
  refine ⟨⟨{}, rfl, fun h => absurd (congrArg List.length h) (by decide)⟩, ?_⟩
  have hmap : (Database.after halfReadable).map (fun t =>
      ((t.commits.filter (Query.during "tenant" ⟨0⟩ (some ⟨2000⟩)).selects).map
          fun r => decide r.Readable,
        (t.commits.filter (Query.during "tenant" ⟨2000⟩ none).selects).map
          fun r => decide r.Readable)) = some ([true], [false]) := by decide +kernel
  obtain ⟨t, ht, hlists⟩ := Option.map_eq_some_iff.1 hmap
  refine ⟨t, ht, fun htiles => ?_⟩
  have hordered := Database.ordered_after halfReadable t ht
  have hseam := ((hordered.apart _).readRows_append_iff (hordered.apart _) (hordered.apart _)
    (TableOptions.one_le_rowsPerPage {}) (by decide)
    (Query.found_span (by decide) (by simp) t.commits)).1 htiles
  have hone {q : Query} {b : Bool} (h : (t.commits.filter q.selects).map (fun r =>
      decide r.Readable) = [b]) : ∃ r, q.found t.commits = [r] ∧ decide r.Readable = b := by
    have hperm := (q.perm_found t.commits).map fun r => decide r.Readable
    rw [h] at hperm
    exact List.map_eq_singleton_iff.1 (List.perm_singleton.1 hperm)
  obtain ⟨hbefore, hafter⟩ := Prod.mk.inj hlists
  obtain ⟨r, hr, hgood⟩ := hone hbefore
  obtain ⟨s, hs, hbad⟩ := hone hafter
  rw [hr, hs] at hseam
  have hdvd : 128 ∣ 1 := hseam.fills (List.forall_mem_singleton.2 (of_decide_eq_true hgood))
    ⟨s, List.mem_singleton_self s, of_decide_eq_false hbad⟩
  exact absurd hdvd (by decide)

end EventSourcing
