import EventSourcing.Commit
import Mathlib.Data.List.Chain
import Mathlib.Data.List.Nodup

/-!
# Histories of streams

The commits of one stream follow each other without gap: `Continues sequence revision cs` says that
`cs` goes on from a stream that has so many commits and so many events. Everything that a handle or
a store derives from a stream reads off this one relation: sequences and revisions ascend strictly,
the last commit has the number of all commits and of all events, and a range of revisions cuts a
contiguous piece out of the history (`Continues.exists_between`).

Revisions count events from 1. `window before first last es` are the events with revisions from
`first` to `last`, when `before` events come before `es`; it distributes over appended lists
(`window_append`), so it can be followed commit by commit.
-/

namespace EventSourcing

/-- The events of commits, in order. -/
def eventsOf (cs : List Commit) : List Event := cs.flatMap (·.events)

@[simp] theorem eventsOf_nil : eventsOf [] = [] := rfl

@[simp] theorem eventsOf_cons (c : Commit) (cs : List Commit) :
    eventsOf (c :: cs) = c.events ++ eventsOf cs := rfl

@[simp] theorem eventsOf_append (xs ys : List Commit) :
    eventsOf (xs ++ ys) = eventsOf xs ++ eventsOf ys := by
  simp [eventsOf]

/-- Commits that go on, one after the other, from a sequence and a revision. -/
def Continues : (sequence revision : Nat) → List Commit → Prop
  | _, _, [] => True
  | sequence, revision, c :: cs =>
    c.events ≠ [] ∧ c.sequence = sequence + 1 ∧ c.revision = revision + c.events.length ∧
      Continues c.sequence c.revision cs

/-- What a stream's commits must be like: numbered from 1, none empty, no id twice, and each
beginning at the revision after the commit before it. -/
structure Gapless (cs : List Commit) : Prop where
  sequences : cs.map (·.sequence) = List.range' 1 cs.length
  events_ne_nil : ∀ c ∈ cs, c.events ≠ []
  ids : (cs.map (·.id)).Nodup
  start : ∀ c ∈ cs.head?, c.firstRevision = 1
  step : cs.IsChain fun c d => d.firstRevision = c.revision + 1

/-- The first revision of a commit is the one after those before it. -/
theorem Commit.firstRevision_eq {c : Commit} {before : Nat} (h : c.events ≠ [])
    (hr : c.revision = before + c.events.length) (hm : c.revision ≤ maxRevision) :
    c.firstRevision = before + 1 := by
  have := List.length_pos_iff.2 h
  unfold Commit.firstRevision nextRevision
  omega

theorem Commit.firstRevision_pos (c : Commit) : 1 ≤ c.firstRevision := by
  unfold Commit.firstRevision nextRevision maxRevision
  omega

theorem Commit.firstRevision_le_max (c : Commit) : c.firstRevision ≤ maxRevision :=
  Nat.min_le_right ..

section Lists

variable {α : Type*} {p : α → Bool} {l : List α}

/-- A property that passes on to all later items holds from some place on. -/
theorem exists_eq_append_filter (h : l.Pairwise fun a b => p a → p b) :
    ∃ pre, l = pre ++ l.filter p ∧ ∀ a ∈ pre, p a = false := by
  induction l with
  | nil => exact ⟨[], rfl, by simp⟩
  | cons a l ih =>
    obtain ⟨ha, hl⟩ := List.pairwise_cons.1 h
    by_cases hp : p a
    · refine ⟨[], ?_, by simp⟩
      rw [List.nil_append, List.filter_eq_self.2]
      rintro b (_ | ⟨_, hb⟩)
      exacts [hp, ha b hb hp]
    · obtain ⟨pre, hpre, hfalse⟩ := ih hl
      refine ⟨a :: pre, ?_, ?_⟩
      · rw [List.filter_cons_of_neg hp, List.cons_append, ← hpre]
      · rintro b (_ | ⟨_, hb⟩)
        exacts [by simpa using hp, hfalse b hb]

/-- A property that passes on to all earlier items holds up to some place. -/
theorem exists_eq_filter_append (h : l.Pairwise fun a b => p b → p a) :
    ∃ post, l = l.filter p ++ post ∧ ∀ a ∈ post, p a = false := by
  induction l with
  | nil => exact ⟨[], rfl, by simp⟩
  | cons a l ih =>
    obtain ⟨ha, hl⟩ := List.pairwise_cons.1 h
    by_cases hp : p a
    · obtain ⟨post, hpost, hfalse⟩ := ih hl
      exact ⟨post, by rw [List.filter_cons_of_pos hp, List.cons_append, ← hpost], hfalse⟩
    · have hnil : l.filter p = [] := List.filter_eq_nil_iff.2 fun b hb hpb => hp (ha b hb hpb)
      refine ⟨a :: l, by rw [List.filter_cons_of_neg hp, hnil, List.nil_append], ?_⟩
      rintro b (_ | ⟨_, hb⟩)
      exacts [by simpa using hp, by simpa using List.filter_eq_nil_iff.1 hnil b hb]

end Lists

namespace Continues

variable {s r : Nat} {c : Commit} {cs xs ys : List Commit}

/-- A history of two parts: the second goes on from where the first ends. -/
theorem append_iff : Continues s r (xs ++ ys) ↔
    Continues s r xs ∧ Continues (s + xs.length) (r + (eventsOf xs).length) ys := by
  induction xs generalizing s r with
  | nil => simp [Continues]
  | cons c xs ih =>
    simp only [List.cons_append, Continues, ih, and_assoc]
    refine and_congr_right fun _ => and_congr_right fun hs => and_congr_right fun hr =>
      and_congr_right fun _ => ?_
    simp only [hs, hr, List.length_cons, eventsOf_cons, List.length_append]
    rw [show s + 1 + xs.length = s + (xs.length + 1) by omega,
      show r + c.events.length + (eventsOf xs).length
        = r + (c.events.length + (eventsOf xs).length) by omega]

/-- A history goes on by one commit that claims the next sequence and starts at the end. -/
theorem concat (h : Continues s r cs) (hc : c.events ≠ []) (hs : c.sequence = s + cs.length + 1)
    (hr : c.revision = r + (eventsOf cs).length + c.events.length) :
    Continues s r (cs ++ [c]) :=
  append_iff.2 ⟨h, hc, hs, hr, trivial⟩

/-- A commit of a history, with what comes before it. -/
theorem of_mem (h : Continues s r cs) (hc : c ∈ cs) : ∃ xs ys, cs = xs ++ c :: ys ∧
    c.events ≠ [] ∧ c.sequence = s + xs.length + 1 ∧
      c.revision = r + (eventsOf xs).length + c.events.length := by
  obtain ⟨xs, ys, rfl⟩ := List.append_of_mem hc
  obtain ⟨-, hne, hs, hr, -⟩ := append_iff.1 h
  exact ⟨xs, ys, rfl, hne, hs, hr⟩

/-- The last commit has the number of all commits and of all events. -/
theorem getLast (h : Continues s r cs) (hc : cs.getLast? = some c) :
    c.events ≠ [] ∧ c.sequence = s + cs.length ∧ c.revision = r + (eventsOf cs).length := by
  obtain ⟨xs, rfl⟩ := List.getLast?_eq_some_iff.1 hc
  obtain ⟨-, hne, hs, hr, -⟩ := append_iff.1 h
  refine ⟨hne, ?_, ?_⟩
  · simp [hs]; omega
  · simp [hr]; omega

theorem revision_le (h : Continues s r cs) (hc : c ∈ cs) :
    r < c.revision ∧ c.revision ≤ r + (eventsOf cs).length := by
  obtain ⟨xs, ys, rfl, hne, -, hr⟩ := h.of_mem hc
  have := List.length_pos_iff.2 hne
  simp only [eventsOf_append, eventsOf_cons, List.length_append]
  omega

theorem sequence_le (h : Continues s r cs) (hc : c ∈ cs) :
    s < c.sequence ∧ c.sequence ≤ s + cs.length := by
  obtain ⟨xs, ys, rfl, -, hs, -⟩ := h.of_mem hc
  simp only [List.length_append, List.length_cons]
  omega

/-- Every commit has an event, so there are no more commits than events. -/
theorem length_le (h : Continues s r cs) : cs.length ≤ (eventsOf cs).length := by
  induction cs generalizing s r with
  | nil => simp
  | cons c cs ih =>
    have := List.length_pos_iff.2 h.1
    have := ih h.2.2.2
    simp only [List.length_cons, eventsOf_cons, List.length_append]
    omega

/-- Of two commits of a history the later one starts at or after the end of the earlier one, and has
the greater sequence. -/
theorem pairwise (h : Continues s r cs) : cs.Pairwise fun c d =>
    c.sequence < d.sequence ∧ c.revision + d.events.length ≤ d.revision ∧ d.events ≠ [] := by
  induction cs generalizing s r with
  | nil => exact .nil
  | cons c cs ih =>
    refine List.pairwise_cons.2 ⟨fun d hd => ?_, ih h.2.2.2⟩
    obtain ⟨xs, ys, rfl, hne, hs, hr⟩ := h.2.2.2.of_mem hd
    exact ⟨by omega, by omega, hne⟩

theorem pairwise_revision (h : Continues s r cs) :
    cs.Pairwise fun c d => c.revision < d.revision :=
  h.pairwise.imp fun ⟨_, hr, hne⟩ => by
    have := List.length_pos_iff.2 hne
    omega

/-- The first revision of a commit in a history of so many revisions. -/
theorem firstRevision_add (h : Continues s r cs) (hc : c ∈ cs)
    (hm : r + (eventsOf cs).length ≤ maxRevision) :
    c.firstRevision + c.events.length = c.revision + 1 ∧ r < c.firstRevision := by
  have hle := (h.revision_le hc).2
  obtain ⟨xs, ys, rfl, hne, -, hr⟩ := h.of_mem hc
  have := Commit.firstRevision_eq hne hr (by omega)
  omega

theorem sequences_eq (h : Continues s r cs) :
    cs.map (·.sequence) = List.range' (s + 1) cs.length := by
  induction cs generalizing s r with
  | nil => rfl
  | cons c cs ih =>
    obtain ⟨-, hs, -, hcs⟩ := h
    rw [List.map_cons, ih hcs, hs, List.length_cons, List.range'_succ]

/-- A history within the range of revisions is gapless. -/
theorem gapless (h : Continues 0 0 cs) (hid : (cs.map (·.id)).Nodup)
    (hm : ∀ c ∈ cs, c.revision ≤ maxRevision) : Gapless cs where
  sequences := h.sequences_eq
  events_ne_nil c hc := (h.of_mem hc).choose_spec.choose_spec.2.1
  ids := hid
  start c hc := by
    cases cs with
    | nil => simp at hc
    | cons d cs =>
      obtain rfl : d = c := by simpa using hc
      exact Commit.firstRevision_eq h.1 h.2.2.1 (hm d (List.mem_cons_self ..))
  step := by
    suffices hstep : ∀ s r, Continues s r cs →
        cs.IsChain fun c d => d.firstRevision = c.revision + 1 from hstep 0 0 h
    clear h hid
    intro s r h
    induction cs generalizing s r with
    | nil => exact .nil
    | cons c cs ih =>
      have htail := ih (fun d hd => hm d (List.mem_cons_of_mem _ hd)) _ _ h.2.2.2
      cases cs with
      | nil => exact .singleton c
      | cons d cs =>
        have hd := h.2.2.2
        exact .cons_cons (Commit.firstRevision_eq hd.1 hd.2.2.1 (hm d (by simp))) htail

/-- The commits with events from one revision to another stand together in a history. -/
theorem exists_between (h : Continues s r cs) (hm : r + (eventsOf cs).length ≤ maxRevision)
    (first last : Nat) : ∃ pre post,
      cs = pre ++ cs.filter (fun c => first ≤ c.revision && c.firstRevision ≤ last) ++ post ∧
      (∀ c ∈ pre, c.revision < first) ∧ ∀ c ∈ post, last < c.firstRevision := by
  obtain ⟨pre, hpre, hlt⟩ := exists_eq_append_filter (p := fun c => decide (first ≤ c.revision))
    (h.pairwise_revision.imp fun hlt hp => by simp only [decide_eq_true_eq] at hp ⊢; omega)
  have hmono : cs.Pairwise fun c d => c.firstRevision ≤ d.firstRevision :=
    h.pairwise.imp_of_mem fun hc hd hcd => by
      have := h.firstRevision_add hc hm
      have := h.firstRevision_add hd hm
      have := List.length_pos_iff.2 (h.of_mem hc).choose_spec.choose_spec.2.1
      omega
  obtain ⟨post, hpost, hgt⟩ := exists_eq_filter_append
    (p := fun c => decide (c.firstRevision ≤ last))
    ((hmono.filter fun c => decide (first ≤ c.revision)).imp fun hle hp => by
      simp only [decide_eq_true_eq] at hp ⊢; omega)
  refine ⟨pre, post, ?_, fun c hc => by simpa using hlt c hc, fun c hc => by simpa using hgt c hc⟩
  rw [List.filter_filter] at hpost
  simp only [Bool.and_comm] at hpost
  rw [List.append_assoc, ← hpost]
  exact hpre

end Continues

/-- The events with revisions from `first` to `last`, when `before` events come before them. -/
def window (before first last : Nat) (es : List Event) : List Event :=
  (es.take (last - before)).drop (first - 1 - before)

@[simp] theorem window_nil (before first last : Nat) : window before first last [] = [] := by
  simp [window]

theorem window_append (before first last : Nat) (xs ys : List Event) :
    window before first last (xs ++ ys)
      = window before first last xs ++ window (before + xs.length) first last ys := by
  unfold window
  rw [List.take_append, List.drop_append, List.length_take]
  congr 1
  rcases Nat.le_total xs.length (last - before) with h | h
  · rw [Nat.min_eq_right h]
    congr 1 <;> [skip; congr 1] <;> omega
  · rw [show last - before - xs.length = 0 by omega,
      show last - (before + xs.length) = 0 by omega]
    simp

theorem length_window (before first last : Nat) (es : List Event) :
    (window before first last es).length
      = min (last - before) es.length - (first - 1 - before) := by
  simp [window]

/-- All events have revisions below the range. -/
theorem window_eq_nil_of_lt {before first last : Nat} {es : List Event}
    (h : before + es.length < first) : window before first last es = [] := by
  rw [← List.length_eq_zero_iff, length_window]; omega

/-- All events have revisions above the range. -/
theorem window_eq_nil_of_le {before first last : Nat} {es : List Event} (h : last ≤ before) :
    window before first last es = [] := by
  rw [← List.length_eq_zero_iff, length_window]; omega

/-- All events have revisions of the range. -/
theorem window_eq_self {before first last : Nat} {es : List Event} (hf : first ≤ before + 1)
    (hl : before + es.length ≤ last) : window before first last es = es := by
  rw [window, List.take_of_length_le (by omega), show first - 1 - before = 0 by omega,
    List.drop_zero]

/-- A stream's events of a range are among those of the commits that have events of the range. -/
theorem Continues.window_between {s r : Nat} {cs : List Commit} (h : Continues s r cs)
    (hm : r + (eventsOf cs).length ≤ maxRevision) (first last : Nat) : ∃ pre post,
      cs = pre ++ cs.filter (fun c => first ≤ c.revision && c.firstRevision ≤ last) ++ post ∧
      Continues (s + pre.length) (r + (eventsOf pre).length)
        (cs.filter fun c => first ≤ c.revision && c.firstRevision ≤ last) ∧
      (∀ from', first ≤ from' → window r from' last (eventsOf cs)
        = window (r + (eventsOf pre).length) from' last
          (eventsOf (cs.filter fun c => first ≤ c.revision && c.firstRevision ≤ last))) ∧
      (∀ c ∈ pre, c.revision < first) ∧ ∀ c ∈ post, last < c.firstRevision := by
  obtain ⟨pre, post, hcs, hpre, hpost⟩ := h.exists_between hm first last
  generalize cs.filter (fun c => first ≤ c.revision && c.firstRevision ≤ last) = mid at hcs ⊢
  subst hcs
  obtain ⟨⟨hpreC, hmid⟩, hpostC⟩ := append_iff.1 h |>.imp_left append_iff.1
  refine ⟨pre, post, rfl, hmid, fun from' hfrom => ?_, hpre, hpost⟩
  have hpre_nil : window r from' last (eventsOf pre) = [] := by
    cases hl : pre.getLast? with
    | none => simp [List.getLast?_eq_none_iff.1 hl]
    | some c =>
      have := hpre c (List.mem_of_getLast? hl)
      rw [(hpreC.getLast hl).2.2] at this
      exact window_eq_nil_of_lt (this.trans_le hfrom)
  have hpost_nil : window (r + (eventsOf (pre ++ mid)).length) from' last (eventsOf post) = [] := by
    cases post with
    | nil => simp
    | cons d post =>
      have hd := hpost d (List.mem_cons_self ..)
      simp only [eventsOf_append, eventsOf_cons, List.length_append] at hm
      have := Commit.firstRevision_eq hpostC.1 hpostC.2.2.1 (by
        rw [hpostC.2.2.1, eventsOf_append, List.length_append]; omega)
      exact window_eq_nil_of_le (by omega)
  rw [eventsOf_append, window_append, eventsOf_append, window_append, hpre_nil, ← eventsOf_append,
    hpost_nil, List.nil_append, List.append_nil]

end EventSourcing
