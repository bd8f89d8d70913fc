import EventSourcing.Hook
import EventSourcing.Proofs.Handle

/-!
# What a store behind hooks answers

A commit on its way to a reader passes through all hooks, and comes out changed, hidden or as a
fault: `Hook.selected` is what comes out, whatever the positions that the hooks report. From it are
read off the items of every read (`Hook.store_read`) and, where no hook vetoes, the answer to every
attempt (`Hook.store_commit`). The store itself is not changed by any of this: it is in the state in
which it would be without hooks.

A store behind hooks that only upconvert answers with commits of the same ids, sequences, revisions
and headers as the store itself (`Upconverter.current`), so that a handle on it takes over the same
events at the same places.
-/

namespace EventSourcing

namespace Hook

variable {σ : Type} {hooks : List Hook} {c d : Commit}

/-- What a reader behind the hooks sees of a commit, nothing if it is hidden. -/
def selected : List Hook → Commit → Except Fault (Option Commit)
  | [], c => .ok (some c)
  | h :: hooks, c =>
    match h.select c with
    | .error e => .error e
    | .ok none => .ok none
    | .ok (some d) => selected hooks d

/-- What is seen does not depend on the positions of the hooks. -/
@[simp] theorem selectAll_fst (i : Nat) (c : Commit) (hooks : List Hook) :
    (selectAll i c hooks).1 = selected hooks c := by
  induction hooks generalizing i c with
  | nil => rfl
  | cons h hooks ih =>
    rw [selectAll, selected]
    cases h.select c with
    | error e => rfl
    | ok shown =>
      cases shown with
      | none => rfl
      | some d => exact ih (i + 1) d

/-- Attempts pass through hooks that let everything pass. -/
theorem allowAll_fst (hallows : ∀ h ∈ hooks, ∀ a, h.allows a = true) (i : Nat) (a : Attempt) :
    (allowAll i a hooks).1 = true := by
  induction hooks generalizing i with
  | nil => rfl
  | cons h hooks ih =>
    obtain ⟨hh, hrest⟩ := List.forall_mem_cons.1 hallows
    rw [allowAll, if_pos (hh a)]
    exact ih hrest (i + 1)

/-- What a reader behind the hooks sees of an item. -/
def shownItem (hooks : List Hook) : Item → Option Item
  | .error e => some (.error e)
  | .ok c =>
    match selected hooks c with
    | .error e => some (.error e)
    | .ok shown => shown.map .ok

/-- What a committer behind the hooks sees of an answer. -/
def shownAnswer (hooks : List Hook) : Except Fault (Option Commit) → Except Fault (Option Commit)
  | .error (.duplicate existing) =>
    match selected hooks existing with
    | .error e => .error e
    | .ok shown => shown.elim (.ok none) fun c => .error (.duplicate c)
  | answer => answer

theorem items_filterPulls (closing before : List Notice) (pulls : List Pull) :
    (filterPulls hooks closing before pulls).items
      = (pulls.map (·.item)).filterMap (shownItem hooks) := by
  induction pulls generalizing before with
  | nil => rfl
  | cons p pulls ih =>
    obtain ⟨notices, item⟩ := p
    cases item with
    | error e => exact congrArg (Except.error e :: ·) (ih [])
    | ok c =>
      have hfst := selectAll_fst 0 c hooks
      simp only [filterPulls, List.map_cons, List.filterMap_cons, shownItem, ← hfst]
      obtain ⟨e | _ | d, ns⟩ := selectAll 0 c hooks
      · exact congrArg (Except.error e :: ·) (ih [])
      · exact ih _
      · exact congrArg (Except.ok d :: ·) (ih [])

theorem items_filterFeed (hooks : List Hook) (f : Feed) :
    (filterFeed hooks f).items = f.items.filterMap (shownItem hooks) :=
  items_filterPulls _ _ _

theorem filterCommit_fst (hooks : List Hook) (answer : Except Fault (Option Commit)) :
    (filterCommit hooks answer).1 = shownAnswer hooks answer := by
  cases answer with
  | ok c => cases c <;> rfl
  | error e =>
    cases e with
    | duplicate existing =>
      have hfst := selectAll_fst 0 existing hooks
      rw [filterCommit, shownAnswer, ← hfst]
      generalize selectAll 0 existing hooks = selection
      obtain ⟨_ | _ | d, ns⟩ := selection <;> rfl
    | _ => rfl

/-- A read behind hooks yields what they let pass of what the store yields. -/
theorem store_read (hooks : List Hook) (inner : Engine σ) (q : Query) (s : σ) :
    Feed.items (store hooks inner (.read q) s).1.reply
        = (Feed.items (inner (.read q) s).1.reply).filterMap (shownItem hooks) ∧
      (store hooks inner (.read q) s).2 = (inner (.read q) s).2 := by
  cases hooks with
  | nil =>
    have hid : shownItem [] = some := funext fun i => by cases i <;> rfl
    rw [hid, List.filterMap_some]
    exact ⟨rfl, rfl⟩
  | cons h hooks => exact ⟨items_filterFeed _ _, rfl⟩

/-- An attempt behind hooks of which none vetoes comes to what it comes to on the store. -/
theorem store_commit (hallows : ∀ h ∈ hooks, ∀ a, h.allows a = true) (inner : Engine σ)
    (a : Attempt) (s : σ) :
    (store hooks inner (.commit a) s).1.reply = shownAnswer hooks (inner (.commit a) s).1.reply ∧
      (store hooks inner (.commit a) s).2 = (inner (.commit a) s).2 := by
  cases hooks with
  | nil =>
    have hid (answer : Except Fault (Option Commit)) : shownAnswer [] answer = answer := by
      cases answer with
      | ok c => rfl
      | error e => cases e <;> rfl
    exact ⟨(hid _).symm, rfl⟩
  | cons h hooks =>
    obtain ⟨asked, hallowed⟩ : ∃ asked, allowAll 0 a (h :: hooks) = (true, asked) :=
      ⟨_, Prod.ext (allowAll_fst hallows 0 a) rfl⟩
    simp only [store, List.isEmpty_cons, Bool.false_eq_true, if_false, engine, hallowed, if_true]
    exact ⟨filterCommit_fst _ _, trivial⟩

/-- Hooks of which none vetoes leave a store in the state in which it is without them. -/
theorem store_state (hallows : ∀ h ∈ hooks, ∀ a, h.allows a = true) (inner : Engine σ)
    (op : Operation) (s : σ) : (store hooks inner op s).2 = (inner op s).2 := by
  cases op with
  | commit a => exact (store_commit hallows inner a s).2
  | _ => cases hooks <;> rfl

end Hook

/-- The one commit stands where the other one does in its stream. -/
structure Commit.SamePlace (d c : Commit) : Prop where
  id : d.id = c.id
  sequence : d.sequence = c.sequence
  revision : d.revision = c.revision
  length : d.events.length = c.events.length

namespace Commit.SamePlace

variable {b c d : Commit}

theorem refl (c : Commit) : c.SamePlace c := ⟨rfl, rfl, rfl, rfl⟩

theorem trans (hdc : d.SamePlace c) (hcb : c.SamePlace b) : d.SamePlace b :=
  ⟨hdc.id.trans hcb.id, hdc.sequence.trans hcb.sequence, hdc.revision.trans hcb.revision,
    hdc.length.trans hcb.length⟩

theorem firstRevision (h : d.SamePlace c) : d.firstRevision = c.firstRevision := by
  rw [Commit.firstRevision, Commit.firstRevision, h.revision, h.length]

end Commit.SamePlace

namespace Hook

/-- A hook that neither vetoes nor fails. It may hide commits and change what they tell, but not
where they stand. -/
structure Lenient (h : Hook) : Prop where
  allows : ∀ a, h.allows a = true
  select : ∀ c, h.select c = .ok none ∨ ∃ d, h.select c = .ok (some d) ∧ d.SamePlace c

theorem lenient_hide (stream : String) : (hide stream).Lenient where
  allows _ := rfl
  select c := by
    by_cases h : c.stream.stream = stream
    · exact .inl (by simp [hide, h])
    · exact .inr ⟨c, by simp [hide, h], .refl c⟩

/-- What hooks that do not fail show of a commit. -/
def view (hooks : List Hook) (c : Commit) : Option Commit :=
  match selected hooks c with
  | .ok shown => shown
  | .error _ => none

section Lenient

variable {hooks : List Hook} (hl : ∀ h ∈ hooks, h.Lenient)
include hl

theorem selected_cases (c : Commit) : selected hooks c = .ok none ∨
    ∃ d, selected hooks c = .ok (some d) ∧ d.SamePlace c := by
  induction hooks generalizing c with
  | nil => exact .inr ⟨c, rfl, .refl c⟩
  | cons h hooks ih =>
    obtain ⟨hh, hrest⟩ := List.forall_mem_cons.1 hl
    rw [selected]
    obtain heq | ⟨d, heq, hplace⟩ := hh.select c
    · exact .inl (by rw [heq])
    · rw [heq]
      obtain hnone | ⟨e, he, hplace'⟩ := ih hrest d
      · exact .inl hnone
      · exact .inr ⟨e, he, hplace'.trans hplace⟩

theorem selected_eq (c : Commit) : selected hooks c = .ok (view hooks c) := by
  obtain heq | ⟨d, heq, -⟩ := selected_cases hl c <;> rw [view, heq]

theorem samePlace_of_view {c d : Commit} (h : view hooks c = some d) : d.SamePlace c := by
  obtain heq | ⟨e, heq, hplace⟩ := selected_cases hl c <;> rw [view, heq] at h
  · cases h
  · cases h
    exact hplace

/-- A read behind lenient hooks yields what they show of the commits that are read. -/
theorem read_eq {m : Memory} (hm : m.readsDisabled = false) (q : Query) :
    Feed.items (store hooks Memory.engine (.read q) m).1.reply
      = ((m.ledger.read q).filterMap (view hooks)).map .ok := by
  have hread : Feed.items (Memory.engine (.read q) m).1.reply = m.read q := Feed.items_ofItems _
  have hitem (c : Commit) : shownItem hooks (.ok c) = (view hooks c).map .ok := by
    rw [shownItem, selected_eq hl]
  rw [(store_read hooks Memory.engine q m).1, hread, Memory.read_eq hm, List.filterMap_map,
    List.map_filterMap]
  exact List.filterMap_congr fun c _ => hitem c

/-- An attempt behind lenient hooks comes to what it comes to on the store; of a duplicate the
answer tells as much as is shown of it. -/
theorem commit_eq (a : Attempt) (m : Memory) :
    (store hooks Memory.engine (.commit a) m).1.reply = (match (Memory.commit a m).1 with
      | .error (.duplicate existing) =>
        (view hooks existing).elim (.ok none) fun c => .error (.duplicate c)
      | answer => answer) ∧
      (store hooks Memory.engine (.commit a) m).2 = (Memory.commit a m).2 := by
  obtain ⟨hreply, hstate⟩ := store_commit (fun h hh => (hl h hh).allows) Memory.engine a m
  refine ⟨hreply.trans ?_, hstate⟩
  show shownAnswer hooks (Memory.commit a m).1 = _
  cases (Memory.commit a m).1 with
  | ok c => rfl
  | error e =>
    cases e with
    | duplicate existing =>
      rw [shownAnswer, selected_eq hl]
      rfl
    | _ => rfl

end Lenient
end Hook
end EventSourcing
