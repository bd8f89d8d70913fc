import EventSourcing.Proofs.Notification
import EventSourcing.Proofs.Replies

/-!
# Hooks behind hooks

A store behind hooks is a store, and can be put behind further hooks. Attempts meet the outer hooks
first, while commits that are read and commits that were stored come to the inner ones first. It all
comes to the same as one list with the inner hooks in front: the answers to every run, the state of
the store, and the calls after commits, in which the outer hooks only have other positions
(`Hook.stacked_eq_concatenated`).

What makes it so is that showing is a composition, of commits (`Hook.selected_append`), of items
that are read (`Hook.shownItem_append`) and of answers (`Hook.shownAnswer_append`). For answers the
inner hooks must not fail with a fault that tells of a duplicate, since the outer ones take such a
fault for an answer of the store.
-/

namespace EventSourcing

namespace Engine

variable {σ : Type}

/-- The state in which a run leaves a store. -/
def leaves (engine : Engine σ) (s : σ) (ops : List Operation) : σ :=
  ops.foldl (fun s op => (engine op s).2) s

@[simp] theorem leaves_cons (engine : Engine σ) (s : σ) (op : Operation) (ops : List Operation) :
    engine.leaves s (op :: ops) = engine.leaves (engine op s).2 ops := rfl

end Engine

namespace Hook

variable {σ : Type} {A B : List Hook}

/-- A commit that comes through the first hooks goes on to the rest. -/
theorem selected_append (A B : List Hook) (c : Commit) : selected (A ++ B) c
    = match selected A c with
      | .ok (some d) => selected B d
      | shown => shown := by
  induction A generalizing c with
  | nil => rfl
  | cons h A ih =>
    rw [List.cons_append, selected, selected]
    cases h.select c with
    | error e => rfl
    | ok shown =>
      cases shown with
      | none => rfl
      | some d => exact ih d

theorem shownItem_append (A B : List Hook) (i : Item) :
    shownItem (A ++ B) i = (shownItem A i).bind (shownItem B) := by
  cases i with
  | error e => rfl
  | ok c =>
    rw [shownItem, shownItem, selected_append]
    generalize selected A c = shown
    obtain e | _ | d := shown <;> rfl

/-- Hooks that cannot each fail with a duplicate cannot together. -/
theorem selected_ne_duplicate (hA : ∀ h ∈ A, ∀ c d, h.select c ≠ .error (.duplicate d))
    (c d : Commit) : selected A c ≠ .error (.duplicate d) := by
  induction A generalizing c with
  | nil => exact fun hc => by cases hc
  | cons h A ih =>
    obtain ⟨hh, hrest⟩ := List.forall_mem_cons.1 hA
    rw [selected]
    have hc := hh c d
    generalize h.select c = shown at hc
    obtain e | _ | c' := shown
    · exact hc
    · exact hc
    · exact ih hrest c'

theorem shownAnswer_append (hA : ∀ h ∈ A, ∀ c d, h.select c ≠ .error (.duplicate d)) (B : List Hook)
    (answer : Except Fault (Option Commit)) :
    shownAnswer B (shownAnswer A answer) = shownAnswer (A ++ B) answer := by
  cases answer with
  | ok stored => rfl
  | error e =>
    cases e with
    | duplicate existing =>
      have hfault := selected_ne_duplicate hA existing
      rw [shownAnswer, shownAnswer, selected_append]
      generalize selected A existing = shown at hfault
      obtain e | _ | d := shown
      · cases e with
        | duplicate d => exact absurd rfl (hfault d)
        | _ => rfl
      · rfl
      · rfl
    | _ => rfl

theorem passes_append (A B : List Hook) (op : Operation) :
    passes (A ++ B) op = (passes A op && passes B op) := by
  cases op with
  | commit a => exact List.all_append
  | _ => rfl

/-- The calls that hooks receive which have so many hooks before them in a list. -/
def placedAfter (count : Nat) (calls : List (Nat × Commit)) : List (Nat × Commit) :=
  calls.map fun e => (count + e.1, e.2)

theorem toldOf_add (m n : Nat) (c : Commit) :
    toldOf (m + n) [c] = toldOf m [c] ++ placedAfter m (toldOf n [c]) := by
  simp [toldOf, placedAfter, List.range_add]

/-- What a client behind hooks is told of an answer. -/
def shownReply (hooks : List Hook) : PlainReply → PlainReply
  | .commit answer => .commit (shownAnswer hooks answer)
  | .read items => .read (items.filterMap (shownItem hooks))
  | r => r

theorem plain_engine (hooks : List Hook) (inner : Engine σ) (op : Operation) (s : σ) :
    op.plain (engine hooks inner op s).1.reply
      = if passes hooks op then shownReply hooks (op.plain (inner op s).1.reply)
        else .commit (.ok none) := by
  cases op with
  | commit a =>
    rw [engine_commit]
    split
    · exact congrArg PlainReply.commit (filterCommit_fst hooks _)
    · rfl
  | read q => exact congrArg PlainReply.read (items_filterFeed hooks _)
  | _ => rfl

/-- What the inner hooks show, the outer ones show further. -/
theorem shownReply_append (hA : ∀ h ∈ A, ∀ c d, h.select c ≠ .error (.duplicate d)) (B : List Hook)
    (r : PlainReply) : shownReply B (shownReply A r) = shownReply (A ++ B) r := by
  cases r with
  | commit answer => exact congrArg PlainReply.commit (shownAnswer_append hA B answer)
  | read items =>
    rw [shownReply, shownReply, shownReply, List.filterMap_filterMap]
    congr 1
    exact List.filterMap_congr fun i _ => (shownItem_append A B i).symm
  | _ => rfl

section

variable (hA : ∀ h ∈ A, ∀ c d, h.select c ≠ .error (.duplicate d)) (B : List Hook)
  (inner : Engine σ) (op : Operation) (s : σ)

/-- Hooks behind hooks leave the store as all of them in one list do. -/
theorem engine_engine_snd (A : List Hook) :
    (engine B (engine A inner) op s).2 = (engine (A ++ B) inner op s).2 := by
  rw [engine_snd, engine_snd, engine_snd, passes_append]
  cases passes A op <;> cases passes B op <;> rfl

theorem accepted_engine_engine (A : List Hook) :
    op.accepted (engine B (engine A inner) op s).1.reply
      = op.accepted (engine (A ++ B) inner op s).1.reply := by
  rw [accepted_engine, accepted_engine, accepted_engine, passes_append]
  cases passes A op <;> cases passes B op <;> rfl

include hA in
/-- Hooks behind hooks answer as all of them in one list do. -/
theorem plain_engine_engine : op.plain (engine B (engine A inner) op s).1.reply
    = op.plain (engine (A ++ B) inner op s).1.reply := by
  rw [plain_engine, plain_engine, plain_engine, passes_append]
  cases hpass : passes A op with
  | false =>
    cases op with
    | commit a => cases passes B (.commit a) <;> rfl
    | _ => cases hpass
  | true =>
    cases passes B op with
    | false => rfl
    | true => exact shownReply_append hA B _

/-- After a commit the inner hooks are told first, then the outer ones, and before both whatever is
told below. -/
theorem posted_engine_engine (A : List Hook) :
    let below := if passes (A ++ B) op then posted (inner op s).1.allNotices else []
    let cs := op.accepted (engine (A ++ B) inner op s).1.reply
    posted (engine B (engine A inner) op s).1.allNotices
        = below ++ toldOf A.length cs ++ toldOf B.length cs ∧
      posted (engine (A ++ B) inner op s).1.allNotices
        = below ++ toldOf A.length cs ++ placedAfter A.length (toldOf B.length cs) := by
  intro below cs
  constructor
  · rw [posted_engine, accepted_engine_engine]
    congr 1
    rw [posted_engine, accepted_engine]
    simp only [below, cs, accepted_engine, passes_append]
    cases passes A op <;> cases passes B op <;> rfl
  · rw [posted_engine, List.length_append, List.append_assoc]
    congr 1
    obtain hnone | ⟨c, hc⟩ : cs = [] ∨ ∃ c, cs = [c] := op.accepted_cases _
    · show toldOf _ cs = _
      rw [hnone]
      rfl
    · show toldOf _ cs = _
      rw [hc]
      exact toldOf_add A.length B.length c

end

/-- **Hooks behind hooks are one list of hooks**, if the inner ones do not fail with a duplicate. On
every store and for every run the answers are the same, items of reads and faults among them, and so
is the state that is left. There each further operation makes the same calls after commits in the
same order, but that the outer hooks count their positions from the first of them. -/
theorem stacked_eq_concatenated (hA : ∀ h ∈ A, ∀ c d, h.select c ≠ .error (.duplicate d))
    (B : List Hook) (inner : Engine σ) (s : σ) (ops : List Operation) :
    let stacked := engine B (engine A inner)
    let listed := engine (A ++ B) inner
    stacked.replies s ops = listed.replies s ops ∧ stacked.leaves s ops = listed.leaves s ops ∧
      ∀ op : Operation,
        let left := listed.leaves s ops
        let below := if passes (A ++ B) op then posted (inner op left).1.allNotices else []
        let cs := op.accepted (listed op left).1.reply
        posted (stacked op left).1.allNotices
            = below ++ toldOf A.length cs ++ toldOf B.length cs ∧
          posted (listed op left).1.allNotices
            = below ++ toldOf A.length cs ++ placedAfter A.length (toldOf B.length cs) := by
  intro stacked listed
  refine ⟨?_, ?_, fun op => posted_engine_engine B inner op _ A⟩
  · induction ops generalizing s with
    | nil => rfl
    | cons op ops ih =>
      rw [Engine.replies_cons, Engine.replies_cons, plain_engine_engine hA, engine_engine_snd, ih]
  · induction ops generalizing s with
    | nil => rfl
    | cons op ops ih =>
      rw [Engine.leaves_cons, Engine.leaves_cons, engine_engine_snd, ih]

/-- An inner hook that fails with a duplicate would be taken at its word by an outer one that hides
the stream. -/
example :
    let A := [{ select := fun c => .error (.duplicate c) : Hook }]
    let B := [hide "a"]
    let run := [.commit (Memory.sampleAttempt "a" 1 1 1 1),
      .commit (Memory.sampleAttempt "a" 1 1 1 1)]
    ((engine B (engine A Memory.engine)).replies Memory.empty run).map
        (fun r => r.commits.map (·.checkpoint)) = [[1], []] ∧
      ((engine (A ++ B) Memory.engine).replies Memory.empty run).map
        (fun r => r.commits.map (·.checkpoint)) = [[1], [1]] := by
  decide +kernel

/-- Three streams are written, each attempt is repeated, and all is read. -/
def writtenTwice : List Operation :=
  [.commit (Memory.sampleAttempt "a" 1 1 1 1), .commit (Memory.sampleAttempt "b" 1 1 1 2),
    .commit (Memory.sampleAttempt "c" 1 1 1 3), .commit (Memory.sampleAttempt "a" 1 1 1 1),
    .commit (Memory.sampleAttempt "b" 1 1 1 2), .commit (Memory.sampleAttempt "c" 1 1 1 3),
    .read (.after "tenant" 0)]

/-- The inner hook marks commits. Of the outer ones the first fails on one stream and the second
hides another one, so that the repeated attempts are answered in three ways. One more commit is told
to the first of the outer hooks at its position among these or among all. -/
theorem stacked_eq_concatenated_writtenTwice :
    let A := [tag "seen" .null]
    let B := [failing "b" "no reader", hide "a"]
    let stacked := engine B (engine A Memory.engine)
    let listed := engine (A ++ B) Memory.engine
    let left := listed.leaves Memory.empty writtenTwice
    let next := Operation.commit (Memory.sampleAttempt "c" 2 2 1 4)
    (∀ h ∈ A, ∀ c d, h.select c ≠ .error (.duplicate d)) ∧
      stacked.replies Memory.empty writtenTwice = listed.replies Memory.empty writtenTwice ∧
      (listed.replies Memory.empty writtenTwice).map
          (fun r => r.commits.map fun c => (c.checkpoint, c.headers.length))
        = [[(1, 0)], [(2, 0)], [(3, 0)], [], [], [(3, 1)], [(3, 1)]] ∧
      (posted (stacked next left).1.allNotices).map (fun e => (e.1, e.2.checkpoint))
        = [(0, 4), (0, 4), (1, 4)] ∧
      (posted (listed next left).1.allNotices).map (fun e => (e.1, e.2.checkpoint))
        = [(0, 4), (1, 4), (2, 4)] := by
  intro A B stacked listed left next
  have hA : ∀ h ∈ A, ∀ c d, h.select c ≠ .error (.duplicate d) := by
    intro h hh c d hc
    obtain rfl := List.mem_singleton.1 hh
    cases hc
  obtain ⟨hreplies, -⟩ := stacked_eq_concatenated hA B Memory.engine Memory.empty writtenTwice
  exact ⟨hA, hreplies, by decide +kernel, by decide +kernel, by decide +kernel⟩

end Hook
end EventSourcing
