import EventSourcing.Proofs.Hooks
import EventSourcing.Proofs.Memory

/-!
# What hooks are told of commits

Of all the calls that hooks receive, `Hook.posted` keeps those that tell of a stored commit. A store
behind hooks makes them for the commits that the store behind it has accepted and for nothing else,
one call to each hook in the order of the hooks (`Hook.posted_engine`). An attempt that some hook
refuses does not reach the store at all (`Hook.engine_snd`).

On a store in memory these are the commits by which the log grows. A run behind hooks leaves the
store as the run without the refused attempts leaves it, and each hook is told, over the whole run,
exactly the commits that were stored, in the order in which they were stored and as they were stored
(`Occasion.told_once`).
-/

namespace EventSourcing

/-- The stored commit that a call tells of. -/
def HookCall.stored? : HookCall → Option Commit
  | .postCommit c => some c
  | _ => none

/-- The commit that an operation has added to a store, by its answer. -/
def Operation.accepted : (op : Operation) → op.Reply → List Commit
  | .commit _, .ok (some c) => [c]
  | _, _ => []

theorem Feed.notices_cons (p : Pull) (rest : Feed) :
    Feed.notices ⟨p :: rest.pulls, rest.closing⟩ = p.notices ++ rest.notices := by
  rw [Feed.notices, Feed.notices, List.flatMap_cons, List.append_assoc]

theorem Feed.notices_ofItems (items : List Item) : (Feed.ofItems items).notices = [] := by
  simp [Feed.ofItems, Feed.notices]

theorem Operation.accepted_cases (op : Operation) (r : op.Reply) :
    op.accepted r = [] ∨ ∃ c, op.accepted r = [c] := by
  cases op with
  | commit a =>
    obtain e | _ | c := r
    · exact .inl rfl
    · exact .inl rfl
    · exact .inr ⟨c, rfl⟩
  | _ => exact .inl rfl

theorem Operation.accepted_eq_nil (a : Attempt) {answer : Except Fault (Option Commit)}
    (h : ∀ c, answer ≠ .ok (some c)) : (Operation.commit a).accepted answer = [] := by
  match answer with
  | .ok (some c) => exact absurd rfl (h c)
  | .ok none => rfl
  | .error e => rfl

namespace Hook

variable {σ : Type} {hooks : List Hook}

/-- Whether no hook refuses an operation. -/
def passes (hooks : List Hook) : Operation → Bool
  | .commit a => hooks.all (·.allows a)
  | _ => true

/-- The calls that tell of stored commits: the positions of the hooks, and the commits. -/
def posted (notices : List Notice) : List (Nat × Commit) :=
  notices.filterMap fun n => n.call.stored?.map fun c => (n.hook, c)

/-- Of such calls, the commits that the hook at a position is told of. -/
def heard (i : Nat) (calls : List (Nat × Commit)) : List Commit :=
  calls.filterMap fun e => if e.1 = i then some e.2 else none

/-- Each of so many hooks is told of commits. -/
def toldOf (count : Nat) (cs : List Commit) : List (Nat × Commit) :=
  cs.flatMap fun c => (List.range count).map fun i => (i, c)

@[simp] theorem posted_nil : posted [] = [] := rfl

@[simp] theorem posted_append (ns ns' : List Notice) :
    posted (ns ++ ns') = posted ns ++ posted ns' :=
  List.filterMap_append

@[simp] theorem heard_append (i : Nat) (calls calls' : List (Nat × Commit)) :
    heard i (calls ++ calls') = heard i calls ++ heard i calls' :=
  List.filterMap_append

/-- Asking hooks tells of no commit, and an attempt passes if all of them allow it. -/
theorem allowAll_eq (i : Nat) (a : Attempt) (hooks : List Hook) :
    (allowAll i a hooks).1 = hooks.all (·.allows a) ∧ posted (allowAll i a hooks).2 = [] := by
  induction hooks generalizing i with
  | nil => exact ⟨rfl, rfl⟩
  | cons h hooks ih =>
    rw [allowAll, List.all_cons]
    split
    · rename_i hallows
      rw [hallows, Bool.true_and]
      exact ih (i + 1)
    · rename_i hallows
      rw [Bool.not_eq_true] at hallows
      rw [hallows, Bool.false_and]
      exact ⟨rfl, rfl⟩

/-- Showing a commit to a reader tells of no commit. -/
theorem posted_selectAll (i : Nat) (c : Commit) (hooks : List Hook) :
    posted (selectAll i c hooks).2 = [] := by
  induction hooks generalizing i c with
  | nil => rfl
  | cons h hooks ih =>
    rw [selectAll]
    cases h.select c with
    | error e => rfl
    | ok shown =>
      cases shown with
      | none => rfl
      | some d => exact ih (i + 1) d

theorem posted_tellAll (hooks : List Hook) (c : Commit) :
    posted (tellAll hooks (.postCommit c)) = toldOf hooks.length [c] := by
  simp [posted, tellAll, toldOf, HookCall.stored?, List.filterMap_map]

/-- Other calls than those after a commit tell of no commit. -/
theorem posted_tellAll_append (hooks : List Hook) {call : HookCall} (hcall : call.stored? = none)
    (ns : List Notice) : posted (tellAll hooks call ++ ns) = posted ns := by
  simp [posted, tellAll, hcall]

/-- Showing a feed to a reader tells of what was told while it was fetched, and of nothing else. -/
theorem posted_filterPulls (closing before : List Notice) (pulls : List Pull) :
    posted (filterPulls hooks closing before pulls).notices
      = posted before ++ posted (Feed.notices ⟨pulls, closing⟩) := by
  induction pulls generalizing before with
  | nil => simp [filterPulls, Feed.notices]
  | cons p pulls ih =>
    obtain ⟨notices, item⟩ := p
    have hcons := Feed.notices_cons ⟨notices, item⟩ ⟨pulls, closing⟩
    cases item with
    | error e =>
      rw [filterPulls, Feed.notices_cons, hcons]
      simp [ih]
    | ok c =>
      have hsilent := posted_selectAll 0 c hooks
      simp only [filterPulls]
      generalize selectAll 0 c hooks = selection at hsilent
      obtain ⟨e | _ | d, ns⟩ := selection
      · rw [Feed.notices_cons, hcons]
        simp [ih, hsilent]
      · rw [ih, hcons]
        simp [hsilent]
      · rw [Feed.notices_cons, hcons]
        simp [ih, hsilent]

/-- Of the answers to an attempt only an accepted one is told to hooks. -/
theorem posted_filterCommit (hooks : List Hook) (a : Attempt)
    (answer : Except Fault (Option Commit)) : posted (filterCommit hooks answer).2
      = toldOf hooks.length ((Operation.commit a).accepted answer) := by
  cases answer with
  | ok stored =>
    cases stored with
    | none => rfl
    | some c => exact posted_tellAll hooks c
  | error e =>
    cases e with
    | duplicate existing =>
      have hsilent := posted_selectAll 0 existing hooks
      rw [filterCommit]
      generalize selectAll 0 existing hooks = selection at hsilent
      obtain ⟨_ | _ | d, ns⟩ := selection <;> exact hsilent
    | _ => rfl

/-- What an attempt comes to behind hooks. -/
theorem engine_commit (hooks : List Hook) (inner : Engine σ) (a : Attempt) (s : σ) :
    engine hooks inner (.commit a) s =
      if passes hooks (.commit a) then
        (⟨(filterCommit hooks (inner (.commit a) s).1.reply).1,
          (allowAll 0 a hooks).2 ++ (inner (.commit a) s).1.notices
            ++ (filterCommit hooks (inner (.commit a) s).1.reply).2⟩, (inner (.commit a) s).2)
      else (⟨.ok none, (allowAll 0 a hooks).2⟩, s) := by
  rw [passes, ← (allowAll_eq 0 a hooks).1]
  rfl

/-- A store behind hooks goes where the store itself goes, unless a hook refuses. -/
theorem engine_snd (hooks : List Hook) (inner : Engine σ) (op : Operation) (s : σ) :
    (engine hooks inner op s).2 = if passes hooks op then (inner op s).2 else s := by
  cases op with
  | commit a =>
    rw [engine_commit]
    split <;> rfl
  | _ => rfl

/-- Hooks make no accepted attempt of another one, and leave an accepted one as it is. -/
theorem accepted_shownAnswer (hooks : List Hook) (a : Attempt)
    (answer : Except Fault (Option Commit)) :
    (Operation.commit a).accepted (shownAnswer hooks answer)
      = (Operation.commit a).accepted answer := by
  cases answer with
  | ok stored => rfl
  | error e =>
    cases e with
    | duplicate existing =>
      rw [shownAnswer]
      generalize selected hooks existing = shown
      obtain _ | _ | d := shown <;> rfl
    | _ => rfl

theorem accepted_engine (hooks : List Hook) (inner : Engine σ) (op : Operation) (s : σ) :
    op.accepted (engine hooks inner op s).1.reply
      = if passes hooks op then op.accepted (inner op s).1.reply else [] := by
  cases op with
  | commit a =>
    rw [engine_commit]
    split
    · exact (congrArg _ (filterCommit_fst hooks _)).trans (accepted_shownAnswer hooks a _)
    · rfl
  | _ => rfl

/-- **What an operation tells hooks.**  Each is told of the commit that the store has accepted,
after all that was told below. -/
theorem posted_engine (hooks : List Hook) (inner : Engine σ) (op : Operation) (s : σ) :
    posted (engine hooks inner op s).1.allNotices
      = (if passes hooks op then posted (inner op s).1.allNotices else [])
        ++ toldOf hooks.length (op.accepted (engine hooks inner op s).1.reply) := by
  rw [accepted_engine]
  cases op with
  | commit a =>
    have hasked := (allowAll_eq 0 a hooks).2
    rw [engine_commit]
    split
    · show posted (_ ++ _ ++ _) = _
      rw [posted_append, posted_append, hasked, List.nil_append]
      exact congrArg _ (posted_filterCommit hooks a _)
    · exact hasked.trans rfl
  | read q =>
    have hshown (f : Feed) : posted (filterFeed hooks f).notices = posted f.notices :=
      posted_filterPulls f.closing [] f.pulls
    show posted ((inner (.read q) s).1.notices ++ Feed.notices _) = _ ++ []
    rw [posted_append, List.append_nil]
    exact (congrArg _ (hshown _)).trans (posted_append _ _).symm
  | purge _ | purgeAll | deleteStream _ =>
    exact (posted_tellAll_append hooks rfl _).trans (List.append_nil _).symm
  | _ => exact (List.append_nil _).symm

/-- Each hook hears of every commit that all hooks are told of. -/
theorem heard_toldOf {i count : Nat} (hi : i < count) (cs : List Commit) :
    heard i (toldOf count cs) = cs := by
  have hone (c : Commit) :
      heard i ((List.range count).map fun j => (j, c)) = if i < count then [c] else [] := by
    clear hi
    induction count with
    | zero => rfl
    | succ count ih =>
      rw [List.range_succ, List.map_append, heard_append, ih]
      rcases Nat.lt_trichotomy i count with hlt | rfl | hgt
      · simp [heard, hlt, Nat.lt_succ_of_lt hlt, Nat.ne_of_gt hlt]
      · simp [heard]
      · simp [heard, Nat.not_lt_of_gt hgt, Nat.ne_of_lt hgt, Nat.not_lt.2 hgt]
  induction cs with
  | nil => rfl
  | cons c cs ih =>
    rw [toldOf, List.flatMap_cons, heard_append, hone, if_pos hi]
    exact congrArg (c :: ·) ih

/-- Hooks whose judgements of attempts are given, and what each of them shows of commits. -/
def chain (gates : List (Attempt → Bool)) (shows : Nat → Commit → Except Fault (Option Commit)) :
    List Hook :=
  gates.mapIdx fun i allows => { allows := allows, select := shows i }

variable (gates : List (Attempt → Bool)) (shows : Nat → Commit → Except Fault (Option Commit))

@[simp] theorem length_chain : (chain gates shows).length = gates.length :=
  List.length_mapIdx

/-- Whether an attempt passes does not depend on what the hooks show. -/
theorem passes_chain (a : Attempt) :
    passes (chain gates shows) (.commit a) = gates.all fun allows => allows a := by
  have hgates : (chain gates shows).map (·.allows) = gates :=
    List.ext_getElem (by simp) fun i _ _ => by simp [chain]
  conv => rhs; rw [← hgates, List.all_map]
  rfl

end Hook

/-- A snapshot is no commit. -/
theorem Ledger.log_addSnapshot (l : Ledger) (t : Snapshot) : (l.addSnapshot t).2.log = l.log := by
  unfold Ledger.addSnapshot
  split
  · rfl
  dsimp only
  split
  · rfl
  split <;> rfl

namespace Memory

/-- The commits in the log of a later store that are not in the log of an earlier one, if nothing
was removed in between. -/
def grownFrom (m later : Memory) : List Commit := later.ledger.log.drop m.ledger.log.length

/-- An attempt is stored at the end of the log and answered with what is stored there, or it changes
nothing and is answered with no stored commit. -/
theorem commit_stores (a : Attempt) (m : Memory) :
    (∃ c, Memory.commit a m = (.ok (some c), { m with ledger := m.ledger.append c })) ∨
      (Memory.commit a m).2 = m ∧ ∀ c, (Memory.commit a m).1 ≠ .ok (some c) := by
  unfold Memory.commit
  split
  · exact .inr ⟨rfl, fun _ hc => by cases hc⟩
  split
  · exact .inr ⟨rfl, fun _ hc => by cases hc⟩
  dsimp only
  rw [Ledger.commit]
  split
  · exact .inr ⟨rfl, fun _ hc => by cases hc⟩
  dsimp only
  split
  · exact .inr ⟨rfl, fun _ hc => by cases hc⟩
  · exact .inl ⟨_, rfl⟩

/-- **The log grows by the commit that is answered**, and by nothing else. -/
theorem grownFrom_engine (op : Operation) (m : Memory) :
    m.grownFrom (engine op m).2 = op.accepted (engine op m).1.reply := by
  cases op with
  | commit a =>
    show m.grownFrom (Memory.commit a m).2 = (Operation.commit a).accepted (Memory.commit a m).1
    obtain ⟨c, hc⟩ | ⟨hstate, hanswer⟩ := m.commit_stores a
    · rw [hc]
      exact List.drop_left
    · rw [hstate, Operation.accepted_eq_nil a hanswer]
      exact List.drop_length
  | dropStore | purgeAll => exact List.drop_nil
  | purge _ | deleteStream _ => exact List.drop_eq_nil_of_le (List.length_filter_le _ _)
  | addSnapshot t =>
    show (m.ledger.addSnapshot t).2.log.drop m.ledger.log.length = []
    rw [Ledger.log_addSnapshot]
    exact List.drop_length
  | _ => exact List.drop_length

end Memory

/-- What happens to a store behind hooks. An operation comes with what the hooks show of commits at
that time, each at its position, since only their judgement of attempts is the same at all times.
Besides, the store may be told to refuse reads or commits. -/
inductive Occasion where
  | operation (shows : Nat → Commit → Except Fault (Option Commit)) (op : Operation)
  | switch (reads commits : Bool)

namespace Occasion

variable (gates : List (Attempt → Bool))

/-- Whether the store takes part: not in an attempt that a hook refuses. -/
def passes : Occasion → Bool
  | .operation _ (.commit a) => gates.all fun allows => allows a
  | _ => true

/-- What comes of it on the store without the hooks. -/
def direct (m : Memory) : Occasion → Memory
  | .operation _ op => (Memory.engine op m).2
  | .switch reads commits => { m with readsDisabled := reads, commitsDisabled := commits }

/-- The commit that the store without the hooks answers. -/
def answered (m : Memory) : Occasion → List Commit
  | .operation _ op => op.accepted (Memory.engine op m).1.reply
  | .switch .. => []

/-- What comes of it behind the hooks, and the calls that they receive. -/
def behind (m : Memory) : Occasion → Memory × List Notice
  | .operation shows op =>
    let (response, m) := Hook.engine (Hook.chain gates shows) Memory.engine op m
    (m, response.allNotices)
  | o => (o.direct m, [])

/-- What comes of a run behind the hooks, and the calls that they receive. -/
def runBehind (m : Memory) : List Occasion → Memory × List Notice
  | [] => (m, [])
  | o :: os =>
    let (m, calls) := o.behind gates m
    let (m, later) := runBehind m os
    (m, calls ++ later)

/-- The commits that a run without the hooks stores, as they come to stand in the log. -/
def stored (m : Memory) : List Occasion → List Commit
  | [] => []
  | o :: os => m.grownFrom (o.direct m) ++ stored (o.direct m) os

/-- The commits that a run without the hooks is answered. -/
def allAnswered (m : Memory) : List Occasion → List Commit
  | [] => []
  | o :: os => o.answered m ++ allAnswered (o.direct m) os

/-- One step: a refused attempt does not happen, and whatever else happens each hook is told of the
commit that it stores. -/
theorem behind_eq (m : Memory) (o : Occasion) :
    (o.behind gates m).1 = (if o.passes gates then o.direct m else m) ∧
      Hook.posted (o.behind gates m).2
        = Hook.toldOf gates.length (if o.passes gates then o.answered m else []) := by
  cases o with
  | switch reads commits => exact ⟨rfl, rfl⟩
  | operation shows op =>
    have hpasses : (operation shows op).passes gates = Hook.passes (Hook.chain gates shows) op := by
      cases op with
      | commit a => exact (Hook.passes_chain gates shows a).symm
      | _ => rfl
    have hsilent : Hook.posted (Memory.engine op m).1.allNotices = [] := by
      cases op with
      | read q => exact congrArg Hook.posted (Feed.notices_ofItems _)
      | _ => rfl
    have hposted := Hook.posted_engine (Hook.chain gates shows) Memory.engine op m
    rw [Hook.accepted_engine, Hook.length_chain, hsilent, ite_self, List.nil_append] at hposted
    rw [hpasses]
    exact ⟨Hook.engine_snd (Hook.chain gates shows) Memory.engine op m, hposted⟩

theorem stored_eq (m : Memory) (os : List Occasion) : stored m os = allAnswered m os := by
  induction os generalizing m with
  | nil => rfl
  | cons o os ih =>
    have hgrown : m.grownFrom (o.direct m) = o.answered m := by
      cases o with
      | operation shows op => exact Memory.grownFrom_engine op m
      | switch reads commits => exact List.drop_length
    rw [stored, allAnswered, hgrown, ih]

/-- A run behind the hooks goes where the run without the refused attempts goes, and tells each hook
of the commits that this one is answered. -/
theorem runBehind_eq (m : Memory) (os : List Occasion) :
    (runBehind gates m os).1 = (os.filter (·.passes gates)).foldl direct m ∧
      Hook.posted (runBehind gates m os).2
        = Hook.toldOf gates.length (allAnswered m (os.filter (·.passes gates))) := by
  induction os generalizing m with
  | nil => exact ⟨rfl, rfl⟩
  | cons o os ih =>
    obtain ⟨hstate, hcalls⟩ := behind_eq gates m o
    obtain ⟨hstate', hcalls'⟩ := ih (o.behind gates m).1
    rw [runBehind, List.filter_cons]
    dsimp only
    rw [Hook.posted_append, hcalls, hcalls', hstate', hstate]
    split
    · exact ⟨rfl, (List.flatMap_append ..).symm⟩
    · exact ⟨rfl, rfl⟩

/-- An attempt that is refused, or that the store does not answer with a stored commit, changes
nothing and is told to no hook. -/
theorem behind_commit_eq_self (m : Memory)
    (shows : Nat → Commit → Except Fault (Option Commit)) {a : Attempt}
    (hnot : (∃ allows ∈ gates, allows a = false) ∨ ∀ c, (Memory.commit a m).1 ≠ .ok (some c)) :
    ((operation shows (.commit a)).behind gates m).1 = m ∧
      Hook.posted ((operation shows (.commit a)).behind gates m).2 = [] := by
  obtain ⟨hstate, hcalls⟩ := behind_eq gates m (operation shows (.commit a))
  rw [hstate, hcalls]
  by_cases hpass : (operation shows (.commit a)).passes gates
  · rw [if_pos hpass, if_pos hpass]
    obtain ⟨allows, hmem, hrefuses⟩ | hnone := hnot
    · rw [passes, List.all_eq_true] at hpass
      rw [hpass allows hmem] at hrefuses
      cases hrefuses
    · obtain ⟨c, hc⟩ | ⟨hsame, -⟩ := m.commit_stores a
      · exact absurd (congrArg Prod.fst hc) (hnone c)
      · refine ⟨hsame, ?_⟩
        rw [answered]
        exact congrArg (Hook.toldOf gates.length) (Operation.accepted_eq_nil a hnone)
  · rw [if_neg hpass, if_neg hpass]
    exact ⟨rfl, rfl⟩

/-- **Hooks hear of every stored commit once.**  Behind hooks a run, and so each of its beginnings,
goes from any store to where it goes without them and without the attempts that some hook refuses.
Each hook is told of the commits that are stored on the way, in the order in which they are stored,
as the store answers them. At the store reached, an attempt that is refused, or that the store does
not answer with a stored commit, changes nothing and is told to no hook, and so it is with a
read. -/
theorem told_once (m : Memory) (os : List Occasion) :
    let reached := (runBehind gates m os).1
    let passing := os.filter (·.passes gates)
    reached = passing.foldl direct m ∧
      (∀ i < gates.length,
        Hook.heard i (Hook.posted (runBehind gates m os).2) = stored m passing) ∧
      stored m passing = allAnswered m passing ∧
      (∀ shows a,
        (∃ allows ∈ gates, allows a = false) ∨ (∀ c, (Memory.commit a reached).1 ≠ .ok (some c)) →
        ((operation shows (.commit a)).behind gates reached).1 = reached ∧
          Hook.posted ((operation shows (.commit a)).behind gates reached).2 = []) ∧
      ∀ shows q, ((operation shows (.read q)).behind gates reached).1 = reached ∧
        Hook.posted ((operation shows (.read q)).behind gates reached).2 = [] := by
  intro reached passing
  obtain ⟨hstate, hcalls⟩ := runBehind_eq gates m os
  refine ⟨hstate, fun i hi => ?_, stored_eq m passing, fun shows a hnot => ?_, fun shows q => ?_⟩
  · rw [hcalls, Hook.heard_toldOf hi, stored_eq]
  · exact behind_commit_eq_self gates reached shows hnot
  · exact behind_eq gates reached (operation shows (.read q))

/-- Two hooks: the first one refuses the attempts on one stream, and what they show changes with
time. Between two accepted attempts there are a refused one, a repeated one, one that comes too
late, an empty one and one that finds commits disabled; the stream is deleted in the end. -/
example :
    let gates : List (Attempt → Bool) := [fun a => a.stream.stream ≠ "b", fun _ => true]
    let plain (_ : Nat) (c : Commit) : Except Fault (Option Commit) := .ok (some c)
    let masked (i : Nat) (c : Commit) : Except Fault (Option Commit) :=
      .ok (if i = 0 then some { c with events := [] } else none)
    let os := [operation plain (.commit (Memory.sampleAttempt "a" 1 1 1 1)),
      operation plain (.commit (Memory.sampleAttempt "b" 1 1 1 2)),
      operation masked (.commit (Memory.sampleAttempt "a" 1 1 1 1)),
      operation masked (.commit (Memory.sampleAttempt "a" 1 1 1 3)),
      operation masked (.commit (Memory.sampleAttempt "a" 2 1 0 4)),
      switch false true, operation masked (.commit (Memory.sampleAttempt "a" 2 3 2 5)),
      switch false false, operation masked (.commit (Memory.sampleAttempt "a" 2 3 2 5)),
      operation masked (.read (.after "tenant" 0)), operation plain (.deleteStream ⟨"tenant", "a"⟩)]
    (Hook.heard 1 (Hook.posted (runBehind gates Memory.empty os).2)).map
        (fun c => (c.checkpoint, c.events.length)) = [(1, 1), (2, 2)] ∧
      (runBehind gates Memory.empty os).1.ledger.log = [] := by
  decide +kernel

end Occasion
end EventSourcing
