import EventSourcing.Proofs.Handle

/-!
# What a commit leaves of staged work

A commit makes up to three calls: it may look for its id, it submits what is staged, and it may read
again after the store has decided. Nothing is assumed here of the answers. `Program.Always` is what
a program comes to whatever it is answered, hence on every store, with faults anywhere in a read and
with other writers at work between the calls (`Program.Always.run`).

A commit comes to one of three things (`Handle.Outcome`): the handle as it was, the handle caught up
and a conflict, or a handle that has nothing staged and a commit. Merging adds to the end of what a
handle shows and leaves alone what it has staged (`Handle.merge_extends`), so work stays staged
until the caller is told of its commit (`Handle.commitChanges_keeps_staged`).
-/

namespace EventSourcing

namespace Program

variable {α β σ : Type} {P : α → Prop}

/-- Whatever a program is answered, it comes to something of a kind. -/
def Always (P : α → Prop) : Program α → Prop
  | .done a => P a
  | .note _ rest => Always P rest
  | .call op next => ∀ reply : op.Reply, Always P (next reply)

/-- What a program always comes to, it comes to on every store. -/
theorem Always.run {p : Program α} (hp : p.Always P) (engine : Engine σ) (s : σ) :
    P (p.run engine s).value := by
  induction p generalizing s with
  | done a => exact hp
  | note notices rest ih => exact ih hp s
  | call op next ih => exact ih (engine op s).1.reply (hp _) (engine op s).2

theorem Always.bind {Q : β → Prop} {p : Program α} {f : α → Program β} (hp : p.Always P)
    (hf : ∀ a, P a → (f a).Always Q) : (p >>= f).Always Q := by
  induction p with
  | done a => exact hf a hp
  | note notices rest ih => exact ih hp
  | call op next ih => exact fun reply => ih reply (hp reply)

/-- Nothing is said of what a program comes to. -/
theorem always_true (p : Program α) : p.Always fun _ => True := by
  induction p with
  | done a => trivial
  | note notices rest ih => exact ih
  | call op next ih => exact fun reply => ih reply

end Program

namespace Handle

/-- The second handle shows what the first one shows and maybe more after it, and has the same
staged. -/
structure Extends (h g : Handle) : Prop where
  committed : h.committed <+: g.committed
  uncommitted : g.uncommitted = h.uncommitted
  uncommittedHeaders : g.uncommittedHeaders = h.uncommittedHeaders

theorem Extends.refl (h : Handle) : h.Extends h := ⟨List.prefix_refl _, rfl, rfl⟩

theorem Extends.trans {h g k : Handle} (hg : h.Extends g) (hk : g.Extends k) : h.Extends k where
  committed := hg.committed.trans hk.committed
  uncommitted := hk.uncommitted.trans hg.uncommitted
  uncommittedHeaders := hk.uncommittedHeaders.trans hg.uncommittedHeaders

theorem takeEvents_extends (first last current : Nat) (es : List Event) (h : Handle) :
    h.Extends (h.takeEvents first last current es) := by
  induction es generalizing h current with
  | nil => exact .refl h
  | cons e es ih =>
    rw [takeEvents]
    split
    · exact .refl h
    split
    · have htaken : h.Extends { h with committed := h.committed ++ [e], revision := current } :=
        ⟨List.prefix_append _ _, rfl, rfl⟩
      exact htaken.trans (ih _ _)
    · exact ih _ h

/-- Merging commits loses nothing, whatever the commits are. -/
theorem merge_extends (first last : Nat) (cs : List Commit) (h : Handle) :
    h.Extends (h.merge first last cs) := by
  induction cs generalizing h with
  | nil => exact .refl h
  | cons c cs ih =>
    rw [merge]
    split
    · exact ih h
    dsimp only
    split
    · exact ⟨List.prefix_refl _, rfl, rfl⟩
    · have hbegun : h.Extends
          { h with
            seen := c.id :: h.seen
            sequence := c.sequence
            committedHeaders := Fields.merge h.committedHeaders c.headers } :=
        ⟨List.prefix_refl _, rfl, rfl⟩
      exact hbegun.trans ((takeEvents_extends first last c.firstRevision c.events _).trans (ih _))

/-- What a commit can come to: no commit is answered and the handle is as it was, or another writer
was faster and commits were merged, or a commit is answered and nothing is staged any more. -/
inductive Outcome (h : Handle) : Handle × Except Fault (Option Commit) → Prop
  | kept (answer : Except Fault (Option Commit)) (hanswer : ∀ c, answer ≠ .ok (some c)) :
    Outcome h (h, answer)
  | beaten (first last : Nat) (cs : List Commit) (stream : StreamId) (revision sequence : Nat) :
    Outcome h (h.merge first last cs, .error (.conflict stream revision sequence))
  | applied (first last : Nat) (cs : List Commit) (c : Commit) :
    Outcome h ((h.merge first last cs).clearChanges, .ok (some c))

theorem Outcome.of_error (h : Handle) (e : Fault) : h.Outcome (h, .error e) :=
  .kept _ fun _ hc => by cases hc

section

variable (h : Handle) (id : CommitId) (stamp : Stamp)

/-- Once the store has decided, the handle catches up first. If it cannot, it is as it was. -/
theorem always_reload {settle : Handle → Handle} {result : Except Fault (Option Commit)}
    (hsettle : ∀ first cs, h.Outcome (settle (h.merge first maxRevision cs), result)) :
    (h.reload settle result).Always h.Outcome := by
  unfold reload refresh
  rw [Program.bind_assoc]
  refine (Program.always_true _).bind fun read _ => ?_
  cases read with
  | error e => exact .of_error h e
  | ok cs => exact hsettle _ cs

theorem always_submit : (h.submit id stamp).Always h.Outcome := by
  refine (Program.always_true _).bind fun answer _ => ?_
  cases answer with
  | ok stored =>
    cases stored with
    | none => exact .kept _ fun _ hc => by cases hc
    | some c => exact .applied _ _ [c] c
  | error e =>
    cases e with
    | duplicate existing =>
      exact h.always_reload fun first cs => .applied first maxRevision cs existing
    | conflict stream revision sequence =>
      exact h.always_reload fun first cs =>
        .beaten first maxRevision cs stream revision sequence
    | _ => exact .of_error h _

/-- **What a commit comes to**, whatever the store answers. -/
theorem always_commitChanges : (h.commitChanges id stamp).Always h.Outcome := by
  rw [commitChanges]
  split
  · exact .kept _ fun _ hc => by cases hc
  split
  · refine (Program.always_true _).bind fun found _ => ?_
    obtain e | _ | existing := found
    · exact .of_error h e
    · exact h.always_submit id stamp
    · exact .applied 0 0 [] existing
  · exact h.always_submit id stamp

end

/-- **A commit never costs staged work.** On every store, in every state of it and of the handle,
what is staged stays staged unless a commit is answered, and nothing is staged then. What the handle
shows only grows. Only a conflict changes a handle that gets no commit. -/
theorem commitChanges_keeps_staged {σ : Type} (engine : Engine σ) (s : σ) (h : Handle)
    (id : CommitId) (stamp : Stamp) :
    let result := ((h.commitChanges id stamp).run engine s).value
    h.committed <+: result.1.committed ∧
      match result.2 with
      | .ok (some _) => result.1.uncommitted = [] ∧ result.1.uncommittedHeaders = []
      | .ok none => result.1 = h
      | .error e =>
        result.1.uncommitted = h.uncommitted ∧
          result.1.uncommittedHeaders = h.uncommittedHeaders ∧
          (e.isConflict = false → result.1 = h) := by
  intro result
  have hresult : h.Outcome result := (h.always_commitChanges id stamp).run engine s
  clear_value result
  cases hresult with
  | kept answer hanswer =>
    refine ⟨List.prefix_refl _, ?_⟩
    match answer with
    | .ok none => rfl
    | .ok (some c) => exact absurd rfl (hanswer c)
    | .error e => exact ⟨rfl, rfl, fun _ => rfl⟩
  | beaten first last cs =>
    have hmerged := h.merge_extends first last cs
    exact ⟨hmerged.committed, hmerged.uncommitted, hmerged.uncommittedHeaders,
      fun hc => by cases hc⟩
  | applied first last cs c => exact ⟨(h.merge_extends first last cs).committed, rfl, rfl⟩

end Handle

end EventSourcing
