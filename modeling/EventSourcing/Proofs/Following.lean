import EventSourcing.Polling
import EventSourcing.Proofs.Memory

/-!
# Following a tenant

A polling client takes one item of its read at a time, and anything may happen in between: commits
are added, the tenant is chosen, polling is started, the client is told to stop. A `Watch` is a
client, its handler and a source of commits, with what is left of the read under way, and
`Watch.act` is one thing that happens. What comes of it is one of the cases of `Watch.Effect`
(`Watch.effect_act`). A poll that nobody disturbs is `PollClient.poll` (`Watch.run_poll`).

Of the source only this is assumed: checkpoints ascend, and a read after a checkpoint yields a
beginning of the commits after it and then either ends, if these are all, or fails
(`Watch.Yields`). The commit that is handed over next is always the first of its tenant after the
checkpoint. Hence no commit is skipped, and none between the start and the checkpoint was handled
twice (`Watch.follows`).

There is one exception. A client that is idle can be polled, and its tenant or its checkpoint can be
changed before that poll has ended: then the poll goes on with the commits that it was begun for
(`Watch.disturbed`), and its last commit becomes the checkpoint (`Watch.disturbed_poll_goes_on`).
A run in which both are chosen between polls has no such poll (`Watch.Calm.undisturbed`).
-/

namespace EventSourcing

namespace Ledger

/-- The commits of a tenant after a checkpoint. -/
def After (tenant : String) (checkpoint : Int) (cs : List Commit) : List Commit :=
  cs.filter (answers (.after tenant checkpoint))

variable {tenant : String} {k n : Int} {cs more : List Commit} {d : Commit}

theorem mem_after :
    d ∈ After tenant k cs ↔ d ∈ cs ∧ d.stream.tenant = tenant ∧ k < d.checkpoint := by
  simp [After, answers]

theorem after_append (tenant : String) (k : Int) (cs ds : List Commit) :
    After tenant k (cs ++ ds) = After tenant k cs ++ After tenant k ds :=
  List.filter_append ..

/-- Past the first commit after a checkpoint come the others. -/
theorem after_first (hs : cs.Pairwise fun c d => c.checkpoint < d.checkpoint)
    (h : After tenant k cs = d :: more) : After tenant d.checkpoint cs = more := by
  obtain ⟨pre, post, rfl, -, -, hpost⟩ := List.filter_eq_cons_iff.1 h
  obtain ⟨-, hs, hlt⟩ := List.pairwise_append.1 hs
  have hd : k < d.checkpoint := (mem_after.1 (h ▸ List.mem_cons_self ..)).2.2
  have hpre : After tenant d.checkpoint pre = [] := by
    refine List.filter_eq_nil_iff.2 fun c hc => ?_
    have := hlt c hc d (List.mem_cons_self ..)
    simp only [answers, Bool.and_eq_true, decide_eq_true_eq]
    omega
  have hself : After tenant d.checkpoint (d :: post) = After tenant d.checkpoint post := by
    simp [After, answers]
  rw [after_append, hpre, List.nil_append, hself, ← hpost]
  refine List.filter_congr fun c hc => ?_
  have := (List.pairwise_cons.1 hs).1 c hc
  have hiff : d.checkpoint < c.checkpoint ↔ k < c.checkpoint := by omega
  simp only [answers, hiff]

/-- Up to the first commit after a checkpoint there is one more than up to that checkpoint. -/
theorem after_upto_first (hs : cs.Pairwise fun c d => c.checkpoint < d.checkpoint) (hn : n ≤ k)
    (h : After tenant k cs = d :: more) :
    (After tenant n cs).filter (·.checkpoint ≤ d.checkpoint)
      = (After tenant n cs).filter (·.checkpoint ≤ k) ++ [d] := by
  obtain ⟨pre, post, rfl, hnone, -, -⟩ := List.filter_eq_cons_iff.1 h
  obtain ⟨-, hs, hlt⟩ := List.pairwise_append.1 hs
  obtain ⟨-, hdt, hd⟩ := mem_after.1 (h ▸ List.mem_cons_self ..)
  have hpost (b : Int) (hb : b ≤ d.checkpoint) :
      (After tenant n post).filter (·.checkpoint ≤ b) = [] := by
    refine List.filter_eq_nil_iff.2 fun c hc => ?_
    have := (List.pairwise_cons.1 hs).1 c (mem_after.1 hc).1
    simp only [decide_eq_true_eq]
    omega
  have hpre (b : Int) (hb : k ≤ b) :
      (After tenant n pre).filter (·.checkpoint ≤ b) = After tenant n pre := by
    refine List.filter_eq_self.2 fun c hc => ?_
    obtain ⟨hc, ht, -⟩ := mem_after.1 hc
    have hle := hnone c hc
    simp only [answers, ht, decide_true, Bool.true_and, decide_eq_true_eq] at hle
    simp only [decide_eq_true_eq]
    omega
  have hcons : After tenant n (d :: post) = d :: After tenant n post :=
    List.filter_cons_of_pos (by simp [answers, hdt]; omega)
  rw [after_append, hcons, List.filter_append, List.filter_append, hpre _ (by omega),
    hpre k (by omega), List.filter_cons_of_pos (by simp), hpost _ (by omega),
    List.filter_cons_of_neg (by simpa using hd), hpost k (by omega), List.append_nil]

end Ledger

/-- A client with its handler, and the source that it follows. -/
structure Watch (η : Type) where
  /-- The commits of the source. -/
  stored : List Commit
  client : PollClient := {}
  handler : η
  /-- What is left of the read of the poll under way. -/
  rest : Option (List Item) := none
  /-- The checkpoint that polling was started after. -/
  started : Option Int := none
  /-- The commits handed over since the start, or since ever, and what the handler wanted. -/
  handed : List (Commit × PollVerdict) := []
  /-- Whether polling was started after another checkpoint, or another tenant chosen, while a poll
  was under way. Polls before the start do not count once they have ended. -/
  disturbed : Bool := false

namespace Watch

/-- Something that happens to a watch. -/
inductive Act where
  /-- The source has a new commit. -/
  | store (c : Commit)
  | configure (tenant : String)
  | startFrom (checkpoint : Int)
  /-- A poll begins; its read is going to yield some items. -/
  | poll (items : List Item)
  /-- The poll under way takes the next item. -/
  | pull
  | stop

variable {η : Type} (handle : Handler η)

/-- The commits that are still to be handled. -/
def pending (w : Watch η) : List Commit :=
  match w.client.tenant with
  | some tenant => Ledger.After tenant w.client.checkpoint w.stored
  | none => []

/-- The commits that were handled, the last one last. -/
def continued (w : Watch η) : List Commit :=
  (w.handed.filter fun e => e.2 = .proceed).map (·.1)

/-- The commit that the next pull is going to hand over. -/
def next? (w : Watch η) : Option Commit :=
  match w.rest with
  | some (.ok c :: _) => if w.client.state = .stopped then none else some c
  | _ => none

/-- What the handler's verdict on a commit comes to. -/
def settle (w : Watch η) (c : Commit) : PollVerdict → Watch η
  | .proceed => { w with
      client := { w.client with checkpoint := c.checkpoint }, rest := w.rest.map List.tail }
  | .retry => { w with rest := none }
  | .stop => { w with client := w.client.stop, rest := none }

/-- The poll under way takes its next item. It ends, or hands a commit over. Following the verdict is
part of this step: a client that is told to stop while the handler is at work is stopped after it. -/
def pull (w : Watch η) : Watch η :=
  match w.next? with
  | none => { w with rest := none }
  | some c =>
    let (verdict, handler) := handle w.handler c
    settle { w with handler := handler, handed := w.handed ++ [(c, verdict)] } c verdict

/-- The watch after something has happened. -/
def act (w : Watch η) : Act → Watch η
  | .store c => { w with stored := w.stored ++ [c] }
  | .configure tenant =>
    match w.client.configure tenant with
    | .ok client => { w with
        client := client
        disturbed := w.disturbed || w.rest.isSome && decide (w.client.tenant ≠ some tenant) }
    | .error _ => w
  | .startFrom checkpoint =>
    match w.client.startFrom checkpoint with
    | .ok client => { w with
        client := client
        started := some checkpoint
        handed := []
        disturbed := w.rest.isSome && (w.disturbed || decide (w.client.checkpoint ≠ checkpoint)) }
    | .error _ => w
  | .poll items =>
    if w.rest = none ∧ w.client.tenant ≠ none ∧ w.client.state ≠ .stopped then
      { w with
        client := { w.client with active := true }
        rest := some items
        disturbed := w.disturbed && w.started.isSome }
    else w
  | .pull => w.pull handle
  | .stop => { w with client := w.client.stop }

/-- What a read yields of the commits it is asked for: a beginning of them, and then its end, if
these are all, or a fault. -/
def Yields (wanted : List Commit) (items : List Item) : Prop :=
  ∃ pre post, wanted = pre ++ post ∧
    (post = [] ∧ items = pre.map .ok ∨ ∃ e more, items = pre.map .ok ++ .error e :: more)

/-- New commits have greater checkpoints, and reads yield what they are asked for. -/
def Allows (w : Watch η) : Act → Prop
  | .store c => ∀ d ∈ w.stored, d.checkpoint < c.checkpoint
  | .poll items => Yields w.pending items
  | .configure _ | .startFrom _ | .pull | .stop => True

/-- Whether the tenant or the checkpoint is chosen. -/
def Act.chooses : Act → Bool
  | .configure _ | .startFrom _ => true
  | .store _ | .poll _ | .pull | .stop => false

/-- In a run, what is chosen is chosen between polls. -/
def Calm : Watch η → List Act → Prop
  | _, [] => True
  | w, e :: es => (e.chooses = true → w.rest = none) ∧ Calm (w.act handle e) es

/-- What can happen leads from one watch to another. -/
inductive Leads (w : Watch η) : Watch η → Prop
  | refl : Leads w w
  | act {w' : Watch η} (e : Act) (h : Leads w w') (he : w'.Allows e) : Leads w (w'.act handle e)

/-- The watches that a new client on a source with ascending checkpoints comes to. -/
def Reachable (w : Watch η) : Prop :=
  ∃ (stored : List Commit) (handler : η),
    (stored.Pairwise fun c d => c.checkpoint < d.checkpoint) ∧
      Leads handle { stored := stored, handler := handler } w

/-- The items are a beginning of the commits, up to an end or a fault. -/
def Begins (wanted : List Commit) (items : List Item) : Prop :=
  ∃ pre post, wanted = pre ++ post ∧
    (items = pre.map .ok ∨ ∃ e more, items = pre.map .ok ++ .error e :: more)

/-- What is true of every reachable watch. -/
structure Sound (w : Watch η) : Prop where
  ascending : w.stored.Pairwise fun c d => c.checkpoint < d.checkpoint
  checkpoint : w.client.checkpoint
    = ((w.continued.getLast?).map (·.checkpoint)).getD (w.started.getD 0)
  begun : ∀ k, w.started = some k → w.client.state ≠ .idle
  reading : w.disturbed = false → ∀ items, w.rest = some items →
    ∃ tenant, w.client.tenant = some tenant ∧ Begins w.pending items
  started : w.disturbed = false → ∀ k, w.started = some k → k ≤ w.client.checkpoint ∧
    ∃ tenant, w.client.tenant = some tenant ∧
      w.continued = (Ledger.After tenant k w.stored).filter (·.checkpoint ≤ w.client.checkpoint)
  stops : ∀ d, (d, .stop) ∈ w.handed → w.client.state = .stopped

variable {handle} {w w' : Watch η} {wanted more : List Commit} {items : List Item} {d : Commit}

theorem Yields.begins (h : Yields wanted items) : Begins wanted items := by
  obtain ⟨pre, post, he, ⟨-, hitems⟩ | hfault⟩ := h
  · exact ⟨pre, post, he, .inl hitems⟩
  · exact ⟨pre, post, he, .inr hfault⟩

/-- More commits may come after those that were wanted. -/
theorem Begins.append (h : Begins wanted items) (more : List Commit) :
    Begins (wanted ++ more) items := by
  obtain ⟨pre, post, rfl, hitems⟩ := h
  exact ⟨pre, post ++ more, List.append_assoc .., hitems⟩

/-- The first item, if it is a commit, is the first that is wanted; the others begin the rest. -/
theorem Begins.uncons (h : Begins wanted (.ok d :: items)) :
    ∃ more, wanted = d :: more ∧ Begins more items := by
  obtain ⟨pre, post, rfl, hitems⟩ := h
  cases pre with
  | nil =>
    rcases hitems with hitems | ⟨e, rest, hitems⟩
    · cases hitems
    · cases hitems
  | cons c pre =>
    refine ⟨pre ++ post, ?_, pre, post, rfl, ?_⟩
    · rcases hitems with hitems | ⟨e, rest, hitems⟩ <;> cases hitems <;> rfl
    · rcases hitems with hitems | ⟨e, rest, hitems⟩
      · cases hitems
        exact .inl rfl
      · cases hitems
        exact .inr ⟨e, rest, rfl⟩

theorem next?_eq_some : w.next? = some d ↔
    ∃ items, w.rest = some (.ok d :: items) ∧ w.client.state ≠ .stopped := by
  unfold next?
  split
  · rename_i c items hrest
    split <;> simp [*]
  · rename_i hrest
    simp only [reduceCtorEq, false_iff, not_exists, not_and]
    intro items he
    exact absurd he (hrest d items)

theorem pull_none (h : w.next? = none) : w.pull handle = { w with rest := none } := by
  rw [pull, h]

theorem pull_some (h : w.next? = some d) : w.pull handle =
    settle { w with
      handler := (handle w.handler d).2
      handed := w.handed ++ [(d, (handle w.handler d).1)] } d (handle w.handler d).1 := by
  rw [pull, h]

/-- Handing a commit over adds it to those that were handled if the handler continues. -/
theorem continued_concat {verdict : PollVerdict} (h : w'.handed = w.handed ++ [(d, verdict)]) :
    w'.continued = if verdict = .proceed then w.continued ++ [d] else w.continued := by
  unfold continued
  rw [h, List.filter_append, List.map_append]
  split <;> simp [*]

/-- What comes of something that happens: nothing, if the client refuses it, or one change. -/
inductive Effect (handle : Handler η) (w : Watch η) : Act → Watch η → Prop
  | store (c : Commit) : Effect handle w (.store c) { w with stored := w.stored ++ [c] }
  /-- The tenant is chosen while the client is idle. -/
  | configure (tenant : String) (hs : w.client.state = .idle) :
    Effect handle w (.configure tenant) { w with
      client := { w.client with tenant := some tenant }
      disturbed := w.disturbed || w.rest.isSome && decide (w.client.tenant ≠ some tenant) }
  | keeps (tenant : String) (hs : w.client.state ≠ .idle) : Effect handle w (.configure tenant) w
  /-- Polling is started when there is a tenant, and once. -/
  | startFrom (checkpoint : Int) (tenant : String) (ht : w.client.tenant = some tenant)
    (hs : w.client.state = .idle) :
    Effect handle w (.startFrom checkpoint) { w with
      client := { w.client with
        checkpoint := checkpoint, state := .running, active := true, parked := true }
      started := some checkpoint
      handed := []
      disturbed := w.rest.isSome && (w.disturbed || decide (w.client.checkpoint ≠ checkpoint)) }
  | rejects (checkpoint : Int) (h : w.client.tenant = none ∨ w.client.state ≠ .idle) :
    Effect handle w (.startFrom checkpoint) w
  /-- One poll is under way at a time, and none once the client was stopped. -/
  | poll (items : List Item) (tenant : String) (ht : w.client.tenant = some tenant)
    (hs : w.client.state ≠ .stopped) (hr : w.rest = none) :
    Effect handle w (.poll items) { w with
      client := { w.client with active := true }
      rest := some items
      disturbed := w.disturbed && w.started.isSome }
  | skips (items : List Item)
    (h : w.rest ≠ none ∨ w.client.tenant = none ∨ w.client.state = .stopped) :
    Effect handle w (.poll items) w
  | finish (hd : w.next? = none) : Effect handle w .pull { w with rest := none }
  /-- A commit that is continued with moves the checkpoint, and the poll goes on. -/
  | proceed (d : Commit) (hd : w.next? = some d) (hv : (handle w.handler d).1 = .proceed) :
    Effect handle w .pull { w with
      handler := (handle w.handler d).2
      handed := w.handed ++ [(d, .proceed)]
      client := { w.client with checkpoint := d.checkpoint }
      rest := w.rest.map List.tail }
  /-- A commit that is to come again ends the poll. -/
  | retry (d : Commit) (hd : w.next? = some d) (hv : (handle w.handler d).1 = .retry) :
    Effect handle w .pull { w with
      handler := (handle w.handler d).2
      handed := w.handed ++ [(d, .retry)]
      rest := none }
  /-- A commit that the handler stops at ends the poll and stops the client. -/
  | halt (d : Commit) (hd : w.next? = some d) (hv : (handle w.handler d).1 = .stop) :
    Effect handle w .pull { w with
      handler := (handle w.handler d).2
      handed := w.handed ++ [(d, .stop)]
      client := w.client.stop
      rest := none }
  | stop : Effect handle w .stop { w with client := w.client.stop }

theorem effect_act (handle : Handler η) (w : Watch η) (e : Act) :
    Effect handle w e (w.act handle e) := by
  cases e with
  | store c => exact .store c
  | stop => exact .stop
  | configure tenant =>
    by_cases hs : w.client.state = .idle
    · simpa [Watch.act, PollClient.configure, hs] using Effect.configure tenant hs
    · simpa [Watch.act, PollClient.configure, hs] using Effect.keeps tenant hs
  | startFrom k =>
    cases ht : w.client.tenant with
    | none => simpa [Watch.act, PollClient.startFrom, ht] using Effect.rejects k (.inl ht)
    | some tenant =>
      by_cases hs : w.client.state = .idle
      · simpa [Watch.act, PollClient.startFrom, ht, hs] using Effect.startFrom k tenant ht hs
      · simpa [Watch.act, PollClient.startFrom, ht, hs] using Effect.rejects k (.inr hs)
  | poll items =>
    unfold Watch.act
    simp only
    split
    · rename_i hbegin
      obtain ⟨tenant, ht⟩ := Option.ne_none_iff_exists'.1 hbegin.2.1
      exact .poll items tenant ht hbegin.2.2 hbegin.1
    · rename_i hbegin
      refine .skips items ?_
      rwa [Classical.not_and_iff_not_or_not, Classical.not_and_iff_not_or_not, not_not,
        not_not] at hbegin
  | pull =>
    show Effect handle w .pull (w.pull handle)
    cases hd : w.next? with
    | none =>
      rw [pull_none hd]
      exact .finish hd
    | some d =>
      rw [pull_some hd]
      cases hv : (handle w.handler d).1 with
      | proceed => exact .proceed d hd hv
      | retry => exact .retry d hd hv
      | stop => exact .halt d hd hv

namespace Sound

/-- The commit handed over next is the first after the checkpoint. -/
theorem next (h : w.Sound) (hu : w.disturbed = false) (hd : w.next? = some d) :
    ∃ tenant items more, w.client.tenant = some tenant ∧ w.rest = some (.ok d :: items) ∧
      w.client.state ≠ .stopped ∧ w.pending = d :: more ∧ Begins more items := by
  obtain ⟨items, hrest, hstate⟩ := next?_eq_some.1 hd
  obtain ⟨tenant, htenant, hbegins⟩ := h.reading hu _ hrest
  obtain ⟨more, hmore, hbegins⟩ := hbegins.uncons
  exact ⟨tenant, items, more, htenant, hrest, hstate, hmore, hbegins⟩

/-- The commit handed over next is one of the tenant, after the checkpoint. -/
theorem first (h : w.Sound) (hu : w.disturbed = false) (hd : w.next? = some d) :
    w.client.tenant = some d.stream.tenant ∧ w.client.checkpoint < d.checkpoint ∧
      w.pending.head? = some d := by
  obtain ⟨tenant, items, more, htenant, -, -, hpending, -⟩ := h.next hu hd
  have hmem : d ∈ w.pending := hpending ▸ List.mem_cons_self ..
  rw [pending, htenant] at hmem
  obtain ⟨-, hdt, hlt⟩ := Ledger.mem_after.1 hmem
  exact ⟨hdt ▸ htenant, hlt, by rw [hpending]; rfl⟩

/-- What was handled since the start was handled once. -/
theorem once (h : w.Sound) (hu : w.disturbed = false) {k : Int} (hk : w.started = some k) :
    ∃ tenant, w.client.tenant = some tenant ∧
      w.continued = (Ledger.After tenant k w.stored).filter (·.checkpoint ≤ w.client.checkpoint) ∧
      w.continued.Nodup := by
  obtain ⟨-, tenant, htenant, hall⟩ := h.started hu k hk
  refine ⟨tenant, htenant, hall, ?_⟩
  have hnodup : w.stored.Nodup :=
    h.ascending.imp fun hlt he => absurd (he ▸ hlt) (Int.lt_irrefl _)
  rw [hall]
  exact (hnodup.filter _).filter _

/-- A poll that ends leaves all else as it is. -/
theorem finish (h : w.Sound) : Sound { w with rest := none } :=
  ⟨h.ascending, h.checkpoint, h.begun, nofun, h.started, h.stops⟩

/-- Stopping leaves all else as it is. -/
theorem stop (h : w.Sound) : Sound { w with client := w.client.stop } :=
  ⟨h.ascending, h.checkpoint, nofun, h.reading, h.started, fun _ _ => rfl⟩

/-- A commit that is handed over and not continued with is still to be handled. -/
theorem hold (h : w.Sound) (handler : η) (d : Commit) (verdict : PollVerdict)
    (hv : verdict ≠ .proceed) (hs : verdict = .stop → w.client.state = .stopped) :
    Sound { w with handler := handler, handed := w.handed ++ [(d, verdict)] } := by
  obtain ⟨w', hw'⟩ : ∃ w' : Watch η,
      w' = { w with handler := handler, handed := w.handed ++ [(d, verdict)] } := ⟨_, rfl⟩
  have hcontinued : w'.continued = w.continued := by
    rw [continued_concat (w := w) (by rw [hw']), if_neg hv]
  rw [← hw']
  subst hw'
  refine ⟨h.ascending, ?_, h.begun, h.reading, ?_, fun c hc => ?_⟩
  · rw [hcontinued]
    exact h.checkpoint
  · rw [hcontinued]
    exact h.started
  · rcases List.mem_append.1 hc with hc | hc
    · exact h.stops c hc
    · cases List.mem_singleton.1 hc
      exact hs rfl

/-- A commit that is handed over and continued with moves the checkpoint to it. -/
theorem proceed (h : w.Sound) (handler : η) (hd : w.next? = some d) :
    Sound { w with
      handler := handler
      handed := w.handed ++ [(d, .proceed)]
      client := { w.client with checkpoint := d.checkpoint }
      rest := w.rest.map List.tail } := by
  obtain ⟨w', hw'⟩ : ∃ w' : Watch η, w' = { w with
      handler := handler
      handed := w.handed ++ [(d, .proceed)]
      client := { w.client with checkpoint := d.checkpoint }
      rest := w.rest.map List.tail } := ⟨_, rfl⟩
  have hcontinued : w'.continued = w.continued ++ [d] := by
    rw [continued_concat (w := w) (by rw [hw']), if_pos rfl]
  -- the first commit after the checkpoint, unless the poll was disturbed
  have hfirst (hu : w.disturbed = false) : ∃ tenant items more, w.client.tenant = some tenant ∧
      w.rest = some (.ok d :: items) ∧ Begins more items ∧
      Ledger.After tenant w.client.checkpoint w.stored = d :: more := by
    obtain ⟨tenant, items, more, htenant, hrest, -, hpending, hbegins⟩ := h.next hu hd
    rw [pending, htenant] at hpending
    exact ⟨tenant, items, more, htenant, hrest, hbegins, hpending⟩
  rw [← hw']
  subst hw'
  refine ⟨h.ascending, ?_, h.begun, fun hu items' hitems => ?_, fun hu k hk => ?_, fun c hc => ?_⟩
  · rw [hcontinued, List.getLast?_concat]
    rfl
  · obtain ⟨tenant, items, more, htenant, hrest, hbegins, hfirst⟩ := hfirst hu
    rw [hrest] at hitems
    cases hitems
    refine ⟨tenant, htenant, ?_⟩
    rw [pending, htenant]
    show Begins (Ledger.After tenant d.checkpoint w.stored) items
    rwa [Ledger.after_first h.ascending hfirst]
  · obtain ⟨tenant, items, more, htenant, -, -, hfirst⟩ := hfirst hu
    have hlt := (Ledger.mem_after.1 (hfirst ▸ List.mem_cons_self ..)).2.2
    obtain ⟨hle, tenant', htenant', hall⟩ := h.started hu k hk
    cases htenant.symm.trans htenant'
    refine ⟨Int.le_of_lt (Int.lt_of_le_of_lt hle hlt), tenant, htenant, ?_⟩
    rw [hcontinued, hall]
    exact (Ledger.after_upto_first h.ascending hle hfirst).symm
  · rcases List.mem_append.1 hc with hc | hc
    · exact h.stops c hc
    · cases List.mem_singleton.1 hc

/-- A new commit of the source comes after all others. -/
theorem store (h : w.Sound) {c : Commit} (hc : ∀ d ∈ w.stored, d.checkpoint < c.checkpoint) :
    Sound { w with stored := w.stored ++ [c] } where
  ascending := by
    refine List.pairwise_append.2 ⟨h.ascending, List.pairwise_singleton _ _, ?_⟩
    simpa using hc
  checkpoint := h.checkpoint
  begun := h.begun
  reading hu items hitems := by
    obtain ⟨tenant, htenant, hbegins⟩ := h.reading hu items hitems
    refine ⟨tenant, htenant, ?_⟩
    rw [pending, htenant] at hbegins ⊢
    show Begins (Ledger.After _ _ (w.stored ++ [c])) items
    rw [Ledger.after_append]
    exact hbegins.append _
  started hu k hk := by
    obtain ⟨hle, tenant, htenant, hall⟩ := h.started hu k hk
    refine ⟨hle, tenant, htenant, hall.trans ?_⟩
    have hnone : (Ledger.After tenant k [c]).filter (·.checkpoint ≤ w.client.checkpoint) = [] := by
      refine List.filter_eq_nil_iff.2 fun d hd => ?_
      obtain ⟨hd, -, hlt⟩ := Ledger.mem_after.1 hd
      rw [List.mem_singleton.1 hd] at hlt ⊢
      -- the checkpoint is where polling was started, or that of a commit of the source
      have hcheckpoint := h.checkpoint
      rw [hk] at hcheckpoint
      cases hlast : w.continued.getLast? with
      | none =>
        rw [hlast] at hcheckpoint
        simp only [Option.map_none, Option.getD_none, Option.getD_some] at hcheckpoint
        simp only [decide_eq_true_eq]
        omega
      | some e =>
        have hmem : e ∈ (Ledger.After tenant k w.stored).filter
            (·.checkpoint ≤ w.client.checkpoint) := hall ▸ List.mem_of_getLast? hlast
        have := hc e (Ledger.mem_after.1 (List.mem_of_mem_filter hmem)).1
        rw [hlast] at hcheckpoint
        simp only [Option.map_some, Option.getD_some] at hcheckpoint
        simp only [decide_eq_true_eq]
        omega
    show _ = (Ledger.After tenant k (w.stored ++ [c])).filter (·.checkpoint ≤ w.client.checkpoint)
    rw [Ledger.after_append, List.filter_append, hnone, List.append_nil]
  stops := h.stops

/-- Choosing a tenant keeps a watch sound: polling was not started yet, and a poll under way is that
of the tenant, or disturbed. -/
theorem configure (h : w.Sound) (hs : w.client.state = .idle) (tenant : String) : Sound { w with
    client := { w.client with tenant := some tenant }
    disturbed := w.disturbed || w.rest.isSome && decide (w.client.tenant ≠ some tenant) } where
  ascending := h.ascending
  checkpoint := h.checkpoint
  begun := h.begun
  reading hu items hitems := by
    simp only at hitems
    simp only [hitems, Option.isSome_some, Bool.true_and, Bool.or_eq_false_iff,
      decide_eq_false_iff_not, not_not] at hu
    obtain ⟨tenant', htenant', hbegins⟩ := h.reading hu.1 items hitems
    rw [pending, hu.2] at hbegins
    exact ⟨tenant, rfl, hbegins⟩
  started _ k hk := absurd hs (h.begun k hk)
  stops := h.stops

/-- Starting leaves nothing handled between the start and the checkpoint, and a poll under way was
begun at that checkpoint, or is disturbed. -/
theorem startFrom (h : w.Sound) (k : Int) {tenant : String} (ht : w.client.tenant = some tenant) :
    Sound { w with
      client := { w.client with checkpoint := k, state := .running, active := true, parked := true }
      started := some k
      handed := []
      disturbed := w.rest.isSome && (w.disturbed || decide (w.client.checkpoint ≠ k)) } where
  ascending := h.ascending
  checkpoint := rfl
  begun := nofun
  reading hu items hitems := by
    simp only at hitems
    simp only [hitems, Option.isSome_some, Bool.true_and, Bool.or_eq_false_iff,
      decide_eq_false_iff_not, not_not] at hu
    obtain ⟨tenant', htenant', hbegins⟩ := h.reading hu.1 items hitems
    rw [pending, hu.2, ht] at hbegins
    refine ⟨tenant, ht, ?_⟩
    rw [pending, ht]
    exact hbegins
  started _ n hn := by
    cases hn
    refine ⟨Int.le_refl k, tenant, ht, Eq.symm (List.filter_eq_nil_iff.2 fun d hd => ?_)⟩
    have := (Ledger.mem_after.1 hd).2.2
    simp only [decide_eq_true_eq]
    omega
  stops := nofun

/-- A poll begins with what is still to be handled. Before the start it heals a disturbance: nothing
that was handled is remembered then. -/
theorem poll (h : w.Sound) (he : Yields w.pending items) {tenant : String}
    (ht : w.client.tenant = some tenant) : Sound { w with
      client := { w.client with active := true }
      rest := some items
      disturbed := w.disturbed && w.started.isSome } where
  ascending := h.ascending
  checkpoint := h.checkpoint
  begun := h.begun
  reading _ items' hitems := by
    cases hitems
    exact ⟨tenant, ht, he.begins⟩
  started hu k hk := by
    have hsome : w.started.isSome = true := Option.isSome_iff_exists.2 ⟨k, hk⟩
    rw [hsome, Bool.and_true] at hu
    exact h.started hu k hk
  stops := h.stops

/-- Whatever happens keeps a watch sound. -/
theorem act (h : w.Sound) {e : Act} (he : w.Allows e) : (w.act handle e).Sound := by
  have heffect := effect_act handle w e
  generalize w.act handle e = w' at heffect
  cases heffect with
  | keeps | rejects | skips => exact h
  | store c => exact h.store he
  | configure tenant hs => exact h.configure hs tenant
  | startFrom k tenant ht hs => exact h.startFrom k ht
  | poll items tenant ht hs hr => exact h.poll he ht
  | finish => exact h.finish
  | proceed d hd => exact h.proceed _ hd
  | retry d => exact (h.hold _ d .retry nofun nofun).finish
  | halt d => exact (h.stop.hold _ d .stop nofun fun _ => rfl).finish
  | stop => exact h.stop

/-- Once polling was started or stopped, the checkpoint only moves on, and nothing disturbs a
poll. -/
theorem checkpoint_act (h : w.Sound) (hu : w.disturbed = false) (hs : w.client.state ≠ .idle)
    (e : Act) : w.client.checkpoint ≤ (w.act handle e).client.checkpoint ∧
      (w.act handle e).disturbed = false ∧ (w.act handle e).client.state ≠ .idle := by
  have heffect := effect_act handle w e
  generalize w.act handle e = w' at heffect
  cases heffect with
  | keeps | rejects | skips | store | finish | retry => exact ⟨Int.le_refl _, hu, hs⟩
  | poll => exact ⟨Int.le_refl _, by rw [hu, Bool.false_and], hs⟩
  | configure tenant hidle | startFrom k tenant ht hidle => exact absurd hidle hs
  | stop | halt => exact ⟨Int.le_refl _, hu, nofun⟩
  | proceed d hd =>
    obtain ⟨-, hlt, -⟩ := h.first hu hd
    exact ⟨Int.le_of_lt hlt, hu, hs⟩

end Sound

/-- A client that was stopped is handed nothing. -/
theorem next?_stopped (hs : w.client.state = .stopped) : w.next? = none := by
  cases hd : w.next? with
  | none => rfl
  | some d =>
    obtain ⟨-, -, hstate⟩ := next?_eq_some.1 hd
    exact absurd hs hstate

/-- A stopped client stays stopped and where it is, and nothing is handed over. -/
theorem act_stopped (handle : Handler η) (hs : w.client.state = .stopped) (e : Act) :
    (w.act handle e).client.state = .stopped ∧
      (w.act handle e).client.checkpoint = w.client.checkpoint ∧
      (w.act handle e).handed = w.handed := by
  have heffect := effect_act handle w e
  generalize w.act handle e = w' at heffect
  cases heffect with
  | keeps | rejects | skips | store | finish => exact ⟨hs, rfl, rfl⟩
  | configure tenant hidle | startFrom k tenant ht hidle =>
    rw [hs] at hidle
    cases hidle
  | poll items tenant ht hstate hr => exact absurd hs hstate
  | stop => exact ⟨rfl, rfl, rfl⟩
  | proceed d hd | retry d hd | halt d hd =>
    rw [next?_stopped hs] at hd
    cases hd

/-- What holds of a watch holds wherever it leads, if whatever happens keeps it. -/
theorem Leads.sound (hl : Leads handle w w') (h : w.Sound) : w'.Sound := by
  induction hl with
  | refl => exact h
  | act e _ he ih => exact ih.act he

theorem Reachable.act (h : w.Reachable handle) {e : Act} (he : w.Allows e) :
    (w.act handle e).Reachable handle := by
  obtain ⟨stored, handler, hascending, hleads⟩ := h
  exact ⟨stored, handler, hascending, .act e hleads he⟩

theorem Leads.checkpoint_le (hl : Leads handle w w') (h : w.Sound) (hu : w.disturbed = false)
    (hs : w.client.state ≠ .idle) : w.client.checkpoint ≤ w'.client.checkpoint ∧
      w'.disturbed = false ∧ w'.client.state ≠ .idle := by
  induction hl with
  | refl => exact ⟨Int.le_refl _, hu, hs⟩
  | act e hl _ ih =>
    obtain ⟨hle, hu', hs'⟩ := ih
    obtain ⟨hle', hnext⟩ := (hl.sound h).checkpoint_act hu' hs' e
    exact ⟨Int.le_trans hle hle', hnext⟩

theorem Leads.stopped (hl : Leads handle w w') (hs : w.client.state = .stopped) :
    w'.client.state = .stopped ∧ w'.client.checkpoint = w.client.checkpoint ∧
      w'.handed = w.handed := by
  induction hl with
  | refl => exact ⟨hs, rfl, rfl⟩
  | act e _ _ ih =>
    obtain ⟨hstate, hcheckpoint, hhanded⟩ := ih
    obtain ⟨hstate', hcheckpoint', hhanded'⟩ := act_stopped handle hstate e
    exact ⟨hstate', hcheckpoint'.trans hcheckpoint, hhanded'.trans hhanded⟩

/-- The watch at the end of a poll that nobody disturbs. -/
def polled (handle : Handler η) (items : List Item) (w : Watch η) : Watch η :=
  (Watch.pull handle)^[items.length + 1] (w.act handle (.poll items))

/-- Nothing is taken between polls. -/
theorem iterate_pull_none (hr : w.rest = none) (n : Nat) : (Watch.pull handle)^[n] w = w := by
  have hd : w.next? = none := by
    rw [next?, hr]
  have hpull : w.pull handle = w := by
    rw [pull_none hd, ← hr]
  exact Function.iterate_fixed hpull n

/-- Taking one item after the other is handing over what was read. -/
theorem iterate_pull (handle : Handler η) (items : List Item) (hr : w.rest = some items)
    (hs : w.client.state ≠ .stopped) :
    ∃ handed,
      handed.map Prod.fst = (PollClient.deliver handle w.handler w.client items).delivered ∧
      (Watch.pull handle)^[items.length + 1] w = { w with
        client := (PollClient.deliver handle w.handler w.client items).client
        handler := (PollClient.deliver handle w.handler w.client items).handler
        handed := w.handed ++ handed
        rest := none } := by
  induction items generalizing w with
  | nil =>
    have hd : w.next? = none := by rw [next?, hr]
    exact ⟨[], rfl, by simp [pull_none hd, PollClient.deliver]⟩
  | cons item items ih =>
    rw [List.length_cons, Function.iterate_succ_apply]
    cases item with
    | error e =>
      have hd : w.next? = none := by rw [next?, hr]
      rw [pull_none hd, iterate_pull_none rfl]
      exact ⟨[], rfl, by simp [PollClient.deliver]⟩
    | ok d =>
      have hd : w.next? = some d := next?_eq_some.2 ⟨items, hr, hs⟩
      rw [pull_some hd, PollClient.deliver]
      rcases handle w.handler d with ⟨verdict, handler⟩
      cases verdict with
      | proceed =>
        obtain ⟨w', hw'⟩ : ∃ w' : Watch η, w' = settle
          { w with handler := handler, handed := w.handed ++ [(d, .proceed)] } d .proceed :=
          ⟨_, rfl⟩
        have hr' : w'.rest = some items := by
          rw [hw', settle, hr]
          rfl
        obtain ⟨handed, hdelivered, he⟩ := ih hr' (by rw [hw']; exact hs)
        rw [← hw', he]
        subst hw'
        refine ⟨(d, .proceed) :: handed, congrArg (d :: ·) hdelivered, ?_⟩
        simp [settle]
      | retry =>
        rw [iterate_pull_none rfl]
        exact ⟨[(d, .retry)], rfl, rfl⟩
      | stop =>
        rw [iterate_pull_none rfl]
        exact ⟨[(d, .stop)], rfl, rfl⟩

/-- On any store a poll of the client comes to what pulling until the read has ended comes to. -/
theorem run_poll {σ : Type} (engine : Engine σ) (s : σ) (hr : w.rest = none)
    (hs : w.client.state ≠ .stopped) {tenant : String} (ht : w.client.tenant = some tenant)
    {items : List Item}
    (hitems : Feed.items (engine (.read (.after tenant w.client.checkpoint)) s).1.reply = items) :
    ((w.client.poll handle w.handler).run engine s).value
      = ⟨(w.polled handle items).client, (w.polled handle items).handler,
        ((w.polled handle items).handed.drop w.handed.length).map (·.1)⟩ := by
  obtain ⟨begun, hbegun⟩ : ∃ begun : Watch η, begun = { w with
      client := { w.client with active := true }
      rest := some items
      disturbed := w.disturbed && w.started.isSome } := ⟨_, rfl⟩
  have hbegin : w.act handle (.poll items) = begun :=
    hbegun ▸ if_pos ⟨hr, by simp [ht], hs⟩
  obtain ⟨handed, hdelivered, he⟩ := iterate_pull handle items
    (show begun.rest = some items from hbegun ▸ rfl)
    (show begun.client.state ≠ .stopped from hbegun ▸ hs)
  subst hbegun
  have hvalue : ((w.client.poll handle w.handler).run engine s).value
      = PollClient.deliver handle w.handler { w.client with active := true } items := by
    unfold PollClient.poll
    split
    · rename_i hnone
      cases ht.symm.trans hnone
    · rename_i tenant' hsome
      cases ht.symm.trans hsome
      rw [if_neg hs, ← hitems]
      rfl
  rw [hvalue, polled, hbegin, he]
  simp [hdelivered]

/-- The store in memory is a source as it is asked for here, also while it refuses reads. -/
theorem yields_memory (m : Memory) (tenant : String) (k : Int) :
    Yields (Ledger.After tenant k m.ledger.log) (m.read (.after tenant k)) := by
  unfold Memory.read
  split
  · exact ⟨[], _, rfl, .inr ⟨_, [], rfl⟩⟩
  · exact ⟨_, [], (List.append_nil _).symm, .inl ⟨rfl, rfl⟩⟩

/-- What a client is like that skips nothing and is handed nothing once it was stopped. -/
structure Follows (handle : Handler η) (w : Watch η) : Prop where
  /-- What comes of everything that happens. -/
  effect : ∀ e, Effect handle w e (w.act handle e)
  /-- The tenant can be chosen until polling is started. -/
  chooses : ∀ tenant, w.client.state = .idle →
    (w.act handle (.configure tenant)).client = { w.client with tenant := some tenant }
  /-- Polling is started after the checkpoint that is given. -/
  starts : ∀ k, w.client.tenant ≠ none → w.client.state = .idle →
    (w.act handle (.startFrom k)).client.checkpoint = k ∧
    (w.act handle (.startFrom k)).client.state = .running ∧
    (w.act handle (.startFrom k)).client.tenant = w.client.tenant ∧
    (w.act handle (.startFrom k)).started = some k ∧ (w.act handle (.startFrom k)).handed = []
  /-- From then on neither is changed again. -/
  fixed : w.client.state ≠ .idle → ∀ tenant k,
    w.act handle (.configure tenant) = w ∧ w.act handle (.startFrom k) = w
  /-- Once the client is told to stop, nothing is handed over any more. -/
  halts : ∀ w', Leads handle (w.act handle .stop) w' → w'.client.state = .stopped ∧
    w'.next? = none ∧ w'.client.checkpoint = w.client.checkpoint ∧ w'.handed = w.handed
  /-- A poll is disturbed if another tenant or another checkpoint is chosen before it has ended, and
  in no other way. -/
  disturbs : ∀ e, w.disturbed = false → (w.act handle e).disturbed = true →
    w.client.state = .idle ∧ w.rest ≠ none ∧
    ((∃ tenant, e = .configure tenant ∧ w.client.tenant ≠ some tenant) ∨
      ∃ k, e = .startFrom k ∧ w.client.checkpoint ≠ k)
  /-- So no poll is disturbed in a run in which all choices come between polls. -/
  calm : w.disturbed = false → ∀ es, w.Calm handle es →
    (es.foldl (Watch.act handle) w).disturbed = false
  /-- The checkpoint is that of the last commit handled since the start, or else the one started
  after, zero before the start. -/
  checkpoint : w.client.checkpoint
    = ((w.continued.getLast?).map (·.checkpoint)).getD (w.started.getD 0)
  /-- Once polling was started, the checkpoint never decreases. -/
  onward : w.disturbed = false → w.client.state ≠ .idle →
    ∀ w', Leads handle w w' → w.client.checkpoint ≤ w'.client.checkpoint
  /-- A commit that is handed over is the first of the tenant after the checkpoint. -/
  next : w.disturbed = false → ∀ d, w.next? = some d → w.client.tenant = some d.stream.tenant ∧
    w.client.checkpoint < d.checkpoint ∧ w.pending.head? = some d
  /-- Only this commit is handed over, and noted with the verdict; a start begins a new list. -/
  handed : ∀ e, (w.act handle e).handed = w.handed ∨
    (∃ k, e = .startFrom k ∧ (w.act handle e).handed = []) ∨
    ∃ d, w.next? = some d ∧
      (w.act handle e).handed = w.handed ++ [(d, (handle w.handler d).1)]
  /-- Since the start the commits up to the checkpoint were handled in order, and once each. -/
  once : w.disturbed = false → ∀ k, w.started = some k → ∃ tenant,
    w.client.tenant = some tenant ∧
    w.continued = (Ledger.After tenant k w.stored).filter (·.checkpoint ≤ w.client.checkpoint) ∧
    w.continued.Nodup
  /-- A commit that is to come again, or a fault, ends the poll, and nothing else changes for the
  client. -/
  again : ∀ d, w.next? = some d → (handle w.handler d).1 = .retry →
    (w.act handle .pull).rest = none ∧ (w.act handle .pull).client = w.client ∧
    (w.act handle .pull).stored = w.stored
  fault : ∀ e more, w.rest = some (.error e :: more) →
    (w.act handle .pull).rest = none ∧ (w.act handle .pull).client = w.client ∧
    (w.act handle .pull).stored = w.stored
  /-- A poll begins with the first commit after the checkpoint. -/
  begins : ∀ items d, w.rest = none → w.Allows (.poll items) →
    (w.act handle (.poll items)).next? = some d → w.pending.head? = some d
  /-- With the verdict to stop the client is stopped. -/
  stops : ∀ d, (d, .stop) ∈ w.handed → w.client.state = .stopped
  /-- A client that is stopped is handed nothing any more. -/
  stopped : w.client.state = .stopped →
    ∀ w', Leads handle w w' → w'.client.state = .stopped ∧ w'.handed = w.handed
  /-- Pulling until the read has ended is a poll of the client, on any store. -/
  poll : ∀ (σ : Type) (engine : Engine σ) (s : σ) tenant items,
    w.rest = none → w.client.state ≠ .stopped → w.client.tenant = some tenant →
    Feed.items (engine (.read (.after tenant w.client.checkpoint)) s).1.reply = items →
    ((w.client.poll handle w.handler).run engine s).value
      = ⟨(w.polled handle items).client, (w.polled handle items).handler,
        ((w.polled handle items).handed.drop w.handed.length).map (·.1)⟩

theorem act_configure (hs : w.client.state = .idle) (tenant : String) :
    (w.act handle (.configure tenant)).client = { w.client with tenant := some tenant } := by
  have heffect := effect_act handle w (.configure tenant)
  generalize w.act handle (.configure tenant) = w' at heffect
  cases heffect with
  | configure => rfl
  | keeps _ hnot => exact absurd hs hnot

theorem act_startFrom (ht : w.client.tenant ≠ none) (hs : w.client.state = .idle) (k : Int) :
    (w.act handle (.startFrom k)).client.checkpoint = k ∧
    (w.act handle (.startFrom k)).client.state = .running ∧
    (w.act handle (.startFrom k)).client.tenant = w.client.tenant ∧
    (w.act handle (.startFrom k)).started = some k ∧
    (w.act handle (.startFrom k)).handed = [] := by
  have heffect := effect_act handle w (.startFrom k)
  generalize w.act handle (.startFrom k) = w' at heffect
  cases heffect with
  | startFrom => exact ⟨rfl, rfl, rfl, rfl, rfl⟩
  | rejects _ h =>
    rcases h with hnone | hnot
    · exact absurd hnone ht
    · exact absurd hs hnot

/-- The tenant and the start stay once polling was started. -/
theorem act_fixed (hs : w.client.state ≠ .idle) (tenant : String) (k : Int) :
    w.act handle (.configure tenant) = w ∧ w.act handle (.startFrom k) = w := by
  constructor
  · have heffect := effect_act handle w (.configure tenant)
    generalize w.act handle (.configure tenant) = w' at heffect
    cases heffect with
    | configure _ hidle => exact absurd hidle hs
    | keeps => rfl
  · have heffect := effect_act handle w (.startFrom k)
    generalize w.act handle (.startFrom k) = w' at heffect
    cases heffect with
    | startFrom _ _ _ hidle => exact absurd hidle hs
    | rejects => rfl

/-- Told to stop, a client is handed nothing any more. -/
theorem leads_stop (hl : Leads handle (w.act handle .stop) w') : w'.client.state = .stopped ∧
    w'.next? = none ∧ w'.client.checkpoint = w.client.checkpoint ∧ w'.handed = w.handed := by
  obtain ⟨hstate, hcheckpoint, hhanded⟩ := hl.stopped rfl
  exact ⟨hstate, next?_stopped hstate, hcheckpoint, hhanded⟩

/-- A poll is disturbed by a choice that comes before its end. -/
theorem disturbs_act (e : Act) (hu : w.disturbed = false)
    (hd : (w.act handle e).disturbed = true) : w.client.state = .idle ∧ w.rest ≠ none ∧
      ((∃ tenant, e = .configure tenant ∧ w.client.tenant ≠ some tenant) ∨
        ∃ k, e = .startFrom k ∧ w.client.checkpoint ≠ k) := by
  have heffect := effect_act handle w e
  generalize w.act handle e = w' at heffect hd
  cases heffect with
  | configure tenant hs =>
    simp only [hu, Bool.false_or, Bool.and_eq_true, decide_eq_true_eq] at hd
    exact ⟨hs, Option.isSome_iff_ne_none.1 hd.1, .inl ⟨tenant, rfl, hd.2⟩⟩
  | startFrom k tenant ht hs =>
    simp only [hu, Bool.false_or, Bool.and_eq_true, decide_eq_true_eq] at hd
    exact ⟨hs, Option.isSome_iff_ne_none.1 hd.1, .inr ⟨k, rfl, hd.2⟩⟩
  | poll =>
    simp only [hu, Bool.false_and] at hd
    cases hd
  | store | keeps | rejects | skips | finish | proceed | retry | halt | stop =>
    rw [hu] at hd
    cases hd

/-- What is handed over is the next commit, and a start forgets what was. -/
theorem handed_act (handle : Handler η) (w : Watch η) (e : Act) :
    (w.act handle e).handed = w.handed ∨
      (∃ k, e = .startFrom k ∧ (w.act handle e).handed = []) ∨
      ∃ d, w.next? = some d ∧
        (w.act handle e).handed = w.handed ++ [(d, (handle w.handler d).1)] := by
  have heffect := effect_act handle w e
  generalize w.act handle e = w' at heffect
  cases heffect with
  | startFrom k => exact .inr (.inl ⟨k, rfl, rfl⟩)
  | proceed d hd hv | retry d hd hv | halt d hd hv => exact .inr (.inr ⟨d, hd, by rw [hv]⟩)
  | _ => exact .inl rfl

/-- A poll that begins is going to hand over the first commit that is still to be handled. -/
theorem begins_act (hrest : w.rest = none) (he : w.Allows (.poll items))
    (hd : (w.act handle (.poll items)).next? = some d) : w.pending.head? = some d := by
  have heffect := effect_act handle w (.poll items)
  generalize w.act handle (.poll items) = w' at heffect hd
  cases heffect with
  | skips =>
    rw [next?, hrest] at hd
    cases hd
  | poll =>
    obtain ⟨more, hitems, -⟩ := next?_eq_some.1 hd
    cases hitems
    obtain ⟨rest, hpending, -⟩ := he.begins.uncons
    rw [hpending]
    rfl

/-- Nothing disturbs the polls of a calm run. -/
theorem Calm.undisturbed {es : List Act} (h : w.Calm handle es) (hu : w.disturbed = false) :
    (es.foldl (Watch.act handle) w).disturbed = false := by
  induction es generalizing w with
  | nil => exact hu
  | cons e es ih =>
    refine ih h.2 ?_
    cases hd : (w.act handle e).disturbed with
    | false => rfl
    | true =>
      obtain ⟨-, hrest, ⟨tenant, rfl, -⟩ | ⟨k, rfl, -⟩⟩ := disturbs_act e hu hd
      · exact absurd (h.1 rfl) hrest
      · exact absurd (h.1 rfl) hrest

/-- **Polling skips nothing, and ends with the stop.**  Whatever happens to a client on a source
with ascending checkpoints, in any order, with any handler and with reads that may fail anywhere:
the commits after the start were handled in order and once each up to the checkpoint, and what comes
next is the first commit after it. Only a poll during which another tenant or another checkpoint is
chosen goes on with the commits that it was begun for. -/
theorem follows (hw : w.Reachable handle) : w.Follows handle := by
  obtain ⟨stored, handler, hascending, hleads⟩ := hw
  have h : w.Sound := hleads.sound ⟨hascending, rfl, nofun, nofun, nofun, nofun⟩
  exact {
    effect := effect_act handle w
    chooses := fun tenant hs => act_configure hs tenant
    starts := fun k ht hs => act_startFrom ht hs k
    fixed := act_fixed
    halts := fun w' hl => leads_stop hl
    disturbs := disturbs_act
    calm := fun hu es hes => hes.undisturbed hu
    checkpoint := h.checkpoint
    onward := fun hu hs w' hl => (hl.checkpoint_le h hu hs).1
    next := fun hu d hd => h.first hu hd
    handed := handed_act handle w
    once := fun hu k hk => h.once hu hk
    again := fun d hd hretry => by
      show (w.pull handle).rest = none ∧ (w.pull handle).client = _ ∧ (w.pull handle).stored = _
      rw [pull_some hd, hretry]
      exact ⟨rfl, rfl, rfl⟩
    fault := fun e more hrest => by
      have hd : w.next? = none := by rw [next?, hrest]
      show (w.pull handle).rest = none ∧ (w.pull handle).client = _ ∧ (w.pull handle).stored = _
      rw [pull_none hd]
      exact ⟨rfl, rfl, rfl⟩
    begins := fun items d hrest hallows hd => begins_act hrest hallows hd
    stops := h.stops
    stopped := fun hs w' hl => ⟨(hl.stopped hs).1, (hl.stopped hs).2.2⟩
    poll := fun σ engine s tenant items hr hs ht hitems => run_poll engine s hr hs ht hitems }

end Watch

/-- A client that was started after nothing, and whose handler continued with the first of two
commits and wants the second one again. -/
def retriedCommit : Watch ScriptedHandler :=
  let m := Memory.after [.commit (Memory.sampleAttempt "a" 1 2 2 1),
    .commit (Memory.sampleAttempt "b" 1 1 1 2)]
  let handle := ScriptedHandler.handle
  let w : Watch ScriptedHandler :=
    { stored := m.ledger.log, handler := ⟨[.proceed, .retry], [], .proceed⟩ }
  ((((w.act handle (.configure "tenant")).act handle (.startFrom 0)).act handle
    (.poll (m.read (.after "tenant" 0)))).act handle .pull).act handle .pull

theorem Watch.follows_retriedCommit :
    retriedCommit.Reachable ScriptedHandler.handle ∧
      retriedCommit.Follows ScriptedHandler.handle ∧ retriedCommit.disturbed = false ∧
      retriedCommit.handed.map (·.2) = [.proceed, .retry] ∧ retriedCommit.client.checkpoint = 1 := by
  have hreach : retriedCommit.Reachable ScriptedHandler.handle := by
    unfold retriedCommit
    refine ⟨_, _, ?_, .act _ (.act _ (.act _ (.act _ (.act _ .refl ?_) ?_) ?_) ?_) ?_⟩
    · exact (Memory.sound_after _).kept.ascending
    · exact trivial
    · exact trivial
    · exact yields_memory _ "tenant" 0
    · exact trivial
    · exact trivial
  exact ⟨hreach, follows hreach, by decide +kernel, by decide +kernel, by decide +kernel⟩

/-- A client that is idle and has taken the first commit of a poll of two. -/
def idlePoll : Watch ScriptedHandler :=
  let m := Memory.after [.commit (Memory.sampleAttempt "a" 1 2 2 1),
    .commit (Memory.sampleAttempt "b" 1 1 1 2)]
  let handle := ScriptedHandler.handle
  let w : Watch ScriptedHandler := { stored := m.ledger.log, handler := ⟨[], [], .proceed⟩ }
  ((w.act handle (.configure "tenant")).act handle
    (.poll (m.read (.after "tenant" 0)))).act handle .pull

theorem Watch.reachable_idlePoll : idlePoll.Reachable ScriptedHandler.handle := by
  unfold idlePoll
  refine ⟨_, _, ?_, .act _ (.act _ (.act _ .refl ?_) ?_) ?_⟩
  · exact (Memory.sound_after _).kept.ascending
  · exact trivial
  · exact yields_memory _ "tenant" 0
  · exact trivial

/-- A poll that was begun while the client was idle goes on when polling is started: after an
earlier checkpoint it leaves out a commit, after a later one it moves the checkpoint back. It also
goes on with the commits of its tenant when another one is chosen. -/
theorem Watch.disturbed_poll_goes_on :
    (∃ w : Watch ScriptedHandler, w.Reachable ScriptedHandler.handle ∧ w.started = some 0 ∧
      w.continued.map (·.checkpoint) = [2] ∧
      (w.stored.filter (·.checkpoint ≤ w.client.checkpoint)).map (·.checkpoint) = [1, 2]) ∧
    (∃ w : Watch ScriptedHandler, w.Reachable ScriptedHandler.handle ∧
      w.client.state = .running ∧ w.client.checkpoint = 5 ∧
      (w.act ScriptedHandler.handle .pull).client.checkpoint = 2) ∧
    ∃ (w : Watch ScriptedHandler) (d : Commit), w.Reachable ScriptedHandler.handle ∧
      w.client.tenant = some "other" ∧ w.next? = some d ∧ d.stream.tenant = "tenant" := by
  have hstart (k : Int) := reachable_idlePoll.act (e := .startFrom k) trivial
  have hpull := (hstart 0).act (e := .pull) trivial
  have hother := reachable_idlePoll.act (e := .configure "other") trivial
  refine ⟨⟨_, hpull, by decide +kernel, by decide +kernel, by decide +kernel⟩,
    ⟨_, hstart 5, by decide +kernel, by decide +kernel, by decide +kernel⟩,
    ⟨_, (Memory.sampleAttempt "b" 1 1 1 2).confirm 2, hother, by decide +kernel, ?_, rfl⟩⟩
  decide +kernel

end EventSourcing
