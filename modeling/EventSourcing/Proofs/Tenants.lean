import EventSourcing.Proofs.Parts

/-!
# Tenants do not influence each other

All tenants of a store share one log, one count of checkpoints and one index. Still, what a run
answers to one tenant is what it answers when the operations on all other tenants are erased from
it, but for the checkpoints, which are renumbered by a strictly increasing function
(`Memory.tenants_independent`). Streams of one name and commits of one id make no difference, since
the two stores are compared by the streams of the tenant only.

The store of the erased run has the streams of the tenant (`Memory.Mirrors`). An operation on the
tenant is a step of both runs, one on another tenant a step of the longer run alone. The second kind
may move the next checkpoint of the longer run, so the renumbering is found along the run: what it
says of the checkpoints given out so far is never changed (`Memory.Mirrors.exists_renumber`), and
answers tell of no others (`Memory.Reachable.commits_le`).
-/

namespace EventSourcing

/-- A read by checkpoints that starts before the first one, or any other operation. -/
def Operation.FromStart : Operation → Prop
  | .read (.after _ checkpoint) => checkpoint = 0
  | _ => True

instance : DecidablePred Operation.FromStart
  | .read (.after _ checkpoint) => inferInstanceAs (Decidable (checkpoint = 0))
  | .commit _ | .read (.revisions ..) | .read (.during ..) | .snapshot .. | .addSnapshot _
  | .streamsToSnapshot .. | .setUp | .dropStore | .purge _ | .purgeAll | .deleteStream _ =>
    .isTrue trivial

theorem Operation.FromStart.renumber_eq {op : Operation} {g : Int → Int} (h : op.FromStart)
    (hg : g 0 = 0) : op.renumber g = op := by
  cases op with
  | read q =>
    cases q with
    | after t k =>
      obtain rfl : k = 0 := h
      exact congrArg (fun k => Operation.read (.after t k)) hg
    | revisions | during => rfl
  | _ => rfl

namespace Memory

variable {m part whole : Memory} {g : Int → Int}

namespace Reachable

/-- An answer tells of commits under checkpoints that were given out. -/
theorem commits_le (h : Reachable m) (op : Operation) :
    ∀ c ∈ (op.plain (engine op m).1.reply).commits,
      c.checkpoint ≤ (engine op m).2.ledger.lastCheckpoint := by
  intro c hc
  cases op with
  | commit a =>
    show c.checkpoint ≤ (Memory.commit a m).2.ledger.lastCheckpoint
    change c ∈ (PlainReply.commit (Memory.commit a m).1).commits at hc
    obtain he | ⟨hsame, he | ⟨d, hd, -, he⟩ | ⟨e, hne, he⟩⟩ := commit_cases h.kept a
    · rw [he] at hc ⊢
      rw [List.mem_singleton.1 hc]
      exact Int.le_refl _
    · rw [he] at hc
      exact absurd hc List.not_mem_nil
    · rw [he] at hc
      rw [hsame, List.mem_singleton.1 hc]
      exact (h.kept.checkpoints d (Ledger.mem_ofStream.1 hd).1).2
    · rw [he] at hc
      cases e with
      | duplicate d => exact absurd rfl (hne d)
      | _ => exact absurd hc List.not_mem_nil
  | read q =>
    rw [plain_read] at hc
    obtain ⟨i, hi, hc⟩ := List.mem_flatMap.1 hc
    unfold Memory.read at hi
    split at hi
    · rw [List.mem_singleton.1 hi] at hc
      exact absurd hc List.not_mem_nil
    · obtain ⟨d, hd, rfl⟩ := List.mem_map.1 hi
      rw [List.mem_singleton.1 hc]
      exact (h.kept.checkpoints d (Ledger.mem_read.1 hd).1).2
  | _ => exact absurd hc List.not_mem_nil

/-- Checkpoints count up, as long as the store is not dropped. -/
theorem lastCheckpoint_le (h : Reachable m) {op : Operation} (hop : op ≠ .dropStore) :
    m.ledger.lastCheckpoint ≤ (engine op m).2.ledger.lastCheckpoint := by
  cases op with
  | commit a =>
    show _ ≤ (Memory.commit a m).2.ledger.lastCheckpoint
    obtain he | ⟨he, -⟩ := commit_cases h.kept a
    · rw [he]
      exact Int.le_add_one (Int.le_refl _)
    · exact Int.le_of_eq (by rw [he])
  | addSnapshot u =>
    show _ ≤ (m.ledger.addSnapshot u).2.lastCheckpoint
    obtain ⟨-, he⟩ | ⟨-, he⟩ := h.kept.addSnapshot_cases u
    · exact Int.le_of_eq (by rw [he])
    · exact Int.le_of_eq (by rw [he]; rfl)
  | dropStore => exact absurd rfl hop
  | _ => exact Int.le_refl _

end Reachable

/-- What a run answers to a tenant, if a store has the streams of that tenant and the run goes on
there without the other tenants. -/
theorem Mirrors.exists_renumber {t : String} {ops : List Operation}
    (h : Mirrors (fun s => s.tenant = t) g part whole) (h0 : g 0 = 0)
    (hops : ∀ op ∈ ops, op.tenant?.isSome = true ∧ op.FromStart) :
    ∃ f, (∀ i ≤ part.ledger.lastCheckpoint, f i = g i) ∧
      (∀ i j, i < j → f i < f j) ∧
      engine.repliesWhere (·.tenant? = some t) whole ops
        = (engine.replies part (ops.filter (·.tenant? = some t))).map (.renumber f) := by
  -- by induction on the run: what `g` says of the checkpoints that the part has given out is final
  induction ops generalizing g part whole with
  | nil => exact ⟨g, fun _ _ => rfl, h.ledger.mono, rfl⟩
  | cons op ops ih =>
    obtain ⟨⟨hsome, hstart⟩, hops⟩ := List.forall_mem_cons.1 hops
    rw [Engine.repliesWhere_cons, List.filter_cons]
    by_cases ht : op.tenant? = some t
    · have hstream : ∀ s ∈ op.stream?, decide (s.tenant = t) = true := fun s hs =>
        decide_eq_true (Option.some.inj ((Operation.tenant?_of_stream? hs).symm.trans ht))
      have hdrop : op ≠ .dropStore := by
        rintro rfl
        exact nomatch ht
      obtain ⟨he, hnext⟩ := h.step hstream fun heq => absurd heq hdrop
      rw [hstart.renumber_eq h0] at he hnext
      rw [leaveOut_eq_self whole fun _ s hs => by
        simp [Option.some.inj (hs.symm.trans ht)]] at he
      obtain ⟨f, hf, hmono, hrest⟩ := ih hnext h0 hops
      have hle := h.partReached.lastCheckpoint_le hdrop
      refine ⟨f, fun i hi => hf i (Int.le_trans hi hle), hmono, ?_⟩
      have hreply := PlainReply.renumber_congr fun c hc =>
        (hf c.checkpoint (h.partReached.commits_le op c hc)).symm
      rw [if_pos (decide_eq_true ht), if_pos (decide_eq_true ht), Engine.replies_cons, List.map_cons,
        ← hreply, ← he, hrest]
      rfl
    · obtain ⟨u, hu⟩ := Option.isSome_iff_exists.1 hsome
      have hut : u ≠ t := fun heq => ht (heq ▸ hu)
      obtain ⟨f, hf, hnext⟩ := h.aside hu fun s hs => decide_eq_false (hs ▸ hut)
      obtain ⟨f', hf', hmono, hrest⟩ := ih hnext ((hf 0 h.partReached.nonneg).trans h0) hops
      refine ⟨f', fun i hi => (hf' i hi).trans (hf i hi), hmono, ?_⟩
      have hno : ¬ decide (op.tenant? = some t) = true := mt of_decide_eq_true ht
      rw [if_neg hno, if_neg hno, List.nil_append, hrest]

/-- **Tenants do not influence each other.**  What a run of operations on tenants answers to one of
them is what it answers without the operations on all others, but for the checkpoints, which are
renumbered by a strictly increasing function. -/
theorem tenants_independent (ops : List Operation)
    (hops : ∀ op ∈ ops, op.tenant?.isSome = true ∧ op.FromStart) (t : String) :
    ∃ g : Int → Int, (∀ i j, i < j → g i < g j) ∧
      engine.repliesWhere (·.tenant? = some t) empty ops
        = (engine.replies empty (ops.filter (·.tenant? = some t))).map (.renumber g) := by
  have h : Mirrors (fun s => s.tenant = t) id empty empty :=
    ⟨.empty, .empty, rfl, rfl, .empty _ (fun _ _ h => h) fun _ _ => rfl⟩
  obtain ⟨g, -, hmono, hreplies⟩ := h.exists_renumber rfl hops
  exact ⟨g, hmono, hreplies⟩

/-- Two tenants write a stream of one name, with commits of one id, in turn; the first one takes a
snapshot, both read, and the other one is purged before the first one writes again. -/
def twoTenants : List Operation :=
  [.commit { sampleAttempt "a" 1 1 1 1 with stream := ⟨"other", "a"⟩ },
    .commit (sampleAttempt "a" 1 2 2 1),
    .addSnapshot ⟨⟨"tenant", "a"⟩, 2, ⟨"state", .null⟩⟩,
    .commit { sampleAttempt "a" 2 2 1 2 with stream := ⟨"other", "a"⟩ },
    .read (.after "other" 0), .read (.during "tenant" ⟨0⟩ none), .purge "other",
    .commit (sampleAttempt "a" 2 3 1 2), .commit (sampleAttempt "a" 3 4 1 1),
    .read (.after "tenant" 0), .streamsToSnapshot "tenant" 0]

theorem tenants_independent_twoTenants :
    (∀ op ∈ twoTenants, op.tenant?.isSome = true ∧ op.FromStart) ∧
      (∃ g : Int → Int, (∀ i j, i < j → g i < g j) ∧
        engine.repliesWhere (·.tenant? = some "tenant") empty twoTenants
          = (engine.replies empty
              (twoTenants.filter (·.tenant? = some "tenant"))).map (.renumber g)) ∧
      (after twoTenants).ledger.log.map (·.checkpoint) = [2, 4] ∧
      (after (twoTenants.filter (·.tenant? = some "tenant"))).ledger.log.map (·.checkpoint)
        = [1, 2] := by
  have hops : ∀ op ∈ twoTenants, op.tenant?.isSome = true ∧ op.FromStart := by decide
  exact ⟨hops, tenants_independent twoTenants hops "tenant", by decide +kernel, by decide +kernel⟩

end Memory
end EventSourcing
