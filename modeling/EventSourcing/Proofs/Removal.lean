import EventSourcing.Proofs.Parts

/-!
# Removing is exact

Deleting a stream, or purging a tenant, takes from a store what was written there and nothing else.
`Memory.without r m` is the store after such a removal. It is compared with two others
(`Memory.Reachable.without_exact`): with the store `m` itself, of which it has all streams that were
not removed, so that whatever follows is answered as if nothing had been removed, but for the
removed entries in what reads of a whole tenant show; and with a store in which nothing was ever
written, which has of it the removed streams, so that whatever follows on these is answered as on
new ones, under checkpoints that count on.
-/

namespace EventSourcing

/-- What is removed: one stream, or every stream of a tenant. -/
inductive Removal where
  | stream (stream : StreamId)
  | tenant (tenant : String)

/-- Counting back and on again leaves an operation as it is. -/
theorem Operation.renumber_shift (op : Operation) (k : Int) :
    (op.renumber (· - k)).renumber (· + k) = op := by
  have hid : ((· + k) ∘ (· - k) : Int → Int) = id := funext fun i => Int.sub_add_cancel i k
  rw [renumber_renumber, hid, renumber_id]

namespace Removal

/-- The operation that removes it. -/
def operation : Removal → Operation
  | .stream s => .deleteStream s
  | .tenant t => .purge t

/-- Whether a stream is removed. -/
def covers : Removal → StreamId → Bool
  | .stream s, r => r = s
  | .tenant t, r => r.tenant = t

/-- An operation that addresses the stream, or the tenant, that is removed. -/
def Addresses : Removal → Operation → Prop
  | .stream s, op => op.stream? = some s
  | .tenant t, op => op.tenant? = some t

instance (r : Removal) : DecidablePred r.Addresses := fun op =>
  match r with
  | .stream s => inferInstanceAs (Decidable (op.stream? = some s))
  | .tenant t => inferInstanceAs (Decidable (op.tenant? = some t))

variable {r : Removal} {op : Operation} {s : StreamId}

/-- An operation on a stream that addresses what is removed addresses a removed stream. -/
theorem Addresses.covers (h : r.Addresses op) (hs : op.stream? = some s) : r.covers s = true := by
  cases r with
  | stream q => exact decide_eq_true (Option.some.inj (hs.symm.trans h))
  | tenant t =>
    exact decide_eq_true (Option.some.inj ((Operation.tenant?_of_stream? hs).symm.trans h))

/-- An operation on a whole tenant that addresses what is removed sees removed streams only. -/
theorem Addresses.covers_of_tenant (h : r.Addresses op) (hop : op.stream? = none)
    (hs : op.tenant? = some s.tenant) : r.covers s = true := by
  cases r with
  | stream q => exact nomatch h.symm.trans hop
  | tenant t => exact decide_eq_true (Option.some.inj (hs.symm.trans h))

theorem Addresses.ne_dropStore (h : r.Addresses op) : op ≠ .dropStore := by
  rintro rfl
  cases r <;> exact nomatch h

end Removal

namespace Memory

variable {m : Memory}

/-- The store after a removal. -/
def without (r : Removal) (m : Memory) : Memory := (engine r.operation m).2

/-- A store in which nothing was ever written, with the switches of another one. -/
def unwritten (m : Memory) : Memory := { m with ledger := {} }

theorem without_eq (r : Removal) (m : Memory) :
    m.without r = { m with ledger := m.ledger.retain fun s => !r.covers s } := by
  have hretain {keep stay : StreamId → Bool} (h : keep = stay) :
      { m with ledger := m.ledger.retain keep } = { m with ledger := m.ledger.retain stay } := by
    rw [h]
  cases r with
  | stream s => exact hretain (funext fun _ => decide_not)
  | tenant t => exact hretain (funext fun _ => decide_not)

namespace Reachable

/-- A store after a removal has of the store before it the streams that are left. -/
theorem mirrors_without (h : Reachable m) (r : Removal) :
    Mirrors (fun s => !r.covers s) id (m.without r) m where
  partReached := h.step _
  wholeReached := h
  reads := (engine_switches ..).1
  commits := (engine_switches ..).2
  ledger := without_eq r m ▸ .retain_self _ _

/-- A store in which nothing was written has of a store after a removal the removed streams. -/
theorem unwritten_mirrors (h : Reachable m) (r : Removal) :
    Mirrors r.covers (· + m.ledger.lastCheckpoint) m.unwritten (m.without r) where
  partReached := .switch _ _ .empty
  wholeReached := h.step _
  reads := (engine_switches r.operation m).1.symm
  commits := (engine_switches r.operation m).2.symm
  ledger := by
    have hempty := Ledger.Mirrors.empty_retain m.ledger fun s => !r.covers s
    simp only [Bool.not_not] at hempty
    exact without_eq r m ▸ hempty

/-- **Removing is exact.**  After a stream was deleted, or a tenant purged, in any reachable store:

* a run that does not address a removed stream is answered as by the store before the removal, but
  that reads of a whole tenant lack the removed entries;
* a run that addresses only what was removed is answered as by a store in which nothing was ever
  written, but under checkpoints that count on from the last one. -/
theorem without_exact (h : Reachable m) (r : Removal) (later : List Operation) :
    ((∀ op ∈ later, ∀ s ∈ op.stream?, r.covers s = false) →
      engine.replies (m.without r) later
        = List.zipWith (Operation.leaveOut r.covers) later (engine.replies m later)) ∧
    ((∀ op ∈ later, r.Addresses op) →
      engine.replies (m.without r) later
        = (engine.replies m.unwritten
            (later.map (.renumber (· - m.ledger.lastCheckpoint)))).map
          (.renumber (· + m.ledger.lastCheckpoint))) := by
  constructor
  · intro hlater
    have hreplies := (h.mirrors_without r).replies_eq later
      (fun op hop s hs => congrArg not (hlater op hop s hs)) fun _ _ _ => rfl
    simp only [Bool.not_not, funext Operation.renumber_id, funext PlainReply.renumber_id,
      List.map_id'] at hreplies
    exact hreplies.symm
  · intro hlater
    generalize hk : m.ledger.lastCheckpoint = k
    have hops : (later.map (.renumber (· - k))).map (.renumber (· + k)) = later := by
      rw [List.map_map]
      exact (List.map_congr_left fun op _ => op.renumber_shift k).trans (List.map_id later)
    have hreplies := (hk ▸ h.unwritten_mirrors r).replies_eq (later.map (.renumber (· - k)))
      (fun op hop s hs => by
        obtain ⟨op, hmem, rfl⟩ := List.mem_map.1 hop
        rw [Operation.stream?_renumber] at hs
        exact (hlater op hmem).covers hs)
      (fun hop => by
        obtain ⟨op, hmem, hdrop⟩ := List.mem_map.1 hop
        refine absurd ?_ (hlater op hmem).ne_dropStore
        rw [← op.renumber_shift k, hdrop]
        rfl)
    rw [hops] at hreplies
    rw [← hreplies]
    exact (zipWith_leaveOut_eq_self fun op hop hstream s hs =>
      congrArg not ((hlater op hop).covers_of_tenant hstream hs)).symm

end Reachable

/-- Two streams with commits of one id, and a snapshot of the first one. -/
def twoStreams : List Operation :=
  [.commit (sampleAttempt "a" 1 2 2 1), .commit (sampleAttempt "b" 1 1 1 1),
    .commit (sampleAttempt "a" 2 3 1 2), .addSnapshot ⟨⟨"tenant", "a"⟩, 2, ⟨"state", .null⟩⟩]

/-- The second stream goes on, and one of its commits is sent again; the tenant is read. -/
def elsewhere : List Operation :=
  [.commit (sampleAttempt "b" 2 2 1 3), .commit (sampleAttempt "b" 1 1 1 1),
    .read (.after "tenant" 0), .streamsToSnapshot "tenant" 0]

/-- The first stream is read and begins again, with an id that it had. -/
def again : List Operation :=
  [.read (.revisions ⟨"tenant", "a"⟩ 0 9), .snapshot ⟨"tenant", "a"⟩ 9,
    .commit (sampleAttempt "a" 1 1 1 2)]

theorem without_exact_twoStreams :
    Reachable (after twoStreams) ∧
      (∀ op ∈ elsewhere, ∀ s ∈ op.stream?,
        (Removal.stream ⟨"tenant", "a"⟩).covers s = false) ∧
      engine.replies ((after twoStreams).without (.stream ⟨"tenant", "a"⟩)) elsewhere
        = List.zipWith (Operation.leaveOut (Removal.stream ⟨"tenant", "a"⟩).covers) elsewhere
          (engine.replies (after twoStreams) elsewhere) ∧
      (∀ op ∈ again, (Removal.stream ⟨"tenant", "a"⟩).Addresses op) ∧
      engine.replies ((after twoStreams).without (.stream ⟨"tenant", "a"⟩)) again
        = (engine.replies (after twoStreams).unwritten
            (again.map (.renumber (· - (after twoStreams).ledger.lastCheckpoint)))).map
          (.renumber (· + (after twoStreams).ledger.lastCheckpoint)) ∧
      engine.replies ((after twoStreams).without (.stream ⟨"tenant", "a"⟩)) again
        = [.read [], .snapshot (.ok none),
          .commit (.ok (some ((sampleAttempt "a" 1 1 1 2).confirm 4)))] := by
  have helsewhere : ∀ op ∈ elsewhere, ∀ s ∈ op.stream?,
      (Removal.stream ⟨"tenant", "a"⟩).covers s = false := by decide
  have hagain : ∀ op ∈ again, (Removal.stream ⟨"tenant", "a"⟩).Addresses op := by decide
  have hreachable := reachable_after twoStreams
  exact ⟨hreachable, helsewhere, (hreachable.without_exact _ elsewhere).1 helsewhere, hagain,
    (hreachable.without_exact _ again).2 hagain, rfl⟩

end Memory
end EventSourcing
