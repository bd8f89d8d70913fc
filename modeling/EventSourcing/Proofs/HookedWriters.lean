import EventSourcing.Proofs.HookedHandles
import EventSourcing.Proofs.Upconversion

/-!
# Writers behind hooks

Writers take turns as in `World`, on a store behind hooks that neither veto nor fail, each with a
handle on a whole stream. A `Chronicle` is a world together with the commits that each writer has
stored, and in every reachable one each handle follows its stream (`Chronicle.Sound`).

Two things are read off. Behind an upconverter a handle shows what others wrote in its current kinds
and what it wrote itself in the kinds that it was written with (`Chronicle.shows_current_iff`). And
after a conflict a handle stands at the head of its stream if and only if the hooks show the last
commit of it; otherwise whatever it stages next is refused in the same way
(`Chronicle.catches_up_behind_hooks`).
-/

namespace EventSourcing

/-- A handle on a whole stream shows what the hooks show of it. -/
theorem Handle.run_openWindow_behind {hooks : List Hook} (hl : ∀ k ∈ hooks, k.Lenient) {m : Memory}
    (hk : m.ledger.Kept) (hr : m.readsDisabled = false)
    (hb : ∀ c ∈ m.ledger.log, c.revision < maxRevision) (s : StreamId) :
    ∃ read hidden g, (∀ c ∈ hidden, Hook.view hooks c = none) ∧
      ((openWindow s 0 maxRevision).run (Hook.store hooks Memory.engine) m).value = .ok g ∧
      g.Follows hooks [] m.ledger read hidden ∧ g.stream = s := by
  have hread : m.ledger.read (.revisions s 0 maxRevision) = m.ledger.ofStream s := by
    rw [Ledger.read_revisions]
    refine List.filter_eq_self.2 fun c _ => ?_
    simpa using c.firstRevision_le_max
  obtain ⟨read, hidden, -, hhidden, -, g, hg, hfollows, hstream, -⟩ :=
    (Follows.create s).merged hl hk (hk.length_eventsOf_lt hb s) (Nat.zero_le _)
  refine ⟨read, hidden, g, hhidden, ?_, hfollows, hstream⟩
  rw [run_openWindow_eq, Hook.read_eq hl hr, collectItems_ok, hread, opened, ← hg]
  rfl

/-- A handle on a whole stream. -/
def Opening.Full : Opening → Prop
  | .create _ => True
  | .window _ first last => first = 0 ∧ last = maxRevision
  | .fromSnapshot .. => False

/-- A handle that was opened on a whole stream follows it. -/
theorem Opening.opened_follows {hooks : List Hook} (hl : ∀ k ∈ hooks, k.Lenient) {m : Memory}
    {o : Opening} {g : Handle} (hk : m.ledger.Kept) (hr : m.readsDisabled = false)
    (hb : ∀ c ∈ m.ledger.log, c.revision < maxRevision) (ho : o.Full)
    (hopen : (o.program.run (Hook.store hooks Memory.engine) m).value = .ok g) :
    ∃ upto rest, g.Follows hooks [] m.ledger upto rest := by
  cases o with
  | create s =>
    obtain rfl : Handle.create s = g := Except.ok.inj hopen
    exact ⟨[], m.ledger.ofStream s, .create s⟩
  | window s first last =>
    obtain ⟨rfl, rfl⟩ := ho
    obtain ⟨read, hidden, g', -, hvalue, hg, -⟩ := Handle.run_openWindow_behind hl hk hr hb s
    cases hvalue.symm.trans hopen
    exact ⟨read, hidden, hg⟩
  | fromSnapshot t last => exact absurd ho id

namespace World

/-- A new writer opens a handle on a store, if it can be opened. -/
def joinOn (engine : Engine Memory) (w : World) (o : Opening) : World :=
  match (o.program.run engine w.memory).value with
  | .ok h => { w with clients := w.clients ++ [⟨o.base, h, none⟩] }
  | .error _ => w

/-- The world after a turn, where all calls are made to a store that keeps its commits in memory. -/
def turnOn (engine : Engine Memory) (w : World) : Turn → World
  | .perform op => { w with memory := (engine op w.memory).2 }
  | .join o => w.joinOn engine o
  | .stage i s => w.idle i fun c => { c with handle := s.apply c.handle }
  | .begin i id stamp =>
    w.idle i fun c => { c with pending := some (c.handle.commitChanges id stamp) }
  | .advance i => (w.advanceOn engine i).1

/-- On the store in memory itself turns are those of `World`. -/
theorem turnOn_memory (w : World) (t : Turn) : w.turnOn Memory.engine t = w.turn t := by
  cases t <;> rfl

end World

/-- A world, and the commits that the calls of each writer have added to the log. -/
structure Chronicle where
  world : World
  own : Nat → List Commit := fun _ => []

namespace Chronicle

/-- The commits that a turn adds to the log. -/
def added (hooks : List Hook) (r : Chronicle) (t : Turn) : List Commit :=
  (r.world.turnOn (Hook.store hooks Memory.engine) t).memory.ledger.log.drop
    r.world.memory.ledger.log.length

/-- The chronicle after a turn behind hooks. -/
def turn (hooks : List Hook) (r : Chronicle) (t : Turn) : Chronicle where
  world := r.world.turnOn (Hook.store hooks Memory.engine) t
  own := match t with
    | .advance i => fun k => if k = i then r.own k ++ r.added hooks t else r.own k
    | _ => r.own

/-- Nothing is deleted, and handles are opened on whole streams. -/
def Allows : Turn → Prop
  | .perform op => op.Additive
  | .join o => o.Full
  | _ => True

/-- The chronicles that turns behind hooks lead to, from a store with any past. -/
inductive Reachable (hooks : List Hook) : Chronicle → Prop
  | start (ops : List Operation) (hb : World.Below ⟨Memory.after ops, []⟩) :
    Reachable hooks { world := ⟨Memory.after ops, []⟩ }
  | turn {r : Chronicle} (t : Turn) (hr : Reachable hooks r) (ht : Allows t)
    (hb : (r.turn hooks t).world.Below) : Reachable hooks (r.turn hooks t)

/-- What is true of every reachable chronicle. -/
structure Sound (hooks : List Hook) (r : Chronicle) : Prop where
  memory : ∃ tokens, r.world.memory.Sound tokens
  below : r.world.Below
  tracks : ∀ (i : Nat) (c : Client), r.world.clients[i]? = some c → ∃ upto rest,
    c.handle.Follows hooks (r.own i) r.world.memory.ledger upto rest
  pends : ∀ (i : Nat) (c : Client) p, r.world.clients[i]? = some c → c.pending = some p →
    c.handle.Pends r.world.memory.ledger p
  unused : ∀ i, r.world.clients.length ≤ i → r.own i = []

namespace Sound

variable {hooks : List Hook} {r : Chronicle}

/-- A change of one writer and of its own commits. -/
theorem set (h : r.Sound hooks) {i : Nat} {c d : Client} (hc : r.world.clients[i]? = some c)
    {own : Nat → List Commit} (hown : ∀ k, k ≠ i → own k = r.own k)
    (hf : ∃ upto rest, d.handle.Follows hooks (own i) r.world.memory.ledger upto rest)
    (hp : ∀ p, d.pending = some p → d.handle.Pends r.world.memory.ledger p) :
    Sound hooks ⟨{ r.world with clients := r.world.clients.set i d }, own⟩ where
  memory := h.memory
  below := h.below
  tracks k e he := by
    rcases World.of_getElem?_set he with ⟨rfl, rfl⟩ | ⟨hk, he⟩
    · exact hf
    · show ∃ upto rest, e.handle.Follows hooks (own k) _ upto rest
      rw [hown k hk]
      exact h.tracks k e he
  pends k e p he hpe := by
    rcases World.of_getElem?_set he with ⟨-, rfl⟩ | ⟨-, he⟩
    exacts [hp p hpe, h.pends k e p he hpe]
  unused k hk := by
    have hk' : r.world.clients.length ≤ k := by rwa [List.length_set] at hk
    obtain ⟨hi, -⟩ := List.getElem?_eq_some_iff.1 hc
    exact (hown k (by omega)).trans (h.unused k hk')

/-- A change of the store by which its streams grow. -/
theorem grow (h : r.Sound hooks) {m : Memory} (hm : ∃ tokens, m.Sound tokens)
    (hb : World.Below { r.world with memory := m }) (hl : r.world.memory.ledger.Grows m.ledger) :
    Sound hooks ⟨{ r.world with memory := m }, r.own⟩ where
  memory := hm
  below := hb
  tracks i c hc := by
    obtain ⟨upto, rest, hf⟩ := h.tracks i c hc
    exact ⟨upto, hf.mono hl⟩
  pends i c p hc hp := (h.pends i c p hc hp).mono hl
  unused := h.unused

/-- A turn that only changes writers without a commit under way. -/
theorem idle (h : r.Sound hooks) (i : Nat) {f : Client → Client}
    (hf : ∀ c, c.pending = none →
      (∀ own upto rest, c.handle.Follows hooks own r.world.memory.ledger upto rest →
        (f c).handle.Follows hooks own r.world.memory.ledger upto rest) ∧
      ∀ p, (f c).pending = some p → (f c).handle.Pends r.world.memory.ledger p) :
    Sound hooks ⟨r.world.idle i f, r.own⟩ := by
  unfold World.idle
  split
  · rename_i c hc
    split
    · rename_i hidle
      obtain ⟨hstays, hp⟩ := hf c (Option.isNone_iff_eq_none.1 hidle)
      obtain ⟨upto, rest, hfollows⟩ := h.tracks i c hc
      exact h.set hc (fun _ _ => rfl) ⟨upto, rest, hstays _ _ _ hfollows⟩ hp
    · exact h
  · exact h

/-- A handle on a whole stream joins with what it was shown. -/
theorem join (hl : ∀ k ∈ hooks, k.Lenient) (h : r.Sound hooks) {o : Opening} (ho : o.Full) :
    Sound hooks ⟨r.world.joinOn (Hook.store hooks Memory.engine) o, r.own⟩ := by
  obtain ⟨ts, hs⟩ := h.memory
  unfold World.joinOn
  cases hopen : (o.program.run (Hook.store hooks Memory.engine) r.world.memory).value with
  | error e => exact h
  | ok g =>
    have hg : ∃ upto rest, g.Follows hooks [] r.world.memory.ledger upto rest :=
      o.opened_follows hl hs.kept hs.reads h.below ho hopen
    -- the new writer has the next position, at which nobody has stored anything
    have hcases (i : Nat) (c : Client)
        (hc : (r.world.clients ++ [⟨o.base, g, none⟩])[i]? = some c) :
        r.world.clients[i]? = some c ∨ r.own i = [] ∧ c = ⟨o.base, g, none⟩ := by
      rcases lt_or_ge i r.world.clients.length with hi | hi
      · rw [List.getElem?_append_left hi] at hc
        exact .inl hc
      · rw [List.getElem?_append_right hi] at hc
        exact .inr ⟨h.unused i hi, List.mem_singleton.1 (List.mem_of_getElem? hc)⟩
    refine ⟨h.memory, h.below, fun i c hc => ?_, fun i c p hc hp => ?_, fun i hi => ?_⟩
    · obtain hold | ⟨hown, rfl⟩ := hcases i c hc
      · exact h.tracks i c hold
      · show ∃ upto rest, g.Follows hooks (r.own i) _ upto rest
        rw [hown]
        exact hg
    · obtain hold | ⟨-, rfl⟩ := hcases i c hc
      · exact h.pends i c p hold hp
      · cases hp
    · refine h.unused i ?_
      rw [List.length_append] at hi
      omega

/-- What the call of a commit under way comes to, and the chronicle after it. -/
theorem advance (hl : ∀ k ∈ hooks, k.Lenient) (h : r.Sound hooks) (i : Nat)
    (hb : (r.turn hooks (.advance i)).world.Below) :
    (r.turn hooks (.advance i)).Sound hooks ∧
      (r.world.advanceOn (Hook.store hooks Memory.engine) i = (r.world, none) ∨
        ∃ c p', r.world.clients[i]? = some c ∧
          c.handle.Proceeds hooks (r.own i) r.world.memory p'
            (r.turn hooks (.advance i)).world.memory ∧
          (p'.result? = none →
            (r.world.advanceOn (Hook.store hooks Memory.engine) i).2 = none) ∧
          ∀ g answer, p'.result? = some (g, answer) →
            (r.world.advanceOn (Hook.store hooks Memory.engine) i).2 = some answer ∧
            (r.turn hooks (.advance i)).world.clients[i]?
              = some { c with handle := g, pending := none }) := by
  obtain ⟨ts, hs⟩ := h.memory
  have hallows : ∀ k ∈ hooks, ∀ a, k.allows a = true := fun k hk => (hl k hk).allows
  have hturn : r.turn hooks (.advance i)
      = ⟨(r.world.advanceOn (Hook.store hooks Memory.engine) i).1, fun k => if k = i then r.own k ++
          (r.world.advanceOn (Hook.store hooks Memory.engine) i).1.memory.ledger.log.drop
            r.world.memory.ledger.log.length else r.own k⟩ := rfl
  -- where nothing is added to the log, the commits of the writer are the same
  have hnil : r.own i ++ r.world.memory.ledger.log.drop r.world.memory.ledger.log.length
      = r.own i := by rw [List.drop_length, List.append_nil]
  rw [hturn] at hb ⊢
  obtain hnone | ⟨c, p, hc, hp, hmemory, hmore, hlast⟩ :=
    r.world.advanceOn_cases (Hook.store hooks Memory.engine) i
  · have hown : (fun k => if k = i then r.own k ++
        r.world.memory.ledger.log.drop r.world.memory.ledger.log.length else r.own k) = r.own := by
      funext k
      split
      · rename_i hk
        rw [hk, hnil]
      · rfl
    rw [hnone, hown]
    exact ⟨h, .inl rfl⟩
  obtain ⟨upto, rest, hf⟩ := h.tracks i c hc
  have hproceeds := (h.pends i c p hc hp).step hl hf hs.kept hs.reads hs.commits
    (hs.kept.length_eventsOf_lt h.below _) (fun d hd => hb d (by rw [hmemory]; exact hd))
  have hsound : ∃ ts', (p.step (Hook.store hooks Memory.engine) r.world.memory).2.Sound ts' := by
    rw [p.step_state]
    cases p.nextCall? with
    | none => exact ⟨ts, hs⟩
    | some op => exact ⟨_, (Hook.store_state hallows Memory.engine op r.world.memory) ▸ hs.step op⟩
  have hbelow : World.Below
      { r.world with memory := (p.step (Hook.store hooks Memory.engine) r.world.memory).2 } :=
    fun d hd => hb d (by rw [hmemory]; exact hd)
  simp only [hmemory]
  generalize (p.step (Hook.store hooks Memory.engine) r.world.memory).1 = p' at *
  generalize (p.step (Hook.store hooks Memory.engine) r.world.memory).2 = m' at *
  refine ⟨?_, .inr ⟨c, p', hc, hproceeds, fun hr => by rw [hmore hr], fun g answer hr => ?_⟩⟩
  · cases hproceeds with
    | goesOn hr ha =>
      rw [hmore hr]
      refine h.set hc (fun k hk => if_neg hk) ⟨upto, rest, ?_⟩ fun q hq => ?_
      · rw [if_pos rfl, hnil]
        exact hf
      · rwa [← Option.some.inj hq]
    | answers hr upto rest hg =>
      rw [hlast _ _ hr]
      refine h.set hc (fun k hk => if_neg hk) ⟨upto, rest, ?_⟩ nofun
      rw [if_pos rfl, hnil]
      exact hg
    | beaten hr hg hne hbehind =>
      obtain ⟨read, hidden, -, -, -, g, hg', hfollows, -⟩ :=
        hf.refreshed hl hs.kept (hs.kept.length_eventsOf_lt h.below _)
      rw [hlast _ _ hr]
      refine h.set hc (fun k hk => if_neg hk) ⟨upto ++ read, hidden, ?_⟩ nofun
      rw [if_pos rfl, hnil, hg, ← hg']
      exact hfollows
    | @writes g d hr hstream hdstream he hg =>
      rw [hlast _ _ hr]
      refine (h.grow hsound hbelow (Ledger.grows_append _ _)).set hc (fun k hk => if_neg hk)
        ⟨r.world.memory.ledger.ofStream c.handle.stream ++ [d], [], ?_⟩ nofun
      have hadded : (r.world.memory.ledger.append d).log.drop r.world.memory.ledger.log.length
          = [d] := List.drop_left
      rw [if_pos rfl, hadded]
      exact hg
  · rw [hlast g answer hr]
    obtain ⟨hi, -⟩ := List.getElem?_eq_some_iff.1 hc
    exact ⟨rfl, List.getElem?_set_self hi⟩

/-- Every turn that is allowed keeps a chronicle sound. -/
theorem turn (hl : ∀ k ∈ hooks, k.Lenient) (h : r.Sound hooks) {t : Turn} (ht : Allows t)
    (hb : (r.turn hooks t).world.Below) : (r.turn hooks t).Sound hooks := by
  obtain ⟨ts, hs⟩ := h.memory
  cases t with
  | perform op =>
    have hstate := Hook.store_state (fun k hk => (hl k hk).allows) Memory.engine op r.world.memory
    refine h.grow ?_ hb ?_ <;> rw [hstate]
    · exact ⟨_, hs.step op⟩
    · exact hs.grows ht
  | join o => exact h.join hl ht
  | stage i s =>
    refine h.idle i fun c hidle => ⟨fun _ _ _ hf => hf.stage s, fun p hp => ?_⟩
    rw [hidle] at hp
    cases hp
  | begin i id stamp =>
    refine h.idle i fun c hidle => ⟨fun _ _ _ hf => hf, fun p hp => ?_⟩
    cases hp
    exact .start id stamp
  | advance i => exact (h.advance hl i hb).1

end Sound

/-- Behind hooks that neither veto nor fail every reachable chronicle is sound. -/
theorem Reachable.sound {hooks : List Hook} (hl : ∀ k ∈ hooks, k.Lenient) {r : Chronicle}
    (hr : r.Reachable hooks) : r.Sound hooks := by
  induction hr with
  | start ops hb => exact ⟨⟨_, Memory.sound_after ops⟩, hb, by simp, by simp, by simp⟩
  | turn t _ ht hb ih => exact ih.turn hl ht hb

section Upconverter

variable {converters : List Converter} {u : Upconverter} {r : Chronicle} {i : Nat} {c : Commit}
  {own cs : List Commit}

theorem shownTo_upconvert (hs : ∀ e, u.Succeeds e) (own : List Commit) (c : Commit) :
    Handle.shownTo [.upconvert u] own c = some (if c ∈ own then c else c.mapEvents u.current) := by
  rw [Handle.shownTo, u.view_upconvert hs]
  split <;> rfl

/-- What a writer shows, with each event in its current kind. -/
theorem map_current_shownTo (hu : Upconverter.build converters = .ok u) (hs : ∀ e, u.Succeeds e)
    (own cs : List Commit) :
    (eventsOf (cs.filterMap (Handle.shownTo [.upconvert u] own))).map u.current
      = (eventsOf cs).map u.current := by
  have htwice (es : List Event) : (es.map u.current).map u.current = es.map u.current := by
    rw [List.map_map]
    exact List.map_congr_left fun e _ => u.current_eq_self (Upconverter.converts_current hu (hs e))
  induction cs with
  | nil => rfl
  | cons c cs ih =>
    rw [List.filterMap_cons_some (shownTo_upconvert hs own c), eventsOf_cons, eventsOf_cons,
      List.map_append, List.map_append, ih]
    split
    · rfl
    · exact congrArg (· ++ _) (htwice c.events)

/-- A writer without commits of its own shows all events in their current kinds, and so does one of
whose own commits no event is converted. -/
theorem eventsOf_shownTo (hs : ∀ e, u.Succeeds e)
    (hown : ∀ o ∈ own, ∀ e ∈ o.events, u.converts e.body.kind = false) (cs : List Commit) :
    eventsOf (cs.filterMap (Handle.shownTo [.upconvert u] own)) = (eventsOf cs).map u.current := by
  induction cs with
  | nil => rfl
  | cons c cs ih =>
    rw [List.filterMap_cons_some (shownTo_upconvert hs own c), eventsOf_cons, eventsOf_cons,
      List.map_append, ih]
    split
    · rename_i hc
      have hsame : c.events.map u.current = c.events :=
        (List.map_congr_left fun e he => u.current_eq_self (hown c hc e he)).trans (List.map_id _)
      rw [hsame]
    · rfl

/-- A handle that is opened beside one that has come to the end of its stream stands where that one
stands and shows its events in their current kinds. Both show the same unless a commit of its own
has an event that is converted. -/
theorem exists_opened_beside (hu : Upconverter.build converters = .ok u) (hs : ∀ e, u.Succeeds e)
    {m : Memory} (hk : m.ledger.Kept) (hreads : m.readsDisabled = false)
    (hb : ∀ c ∈ m.ledger.log, c.revision < maxRevision) {g : Handle}
    (hg : g.Follows [.upconvert u] own m.ledger cs []) :
    ∃ fresh, ((Handle.openWindow g.stream 0 maxRevision).run
        (Hook.store [.upconvert u] Memory.engine) m).value = .ok fresh ∧
      (fresh.revision, fresh.sequence) = (g.revision, g.sequence) ∧
      fresh.committed = g.committed.map u.current ∧
      (∀ e ∈ fresh.committed, u.converts e.body.kind = false) ∧
      (g.committed = fresh.committed ↔
        ∀ o ∈ own, ∀ e ∈ o.events, u.converts e.body.kind = false) := by
  have hl : ∀ k ∈ [Hook.upconvert u], k.Lenient := by simpa using u.lenient_upconvert hs
  obtain ⟨read, hidden, fresh, hhidden, hopen, hfresh, hstream⟩ :=
    Handle.run_openWindow_behind hl hk hreads hb g.stream
  -- nothing is hidden, so both handles have come to the end of the stream
  obtain rfl : hidden = [] := List.eq_nil_iff_forall_not_mem.2 fun d hd => by
    have := hhidden d hd
    rw [u.view_upconvert hs] at this
    cases this
  obtain rfl : read = cs := by
    have hgstream := hg.stream
    have hfstream := hfresh.stream
    rw [hstream] at hfstream
    rw [hfstream] at hgstream
    simpa using hgstream
  have hcommitted : fresh.committed = (eventsOf read).map u.current := by
    rw [hfresh.committed]
    exact eventsOf_shownTo hs (by simp) _
  have hcurrent : ∀ e ∈ fresh.committed, u.converts e.body.kind = false := by
    rw [hcommitted]
    intro d hd
    obtain ⟨d, -, rfl⟩ := List.mem_map.1 hd
    exact Upconverter.converts_current hu (hs d)
  refine ⟨fresh, hopen, ?_, ?_, hcurrent, ?_⟩
  · rw [hfresh.revision, hfresh.sequence, hg.revision, hg.sequence]
  · rw [hcommitted, hg.committed, map_current_shownTo hu hs]
  · constructor
    · intro heq o ho d hd
      refine hcurrent d (heq ▸ ?_)
      rw [hg.committed]
      refine List.mem_flatMap.2 ⟨o, List.mem_filterMap.2 ⟨o, hg.own_mem o ho, if_pos ho⟩, hd⟩
    · intro hkinds
      rw [hg.committed, hcommitted, eventsOf_shownTo hs hkinds]

/-- **A handle shows its own commits as it has written them.**  Behind an upconverter that never
fails, let a commit under way of a writer end with a new commit stored. A handle that is opened then
stands where the writer's handle stands. It shows the same events, all in their current kinds. The
writer's handle shows the same if and only if none of the commits that it has stored so far has an
event of a kind that is still converted. -/
theorem shows_current_iff (hu : Upconverter.build converters = .ok u) (hs : ∀ e, u.Succeeds e)
    (hr : r.Reachable [.upconvert u])
    (hb : (r.turn [.upconvert u] (.advance i)).world.Below)
    (hanswer : (r.world.advanceOn (Hook.store [.upconvert u] Memory.engine) i).2
      = some (.ok (some c)))
    (hnew : r.added [.upconvert u] (.advance i) = [c]) :
    ∃ d fresh, (r.turn [.upconvert u] (.advance i)).world.clients[i]? = some d ∧
      ((Handle.openWindow d.handle.stream 0 maxRevision).run
        (Hook.store [.upconvert u] Memory.engine)
        (r.turn [.upconvert u] (.advance i)).world.memory).value = .ok fresh ∧
      (fresh.revision, fresh.sequence) = (d.handle.revision, d.handle.sequence) ∧
      fresh.committed = d.handle.committed.map u.current ∧
      (∀ e ∈ fresh.committed, u.converts e.body.kind = false) ∧
      (d.handle.committed = fresh.committed ↔
        ∀ o ∈ (r.turn [.upconvert u] (.advance i)).own i, ∀ e ∈ o.events,
          u.converts e.body.kind = false) := by
  have hl : ∀ k ∈ [Hook.upconvert u], k.Lenient := by simpa using u.lenient_upconvert hs
  have h := hr.sound hl
  obtain ⟨h', hcall⟩ := h.advance hl i hb
  have hown : (r.turn [.upconvert u] (.advance i)).own i = r.own i ++ [c] := by
    rw [← hnew]
    exact if_pos rfl
  obtain hnone | ⟨e, p, -, hproceeds, hmore, hlast⟩ := hcall
  · rw [hnone] at hanswer
    cases hanswer
  obtain ⟨ts, hsound⟩ := h'.memory
  have hbelow : ∀ d ∈ (r.turn [.upconvert u] (.advance i)).world.memory.ledger.log,
      d.revision < maxRevision := hb
  have hadded : r.added [.upconvert u] (.advance i)
      = (r.turn [.upconvert u] (.advance i)).world.memory.ledger.log.drop
        r.world.memory.ledger.log.length := rfl
  generalize hm : (r.turn [.upconvert u] (.advance i)).world.memory = m at *
  cases hproceeds with
  | goesOn hp =>
    rw [hmore hp] at hanswer
    cases hanswer
  | answers =>
    rw [hadded, List.drop_length] at hnew
    cases hnew
  | beaten hp =>
    rw [(hlast _ _ hp).1] at hanswer
    cases hanswer
  | @writes g o hp hgs hos he hg =>
    obtain ⟨hanswer', hclient⟩ := hlast _ _ hp
    cases hanswer.symm.trans hanswer'
    obtain ⟨fresh, hfresh⟩ := exists_opened_beside hu hs hsound.kept hsound.reads hbelow hg
    rw [hown]
    exact ⟨_, fresh, hclient, hfresh⟩

/-- The upconverter from one kind to the next. -/
def oneStep : Upconverter := ⟨[Upconverter.relabel "v1" "v2"]⟩

theorem oneStep_succeeds (e : Event) : oneStep.Succeeds e := by
  cases hc : oneStep.converts e.body.kind with
  | false => exact ⟨_, Upconverter.convertPayload_eq_self hc⟩
  | true =>
    obtain ⟨c, hc⟩ := Option.isSome_iff_exists.1 hc
    obtain rfl : c = Upconverter.relabel "v1" "v2" :=
      List.mem_singleton.1 (List.mem_of_find?_eq_some hc)
    refine ⟨⟨"v2", e.body.data⟩, ?_⟩
    show Upconverter.convertWithin oneStep 1 e.body = _
    rw [Upconverter.convertWithin, hc]
    rfl

/-- An id that repeats one byte. -/
def sampleId (byte : UInt8) : CommitId := ⟨List.replicate 16 byte, rfl⟩

/-- A writer is about to commit an event of the old kind to a new stream. -/
def stagedOldKind : Chronicle :=
  let turns : List Turn :=
    [.join (.create ⟨"tenant", "a"⟩), .stage 0 (.add ⟨⟨"v1", .null⟩, []⟩),
      .begin 0 (sampleId 7) ⟨0⟩]
  turns.foldl (fun r t => r.turn [.upconvert oneStep] t) { world := ⟨Memory.after [], []⟩ }

theorem reachable_stagedOldKind : stagedOldKind.Reachable [.upconvert oneStep] := by
  unfold stagedOldKind
  refine .turn _ (.turn _ (.turn _ (.start _ ?_) ?_ ?_) ?_ ?_) ?_ ?_
  all_goals first | exact trivial | decide +kernel

/-- The commit that comes of it. -/
def storedOldKind : Commit where
  stream := ⟨"tenant", "a"⟩
  revision := 1
  id := sampleId 7
  sequence := 1
  stamp := ⟨0⟩
  headers := []
  events := [⟨⟨"v1", .null⟩, []⟩]
  checkpoint := 1

theorem shows_current_iff_stagedOldKind :
    stagedOldKind.Reachable [.upconvert oneStep] ∧
      (stagedOldKind.turn [.upconvert oneStep] (.advance 0)).world.Below ∧
      (stagedOldKind.world.advanceOn (Hook.store [.upconvert oneStep] Memory.engine) 0).2
        = some (.ok (some storedOldKind)) ∧
      ∃ (d : Client) (fresh : Handle),
        (stagedOldKind.turn [.upconvert oneStep] (.advance 0)).world.clients[0]? = some d ∧
        fresh.committed = d.handle.committed.map oneStep.current ∧
        ¬ d.handle.committed = fresh.committed := by
  have hu : Upconverter.build [Upconverter.relabel "v1" "v2"] = .ok oneStep := rfl
  have hbelow : (stagedOldKind.turn [.upconvert oneStep] (.advance 0)).world.Below := by
    decide +kernel
  have hanswer : (stagedOldKind.world.advanceOn
      (Hook.store [.upconvert oneStep] Memory.engine) 0).2 = some (.ok (some storedOldKind)) := by
    decide +kernel
  have hadded : stagedOldKind.added [.upconvert oneStep] (.advance 0) = [storedOldKind] := by
    decide +kernel
  obtain ⟨d, fresh, hd, -, -, hcurrent, -, hiff⟩ :=
    shows_current_iff hu oneStep_succeeds reachable_stagedOldKind hbelow hanswer hadded
  refine ⟨reachable_stagedOldKind, hbelow, hanswer, d, fresh, hd, hcurrent, fun hsame => ?_⟩
  have hown : (stagedOldKind.turn [.upconvert oneStep] (.advance 0)).own 0 = [storedOldKind] := by
    decide +kernel
  have hkind := hiff.1 hsame storedOldKind (hown ▸ List.mem_singleton_self _) _
    (List.mem_singleton_self _)
  cases hkind

/-- A commit that its writer has just stored is shown to that writer in the old kind, and to
everybody else in the new one. -/
theorem own_commit_shown_in_old_kind :
    stagedOldKind.Reachable [.upconvert oneStep] ∧
      (stagedOldKind.world.advanceOn (Hook.store [.upconvert oneStep] Memory.engine) 0).2
        = some (.ok (some storedOldKind)) ∧
      stagedOldKind.added [.upconvert oneStep] (.advance 0) = [storedOldKind] ∧
      (stagedOldKind.turn [.upconvert oneStep] (.advance 0)).world.clients.map
        (fun c => c.handle.committed.map (·.body.kind)) = [["v1"]] ∧
      oneStep.converts "v1" = true ∧
      ((Handle.openWindow ⟨"tenant", "a"⟩ 0 maxRevision).run
        (Hook.store [.upconvert oneStep] Memory.engine)
        (stagedOldKind.turn [.upconvert oneStep] (.advance 0)).world.memory).value.map
        (fun h => h.committed.map (·.body.kind)) = .ok ["v2"] := by
  refine ⟨reachable_stagedOldKind, ?_, ?_, ?_, ?_, ?_⟩
  all_goals decide +kernel

end Upconverter

/-- Of what comes after the place of a handle the last commit is shown if and only if no commit
stays hidden. -/
theorem last_shown_iff {hooks : List Hook} {read hidden init : List Commit} {last : Commit}
    (hlast : read ++ hidden = init ++ [last]) (hhidden : ∀ c ∈ hidden, Hook.view hooks c = none)
    (hread : read = [] ∨ ∃ front c, read = front ++ [c] ∧ Hook.view hooks c ≠ none) :
    Hook.view hooks last ≠ none ↔ hidden = [] := by
  constructor
  · intro hview
    rcases List.eq_nil_or_concat' hidden with hnil | ⟨front, d, hd⟩
    · exact hnil
    · rw [hd, ← List.append_assoc] at hlast
      obtain ⟨-, rfl⟩ := List.append_inj' hlast rfl |>.imp_right List.singleton_inj.1
      exact absurd (hhidden d (hd ▸ by simp)) hview
  · rintro rfl
    rw [List.append_nil] at hlast
    obtain rfl | ⟨front, d, rfl, hd⟩ := hread
    · simp at hlast
    · obtain ⟨-, rfl⟩ := List.append_inj' hlast rfl |>.imp_right List.singleton_inj.1
      exact hd

/-- **Catching up behind hooks.**  Behind hooks that neither veto nor fail, let a commit under way
end with a conflict. What is staged is kept, and nothing is written. If the hooks show the last
commit of the stream, the handle stands at the head, and whatever is then committed under a new id
is accepted. If they hide it, the handle does not stand at the head: whatever is committed under a
new id is refused with a conflict again, and changes neither the handle nor the store. -/
theorem catches_up_behind_hooks {hooks : List Hook} (hl : ∀ k ∈ hooks, k.Lenient) {r : Chronicle}
    (hr : r.Reachable hooks) {i : Nat} (hb : (r.turn hooks (.advance i)).world.Below)
    {stream : StreamId} {revision sequence : Nat}
    (hanswer : (r.world.advanceOn (Hook.store hooks Memory.engine) i).2
      = some (.error (.conflict stream revision sequence))) :
    ∃ c d m last, r.world.clients[i]? = some c ∧
      (r.turn hooks (.advance i)).world.clients[i]? = some d ∧
      m = (r.turn hooks (.advance i)).world.memory ∧ m = r.world.memory ∧
      d.handle.stream = c.handle.stream ∧ d.handle.uncommitted = c.handle.uncommitted ∧
      d.handle.uncommittedHeaders = c.handle.uncommittedHeaders ∧
      (m.ledger.ofStream c.handle.stream).getLast? = some last ∧
      (Hook.view hooks last ≠ none →
        m.ledger.headOf c.handle.stream = (d.handle.sequence, d.handle.revision) ∧
        ∀ id stamp, (∀ o ∈ m.ledger.ofStream c.handle.stream, o.id ≠ id) → ∃ o,
          ((d.handle.commitChanges id stamp).run (Hook.store hooks Memory.engine) m).value.2
            = .ok (some o)) ∧
      (Hook.view hooks last = none →
        m.ledger.headOf c.handle.stream ≠ (d.handle.sequence, d.handle.revision) ∧
        ∀ id stamp, (∀ o ∈ m.ledger.ofStream c.handle.stream, o.id ≠ id) →
          ((d.handle.commitChanges id stamp).run (Hook.store hooks Memory.engine) m).value
              = (d.handle, .error (d.handle.attempt id stamp).conflict) ∧
            ((d.handle.commitChanges id stamp).run (Hook.store hooks Memory.engine) m).state
              = m) := by
  have h := hr.sound hl
  obtain ⟨ts, hs⟩ := h.memory
  obtain hnone | ⟨c, p, hc, hproceeds, hmore, hlast⟩ := (h.advance hl i hb).2
  · rw [hnone] at hanswer
    cases hanswer
  obtain ⟨upto, rest, hf⟩ := h.tracks i c hc
  generalize hm : (r.turn hooks (.advance i)).world.memory = m at *
  cases hproceeds with
  | goesOn hp =>
    rw [hmore hp] at hanswer
    cases hanswer
  | answers hp =>
    rw [(hlast _ _ hp).1] at hanswer
    cases hanswer
  | writes hp =>
    rw [(hlast _ _ hp).1] at hanswer
    cases hanswer
  | beaten hp hg hne hbehind =>
    have hlt := hs.kept.length_eventsOf_lt h.below c.handle.stream
    obtain ⟨read, hidden, rfl, hhidden, hread, g, hg', hfollows, hstream, hu, hh⟩ :=
      hf.refreshed hl hs.kept hlt
    rw [← hg'] at hg
    subst hg
    have hsplit := hf.stream
    -- the handle was behind, so there is a last commit, and it comes after the place of the handle
    have hrest : read ++ hidden ≠ [] := by
      intro hnil
      rw [hsplit, hf.sequence, hnil, List.append_nil] at hbehind
      omega
    obtain ⟨init, last, hinit⟩ := List.eq_nil_or_concat' _ |>.resolve_left hrest
    have hgetLast : (r.world.memory.ledger.ofStream c.handle.stream).getLast? = some last := by
      rw [hsplit, hinit, ← List.append_assoc, List.getLast?_concat]
    have hshown := last_shown_iff hinit hhidden hread
    have hhead := hs.kept.headOf_eq c.handle.stream
    obtain ⟨-, hclient⟩ := hlast _ _ hp
    refine ⟨c, _, _, last, hc, hclient, rfl, rfl, hstream, hu, hh, hgetLast, fun hview => ?_,
      fun hview => ?_⟩
    · obtain rfl := hshown.1 hview
      refine ⟨?_, fun id stamp hid => ?_⟩
      · rw [hhead, hfollows.sequence, hfollows.revision, hsplit, List.append_nil]
      · refine Handle.run_commitChanges_accepted hl hfollows hs.kept hs.commits ?_ ?_ stamp ?_ rfl
        · rwa [hstream]
        · rwa [hu]
        · rwa [hstream]
    · have hne' : hidden ≠ [] := fun hnil => hshown.2 hnil hview
      refine ⟨?_, fun id stamp hid => ?_⟩
      · rw [hhead, hfollows.sequence, hsplit, ← List.append_assoc, List.length_append]
        have := List.length_pos_iff.2 hne'
        intro heq
        have := congrArg Prod.fst heq
        simp only at this
        omega
      · refine Handle.run_commitChanges_refused hl hfollows hs.kept hs.commits ?_ ?_ stamp ?_
          hs.reads hne' hhidden
        · rwa [hstream]
        · rwa [hu]
        · rwa [hstream]

/-- A writer on a stream that is hidden from it has just been told of a conflict. -/
def hiddenRival : Chronicle :=
  let turns : List Turn :=
    [.join (.window ⟨"tenant", "a"⟩ 0 maxRevision), .stage 0 (.add ⟨⟨"event", .null⟩, []⟩),
      .begin 0 (sampleId 7) ⟨0⟩, .advance 0]
  turns.foldl (fun r t => r.turn [.hide "a"] t)
    { world := ⟨Memory.after [.commit (Memory.sampleAttempt "a" 1 1 1 1)], []⟩ }

theorem reachable_hiddenRival : hiddenRival.Reachable [.hide "a"] := by
  unfold hiddenRival
  refine .turn _ (.turn _ (.turn _ (.turn _ (.start _ ?_) ?_ ?_) ?_ ?_) ?_ ?_) ?_ ?_
  all_goals first | exact trivial | exact ⟨rfl, rfl⟩ | decide +kernel

theorem catches_up_behind_hooks_hiddenRival :
    (∀ k ∈ [Hook.hide "a"], k.Lenient) ∧ hiddenRival.Reachable [.hide "a"] ∧
      (hiddenRival.turn [.hide "a"] (.advance 0)).world.Below ∧
      (hiddenRival.world.advanceOn (Hook.store [.hide "a"] Memory.engine) 0).2
        = some (.error (.conflict ⟨"tenant", "a"⟩ 1 1)) ∧
      ∃ d, (hiddenRival.turn [.hide "a"] (.advance 0)).world.clients[0]? = some d ∧
        ∀ stamp, ((d.handle.commitChanges (sampleId 8) stamp).run
            (Hook.store [.hide "a"] Memory.engine) hiddenRival.world.memory).value
          = (d.handle, .error (d.handle.attempt (sampleId 8) stamp).conflict) := by
  have hl : ∀ k ∈ [Hook.hide "a"], k.Lenient := by simpa using Hook.lenient_hide "a"
  have hbelow : (hiddenRival.turn [.hide "a"] (.advance 0)).world.Below := by decide +kernel
  have hanswer : (hiddenRival.world.advanceOn (Hook.store [.hide "a"] Memory.engine) 0).2
      = some (.error (.conflict ⟨"tenant", "a"⟩ 1 1)) := by decide +kernel
  have hlog : ∀ o ∈ hiddenRival.world.memory.ledger.log,
      Hook.view [.hide "a"] o = none ∧ o.id ≠ sampleId 8 := by decide +kernel
  obtain ⟨c, d, m, last, -, hd, -, rfl, -, -, -, hlast, -, hrefused⟩ :=
    catches_up_behind_hooks hl reachable_hiddenRival hbelow hanswer
  have hview := (hlog last (List.mem_of_mem_filter (List.mem_of_getLast? hlast))).1
  exact ⟨hl, reachable_hiddenRival, hbelow, hanswer, d, hd, fun stamp =>
    ((hrefused hview).2 _ stamp fun o ho => (hlog o (List.mem_of_mem_filter ho)).2).1⟩

/-- A writer on a hidden stream does not catch up with it: a second commit is refused like the first
one. -/
theorem not_caught_up_behind_hide :
    hiddenRival.Reachable [.hide "a"] ∧
      (hiddenRival.world.advanceOn (Hook.store [.hide "a"] Memory.engine) 0).2
        = some (.error (.conflict ⟨"tenant", "a"⟩ 1 1)) ∧
      (hiddenRival.turn [.hide "a"] (.advance 0)).world.clients.map
        (fun c => (c.handle.sequence, c.handle.revision)) = [(0, 0)] ∧
      (hiddenRival.turn [.hide "a"] (.advance 0)).world.memory.ledger.headOf ⟨"tenant", "a"⟩
        = (1, 1) ∧
      (hiddenRival.turn [.hide "a"] (.advance 0)).world.clients.map
        (fun c => ((c.handle.commitChanges (sampleId 8) ⟨0⟩).run
          (Hook.store [.hide "a"] Memory.engine)
          (hiddenRival.turn [.hide "a"] (.advance 0)).world.memory).value.2)
        = [.error (.conflict ⟨"tenant", "a"⟩ 1 1)] := by
  refine ⟨reachable_hiddenRival, ?_, ?_, ?_, ?_⟩
  all_goals decide +kernel

end Chronicle
end EventSourcing
