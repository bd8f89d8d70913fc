import EventSourcing.Proofs.Conversion
import EventSourcing.Proofs.Hooks

/-!
# Reading through an upconverter

An upconverter changes the payloads of the events of a commit and nothing else. What a handle makes
of a commit depends on its id, its sequence, its revision and the number of its events, none of
which change, so merging converted commits is merging them as they are and converting the events
afterwards (`Handle.merge_mapEvents`). A window therefore cuts the same events out of a stream,
whatever their kinds have become (`Upconverter.opens_current`).

Conversion goes on to the first event that is refused (`Upconverter.upconvert_cases`), also when
that event lies outside the window but in a commit that reaches into it.
-/

namespace EventSourcing

/-- The commit with each of its events replaced. -/
def Commit.mapEvents (g : Event → Event) (c : Commit) : Commit :=
  { c with events := c.events.map g }

@[simp] theorem Commit.id_mapEvents (g : Event → Event) (c : Commit) :
    (c.mapEvents g).id = c.id := rfl

@[simp] theorem Commit.firstRevision_mapEvents (g : Event → Event) (c : Commit) :
    (c.mapEvents g).firstRevision = c.firstRevision := by
  rw [Commit.firstRevision, Commit.mapEvents, List.length_map]
  rfl

namespace Handle

/-- The handle with each of its committed events replaced. -/
def mapEvents (g : Event → Event) (h : Handle) : Handle :=
  { h with committed := h.committed.map g }

variable (g : Event → Event) (first last : Nat)

@[simp] theorem seen_mapEvents (h : Handle) : (h.mapEvents g).seen = h.seen := rfl

theorem takeEvents_mapEvents (h : Handle) (current : Nat) (es : List Event) :
    (h.mapEvents g).takeEvents first last current (es.map g)
      = (h.takeEvents first last current es).mapEvents g := by
  induction es generalizing h current with
  | nil => rfl
  | cons e es ih =>
    rw [List.map_cons, takeEvents, takeEvents]
    split
    · rfl
    split
    · rw [← ih]
      simp only [mapEvents, List.map_append, List.map_cons, List.map_nil]
    · exact ih h _

/-- Merging commits with their events replaced is replacing the events after merging. -/
theorem merge_mapEvents (h : Handle) (cs : List Commit) :
    (h.mapEvents g).merge first last (cs.map (·.mapEvents g))
      = (h.merge first last cs).mapEvents g := by
  induction cs generalizing h with
  | nil => rfl
  | cons c cs ih =>
    rw [List.map_cons, merge, merge]
    simp only [Commit.id_mapEvents, Commit.firstRevision_mapEvents, seen_mapEvents]
    by_cases hseen : c.id ∈ h.seen
    · rw [if_pos hseen, if_pos hseen]
      exact ih h
    rw [if_neg hseen, if_neg hseen]
    split
    · rfl
    · rw [← ih, ← takeEvents_mapEvents]
      rfl

/-- A window takes events over from the commits that are merged, and from nowhere else. -/
theorem mem_takeEvents {h : Handle} {current : Nat} {es : List Event} {e : Event}
    (he : e ∈ (h.takeEvents first last current es).committed) : e ∈ h.committed ∨ e ∈ es := by
  induction es generalizing h current with
  | nil => exact .inl he
  | cons d es ih =>
    rw [takeEvents] at he
    split at he
    · exact .inl he
    split at he
    · rcases ih he with hmem | hmem
      · rcases List.mem_append.1 hmem with hmem | hmem
        · exact .inl hmem
        · exact .inr (List.mem_cons.2 (.inl (List.mem_singleton.1 hmem)))
      · exact .inr (List.mem_cons_of_mem _ hmem)
    · exact (ih he).imp_right (List.mem_cons_of_mem _)

theorem mem_merge {h : Handle} {cs : List Commit} {e : Event}
    (he : e ∈ (h.merge first last cs).committed) : e ∈ h.committed ∨ e ∈ eventsOf cs := by
  induction cs generalizing h with
  | nil => exact .inl he
  | cons c cs ih =>
    rw [merge] at he
    rw [eventsOf_cons, List.mem_append]
    split at he
    · exact (ih he).imp_right .inr
    simp only at he
    split at he
    · exact .inl he
    · rcases ih he with hmem | hmem
      · exact (mem_takeEvents first last hmem).imp_right .inl
      · exact .inr (.inr hmem)

/-- What opening a window makes of the commits that are read. -/
def opened (s : StreamId) (first last : Nat) : Except Fault (List Commit) → Except Fault Handle
  | .error e => .error e
  | .ok commits =>
    if 0 < first ∧ ((create s).merge first last commits).committed.isEmpty
      then .error (.streamNotFound s) else .ok ((create s).merge first last commits)

theorem run_openWindow_eq {σ : Type} (engine : Engine σ) (st : σ) (s : StreamId)
    (first last : Nat) : ((openWindow s first last).run engine st).value = opened s first last
      (collectItems (Feed.items (engine (.read (.revisions s first last)) st).1.reply)) := by
  unfold openWindow
  show (Program.run engine
    (match collectItems _ with | .error e => _ | .ok commits => _) _).value = _
  cases collectItems (Feed.items (engine (.read (.revisions s first last)) st).1.reply) with
  | error e => rfl
  | ok commits =>
    simp only [opened]
    split <;> rfl

/-- Opening finds a stream or not, whatever its events are replaced with. -/
theorem opened_mapEvents (s : StreamId) (cs : List Commit) :
    opened s first last (.ok (cs.map (·.mapEvents g)))
      = (opened s first last (.ok cs)).map (mapEvents g) := by
  have hmerge := merge_mapEvents g first last (create s) cs
  have hcreate : (create s).mapEvents g = create s := rfl
  rw [hcreate] at hmerge
  have hempty : (((create s).merge first last cs).mapEvents g).committed.isEmpty
      = ((create s).merge first last cs).committed.isEmpty := List.isEmpty_map
  rw [opened, hmerge, hempty, opened]
  split <;> rfl

end Handle

namespace Upconverter

variable {u : Upconverter} {e : Event} {es : List Event} {c : Commit} {cs : List Commit}
  {f : ConversionFault}

/-- The payload of an event is converted without a fault. -/
def Succeeds (u : Upconverter) (e : Event) : Prop := ∃ body, u.convertPayload e.body = .ok body

/-- The first event of which the conversion fails, and with what. -/
def FailsFirst (u : Upconverter) (es : List Event) (f : ConversionFault) : Prop :=
  ∃ xs e ys, es = xs ++ e :: ys ∧ (∀ x ∈ xs, u.Succeeds x) ∧ u.convertPayload e.body = .error f

/-- An event as it is shown, if its conversion succeeds. -/
def current (u : Upconverter) (e : Event) : Event :=
  match u.convertPayload e.body with
  | .ok body => { e with body := body }
  | .error _ => e

@[simp] theorem current_headers (u : Upconverter) (e : Event) :
    (u.current e).headers = e.headers := by
  unfold current
  split <;> rfl

theorem Succeeds.convertPayload_eq (h : u.Succeeds e) :
    u.convertPayload e.body = .ok (u.current e).body := by
  obtain ⟨body, hbody⟩ := h
  rw [current, hbody]

theorem convertPayload_eq_self {p : Payload} (h : u.converts p.kind = false) :
    u.convertPayload p = .ok p := by
  have hnone : converterOf u.converters p.kind = none := by
    rw [converts] at h
    exact Option.isSome_eq_false_iff.1 h |> Option.isNone_iff_eq_none.1
  unfold convertPayload
  cases u.size with
  | zero => rfl
  | succ n => rw [convertWithin, hnone]

/-- An event whose kind has no converter is shown as it is. -/
theorem current_eq_self (h : u.converts e.body.kind = false) : u.current e = e := by
  rw [current, convertPayload_eq_self h]

/-- What a registry that was accepted converts to has no converter. -/
theorem converts_eq_false {converters : List Converter} (hu : build converters = .ok u)
    {p q : Payload} (h : u.convertPayload p = .ok q) : u.converts q.kind = false := by
  obtain ⟨rfl, hacyclic, hends⟩ := sound_of_build hu
  obtain ⟨path, final, hpath⟩ := exists_convertsAlong (hends p.kind)
  have hlength : path.length ≤ u.size := hpath.length_le hacyclic
  obtain ⟨before, c, after, data, e, hbefore, -, -, hsteps⟩ | ⟨data, -, hsteps⟩ := hpath.converting
  · rw [hbefore, List.length_append, List.length_cons] at hlength
    have hanswer : u.convertPayload p = .error e := hsteps.convertWithin_eq (by omega)
    rw [hanswer] at h
    cases h
  · have hanswer : u.convertPayload p = .ok ⟨final, data⟩ := hsteps.convertWithin_eq hlength
    rw [hanswer] at h
    cases h
    rw [converts, hpath.converterOf_final]
    rfl

/-- An event that is shown in its current kind has no converter. -/
theorem converts_current {converters : List Converter} (hu : build converters = .ok u)
    (h : u.Succeeds e) : u.converts (u.current e).body.kind = false :=
  converts_eq_false hu h.convertPayload_eq

theorem convertEvent_eq (u : Upconverter) (e : Event) : u.convertEvent e =
    match u.convertPayload e.body with
    | .ok _ => .ok (u.current e)
    | .error f => .error f := by
  unfold convertEvent
  split
  · cases h : u.convertPayload e.body with
    | ok body => simp only [current, h]
    | error f => rfl
  · rename_i h
    have hkeep := Bool.not_eq_true _ ▸ h
    rw [convertPayload_eq_self hkeep, current_eq_self hkeep]

/-- Events are all shown in their current kinds, or the first refusal is the answer. -/
theorem convertEvents_cases (u : Upconverter) (es : List Event) :
    (∀ e ∈ es, u.Succeeds e) ∧ u.convertEvents es = .ok (es.map u.current) ∨
      ∃ f, u.FailsFirst es f ∧ u.convertEvents es = .error f := by
  induction es with
  | nil => exact .inl ⟨by simp, rfl⟩
  | cons e es ih =>
    rw [convertEvents, convertEvent_eq]
    cases he : u.convertPayload e.body with
    | error f => exact .inr ⟨f, ⟨[], e, es, rfl, by simp, he⟩, rfl⟩
    | ok body =>
      obtain ⟨hall, heq⟩ | ⟨f, ⟨xs, d, ys, rfl, hxs, hd⟩, heq⟩ := ih
      · rw [heq]
        exact .inl ⟨List.forall_mem_cons.2 ⟨⟨body, he⟩, hall⟩, rfl⟩
      · rw [heq]
        exact .inr ⟨f, ⟨e :: xs, d, ys, rfl, List.forall_mem_cons.2 ⟨⟨body, he⟩, hxs⟩, hd⟩, rfl⟩

theorem convertEvents_refused (h : u.FailsFirst es f) : u.convertEvents es = .error f := by
  obtain ⟨xs, e, ys, rfl, hxs, he⟩ := h
  induction xs with
  | nil => rw [List.nil_append, convertEvents, convertEvent_eq, he]
  | cons x xs ih =>
    obtain ⟨⟨body, hx⟩, hxs⟩ := List.forall_mem_cons.1 hxs
    rw [List.cons_append, convertEvents, convertEvent_eq, hx]
    simp only [ih hxs]

theorem upconvert_eq_error_iff : u.upconvert c = .error f ↔ u.FailsFirst c.events f := by
  rw [upconvert]
  constructor
  · intro h
    obtain ⟨-, heq⟩ | ⟨g, hfails, heq⟩ := u.convertEvents_cases c.events
    · rw [heq] at h
      cases h
    · rw [heq] at h
      cases h
      exact hfails
  · intro h
    rw [convertEvents_refused h]

theorem upconvert_eq_ok_iff {d : Commit} : u.upconvert c = .ok d ↔
    (∀ e ∈ c.events, u.Succeeds e) ∧ d = c.mapEvents u.current := by
  rw [upconvert]
  obtain ⟨hall, heq⟩ | ⟨g, ⟨xs, e, ys, hes, -, he⟩, heq⟩ := u.convertEvents_cases c.events
  · rw [heq, and_iff_right hall]
    exact ⟨fun h => by cases h; rfl, fun h => by rw [h]; rfl⟩
  · rw [heq]
    refine iff_of_false nofun ?_
    rintro ⟨hall, -⟩
    obtain ⟨body, hbody⟩ := hall e (by simp [hes])
    rw [hbody] at he
    cases he

/-- A commit none of whose events has a converter is shown as it is. -/
theorem upconvert_eq_self (h : ∀ e ∈ c.events, u.converts e.body.kind = false) :
    u.upconvert c = .ok c := by
  have hevents : c.events.map u.current = c.events :=
    (List.map_congr_left fun e he => current_eq_self (h e he)).trans (List.map_id _)
  refine upconvert_eq_ok_iff.2 ⟨fun e he => ⟨e.body, convertPayload_eq_self (h e he)⟩, ?_⟩
  rw [Commit.mapEvents, hevents]

/-- **Upconversion is local and settles at once.**  What an upconverter makes of a commit differs
from it only in the payloads of its events, each of which is the conversion of the one before. None
of them has a converter any more, so converting again changes nothing; nor does it change a commit
none of whose events has a converter. It fails exactly if the conversion of an event does, with the
fault of the first that does. -/
theorem upconvert_settles {converters : List Converter} (hu : build converters = .ok u)
    (c : Commit) :
    (∀ d, u.upconvert c = .ok d →
      u.upconvert d = .ok d ∧ d = { c with events := d.events } ∧
      List.Forall₂ (fun e e' => e'.headers = e.headers ∧ u.convertPayload e.body = .ok e'.body)
        c.events d.events ∧
      ∀ e ∈ d.events, u.converts e.body.kind = false) ∧
    ((∀ e ∈ c.events, u.converts e.body.kind = false) → u.upconvert c = .ok c) ∧
    ((∃ f, u.upconvert c = .error f) ↔
      ∃ e ∈ c.events, ∃ f, u.convertPayload e.body = .error f) ∧
    ∀ f, u.upconvert c = .error f ↔ u.FailsFirst c.events f := by
  refine ⟨fun d hd => ?_, upconvert_eq_self, ?_, fun f => upconvert_eq_error_iff⟩
  · obtain ⟨hall, rfl⟩ := upconvert_eq_ok_iff.1 hd
    have hcurrent : ∀ e ∈ (c.mapEvents u.current).events, u.converts e.body.kind = false := by
      intro e he
      obtain ⟨e, hmem, rfl⟩ := List.mem_map.1 he
      exact converts_current hu (hall e hmem)
    refine ⟨upconvert_eq_self hcurrent, rfl, ?_, hcurrent⟩
    rw [Commit.mapEvents, List.forall₂_map_right_iff, List.forall₂_same]
    exact fun e he => ⟨current_headers u e, (hall e he).convertPayload_eq⟩
  · constructor
    · rintro ⟨f, hf⟩
      obtain ⟨xs, e, ys, hes, -, he⟩ := upconvert_eq_error_iff.1 hf
      exact ⟨e, by simp [hes], f, he⟩
    · rintro ⟨e, he, f, hf⟩
      cases hanswer : u.upconvert c with
      | error g => exact ⟨g, rfl⟩
      | ok d =>
        obtain ⟨body, hbody⟩ := (upconvert_eq_ok_iff.1 hanswer).1 e he
        rw [hbody] at hf
        cases hf

/-- A commit with one event for each of some payloads. -/
def commitOf (bodies : List Payload) : Commit :=
  { Memory.sampleAttempt "a" 1 bodies.length bodies.length 1 with
    events := bodies.map fun body => ⟨body, [("by", .string "me")]⟩ }.confirm 9

theorem upconvert_settles_wrapTwice :
    build wrapTwice = .ok ⟨wrapTwice⟩ ∧
      (∃ d, upconvert ⟨wrapTwice⟩ (commitOf [⟨"c", .string "v"⟩, ⟨"b", .string "w"⟩]) = .ok d ∧
        upconvert ⟨wrapTwice⟩ d = .ok d ∧
        d.events.map (·.body) = [⟨"c", .string "v"⟩, ⟨"c", .array [.string "w"]⟩]) ∧
      upconvert ⟨wrapTwice⟩ (commitOf [⟨"c", .string "v"⟩]) = .ok (commitOf [⟨"c", .string "v"⟩]) ∧
      upconvert ⟨wrapTwice⟩ (commitOf [⟨"b", .string "w"⟩, ⟨"a", .string "x"⟩, ⟨"b", .null⟩])
        = .error (.failed "b" "no string") := by
  have hu : build wrapTwice = .ok ⟨wrapTwice⟩ := rfl
  have hsettles (bodies : List Payload) := upconvert_settles hu (commitOf bodies)
  refine ⟨hu, ?_, (hsettles _).2.1 (by decide), ?_⟩
  · obtain ⟨d, hd⟩ : ∃ d, upconvert ⟨wrapTwice⟩
        (commitOf [⟨"c", .string "v"⟩, ⟨"b", .string "w"⟩]) = .ok d := ⟨_, rfl⟩
    refine ⟨d, hd, ((hsettles _).1 d hd).1, ?_⟩
    cases hd
    rfl
  · refine ((hsettles _).2.2.2 _).2 ⟨[⟨⟨"b", .string "w"⟩, _⟩], _, _, rfl, ?_, rfl⟩
    exact List.forall_mem_singleton.2 ⟨_, rfl⟩

/-- What an upconverting hook shows of a commit. -/
theorem upconvert_cases (u : Upconverter) (c : Commit) :
    (∀ e ∈ c.events, u.Succeeds e) ∧
        Hook.selected [.upconvert u] c = .ok (some (c.mapEvents u.current)) ∨
      ∃ f, u.FailsFirst c.events f ∧
        Hook.selected [.upconvert u] c = .error (.conversion f) := by
  simp only [Hook.selected, Hook.upconvert, upconvert]
  obtain ⟨hall, heq⟩ | ⟨f, hfails, heq⟩ := u.convertEvents_cases c.events
  · rw [heq]
    exact .inl ⟨hall, rfl⟩
  · rw [heq]
    exact .inr ⟨f, hfails, rfl⟩

/-- An upconverter that never fails hides nothing. -/
theorem lenient_upconvert (u : Upconverter) (hs : ∀ e, u.Succeeds e) :
    (Hook.upconvert u).Lenient where
  allows _ := rfl
  select c := by
    obtain ⟨-, heq⟩ | ⟨f, ⟨xs, e, ys, -, -, hfails⟩, -⟩ := u.convertEvents_cases c.events
    · refine .inr ⟨c.mapEvents u.current, ?_, rfl, rfl, rfl, List.length_map ..⟩
      simp only [Hook.upconvert, upconvert, heq]
      rfl
    · obtain ⟨body, hbody⟩ := hs e
      rw [hbody] at hfails
      cases hfails

theorem view_upconvert (u : Upconverter) (hs : ∀ e, u.Succeeds e) (c : Commit) :
    Hook.view [.upconvert u] c = some (c.mapEvents u.current) := by
  obtain ⟨-, heq⟩ | ⟨f, ⟨xs, e, ys, -, -, hfails⟩, -⟩ := u.upconvert_cases c
  · rw [Hook.view, heq]
  · obtain ⟨body, hbody⟩ := hs e
    rw [hbody] at hfails
    cases hfails

/-- What a read through an upconverting hook collects. -/
theorem collectItems_cases (u : Upconverter) (cs : List Commit) :
    (∀ c ∈ cs, ∀ e ∈ c.events, u.Succeeds e) ∧
        collectItems ((cs.map .ok).filterMap (Hook.shownItem [.upconvert u]))
          = .ok (cs.map (·.mapEvents u.current)) ∨
      ∃ before c after f, cs = before ++ c :: after ∧
        (∀ d ∈ before, ∀ e ∈ d.events, u.Succeeds e) ∧ u.FailsFirst c.events f ∧
        collectItems ((cs.map .ok).filterMap (Hook.shownItem [.upconvert u]))
          = .error (.conversion f) := by
  induction cs with
  | nil => exact .inl ⟨by simp, rfl⟩
  | cons c cs ih =>
    rw [List.map_cons, List.filterMap_cons, Hook.shownItem]
    obtain ⟨hall, heq⟩ | ⟨f, hfails, heq⟩ := u.upconvert_cases c
    · rw [heq]
      simp only [Option.map_some, collectItems]
      obtain ⟨hrest, hcollect⟩ | ⟨before, d, after, f, rfl, hbefore, hfails, hcollect⟩ := ih
      · rw [hcollect]
        exact .inl ⟨List.forall_mem_cons.2 ⟨hall, hrest⟩, rfl⟩
      · rw [hcollect]
        exact .inr ⟨c :: before, d, after, f, rfl, List.forall_mem_cons.2 ⟨hall, hbefore⟩, hfails,
          rfl⟩
    · rw [heq]
      exact .inr ⟨[], c, cs, f, rfl, by simp, hfails, rfl⟩

/-- **Upconversion on read never shifts a stream.**  Where all events of the commits that are loaded
can be converted, opening through the upconverter is opening the store itself, and then replacing
each committed event by one with the same headers and the payload that its conversion gives, which
is of a kind without converter. Otherwise opening fails, with the fault of the first event that is
refused in the first commit that has one. -/
theorem opens_current {converters : List Converter} (hu : build converters = .ok u) (m : Memory)
    (s : StreamId) (first last : Nat) :
    ((∀ c, .ok c ∈ m.read (.revisions s first last) → ∀ e ∈ c.events, u.Succeeds e) ∧
      ((Handle.openWindow s first last).run (Hook.store [.upconvert u] Memory.engine) m).value
        = ((Handle.openWindow s first last).run Memory.engine m).value.map
          (fun h => { h with committed := h.committed.map u.current }) ∧
      ∀ h, ((Handle.openWindow s first last).run Memory.engine m).value = .ok h →
        ∀ e ∈ h.committed, u.convertPayload e.body = .ok (u.current e).body ∧
          (u.current e).headers = e.headers ∧ u.converts (u.current e).body.kind = false) ∨
    ∃ (before : List Commit) (c : Commit) (after : List Commit) (f : ConversionFault),
      m.read (.revisions s first last) = before.map .ok ++ .ok c :: after.map .ok ∧
      (∀ d ∈ before, ∀ e ∈ d.events, u.Succeeds e) ∧ u.FailsFirst c.events f ∧
      ((Handle.openWindow s first last).run (Hook.store [.upconvert u] Memory.engine) m).value
        = .error (.conversion f) := by
  obtain ⟨hitems, -⟩ := Hook.store_read [.upconvert u] Memory.engine (.revisions s first last) m
  have hread : Feed.items (Memory.engine (.read (.revisions s first last)) m).1.reply
      = m.read (.revisions s first last) := Feed.items_ofItems _
  rw [Handle.run_openWindow_eq, Handle.run_openWindow_eq, hitems, hread]
  by_cases hoff : m.readsDisabled
  · -- a store that refuses reads is not opened either way
    have hrefused : m.read (.revisions s first last) = Memory.refusedRead := by
      rw [Memory.read, if_pos hoff]
    rw [hrefused]
    exact .inl ⟨by simp [Memory.refusedRead], rfl, fun h hopen => by cases hopen⟩
  rw [Memory.read_eq (Bool.not_eq_true _ ▸ hoff)]
  obtain ⟨hall, hcollect⟩ | ⟨before, c, after, f, hcs, hbefore, hfails, hcollect⟩ :=
    u.collectItems_cases (m.ledger.read (.revisions s first last))
  · refine .inl ⟨fun c hc => hall c (by simpa using hc), ?_, fun h hopen e he => ?_⟩
    · rw [hcollect, collectItems_ok]
      exact Handle.opened_mapEvents u.current first last s _
    · have hsucceeds : u.Succeeds e := by
        rw [collectItems_ok, Handle.opened] at hopen
        split at hopen
        · cases hopen
        cases hopen
        obtain hmem | hmem := Handle.mem_merge first last he
        · exact absurd hmem List.not_mem_nil
        · obtain ⟨c, hc, hmem⟩ := List.mem_flatMap.1 hmem
          exact hall c hc e hmem
      exact ⟨hsucceeds.convertPayload_eq, current_headers u e, converts_current hu hsucceeds⟩
  · refine .inr ⟨before, c, after, f, ?_, hbefore, hfails, by rw [hcollect]; rfl⟩
    rw [hcs, List.map_append, List.map_cons]

/-- A stream whose commits have events of two kinds, and one with an event that is refused. -/
def mixedKinds : Memory :=
  let event (kind text : String) : Event := ⟨⟨kind, .string text⟩, []⟩
  let attempt (stream : String) (sequence revision : Nat) (id : UInt8) (events : List Event) :
      Attempt := { Memory.sampleAttempt stream sequence revision 0 id with events := events }
  Memory.after
    [.commit (attempt "a" 1 2 1 [event "c" "v", event "b" "w"]),
      .commit (attempt "a" 2 4 2 [event "b" "x", event "c" "y"]),
      .commit (attempt "b" 1 2 1 [event "c" "v", event "a" "w"])]

theorem opens_current_mixedKinds :
    build wrapTwice = .ok ⟨wrapTwice⟩ ∧
      (∃ h g, ((Handle.openWindow ⟨"tenant", "a"⟩ 2 3).run Memory.engine mixedKinds).value = .ok h ∧
        ((Handle.openWindow ⟨"tenant", "a"⟩ 2 3).run
          (Hook.store [.upconvert ⟨wrapTwice⟩] Memory.engine) mixedKinds).value = .ok g ∧
        h.committed.map (·.body) = [⟨"b", .string "w"⟩, ⟨"b", .string "x"⟩] ∧
        g.committed.map (·.body)
          = [⟨"c", .array [.string "w"]⟩, ⟨"c", .array [.string "x"]⟩] ∧
        (g.revision, g.sequence) = (h.revision, h.sequence)) ∧
      ((Handle.openWindow ⟨"tenant", "b"⟩ 1 1).run
          (Hook.store [.upconvert ⟨wrapTwice⟩] Memory.engine) mixedKinds).value
        = .error (.conversion (.failed "b" "no string")) := by
  have hu : build wrapTwice = .ok ⟨wrapTwice⟩ := rfl
  refine ⟨hu, ?_, ?_⟩
  · obtain ⟨h, hopen, hbodies⟩ : ∃ h,
        ((Handle.openWindow ⟨"tenant", "a"⟩ 2 3).run Memory.engine mixedKinds).value = .ok h ∧
        h.committed.map (·.body) = [⟨"b", .string "w"⟩, ⟨"b", .string "x"⟩] :=
      ⟨_, rfl, by decide +kernel⟩
    obtain ⟨-, hsame, -⟩ | ⟨_, _, _, f, -, -, -, hfails⟩ :=
      opens_current hu mixedKinds ⟨"tenant", "a"⟩ 2 3
    · refine ⟨h, { h with committed := h.committed.map (current ⟨wrapTwice⟩) }, hopen, ?_, hbodies,
        ?_, rfl⟩
      · rw [hsame, hopen]
        rfl
      cases hopen
      decide +kernel
    · cases hfails
  · obtain ⟨hall, -⟩ | ⟨_, _, _, f, -, -, -, hfails⟩ :=
      opens_current hu mixedKinds ⟨"tenant", "b"⟩ 1 1
    · obtain ⟨body, hbody⟩ := hall _ (List.mem_singleton_self _) ⟨⟨"a", .string "w"⟩, []⟩
        (List.mem_cons_of_mem _ (List.mem_singleton_self _))
      cases hbody
    · exact hfails.trans (by cases hfails; rfl)

end Upconverter
end EventSourcing
