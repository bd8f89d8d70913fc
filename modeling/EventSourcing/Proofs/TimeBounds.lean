import EventSourcing.Proofs.Spans
import EventSourcing.Proofs.Transparency

/-!
# The bounds of a span of time

What a read of a span of time should yield is a `timeline`: the commits of a tenant with stamps from
the start on and before the stop, ordered by stamp and then by checkpoint. A store in memory yields
it (`Ledger.Kept.read_during`). The other stores compare on a coarser grid, and round the bounds
down to it: tables to the microsecond, requests to the second. So they yield the timeline of the
rounded bounds. The stamps that they report are on the grid too, but a bound between two points of
the grid is moved down to the lower one: a commit there is taken although it is before the start, or
left out although it is before the stop (`Stamp.Misplaced`). The read is right if and only if no
commit of the tenant is there.
-/

namespace EventSourcing

namespace Stamp

variable {round : Stamp → Stamp} {t start : Stamp} {stop : Option Stamp}

/-- From a start on, and before a stop if there is one. -/
def Within (t start : Stamp) (stop : Option Stamp) : Prop :=
  start.nanos ≤ t.nanos ∧ ∀ d ∈ stop, t.nanos < d.nanos

instance (t start : Stamp) (stop : Option Stamp) : Decidable (t.Within start stop) :=
  inferInstanceAs (Decidable (start.nanos ≤ t.nanos ∧ ∀ d ∈ stop, t.nanos < d.nanos))

/-- A stamp that is before the start but not before the rounded one, or before the stop but not
before the rounded one. -/
def Misplaced (t : Stamp) (round : Stamp → Stamp) (start : Stamp) (stop : Option Stamp) : Prop :=
  (t.nanos < start.nanos ∧ t.Within (round start) (stop.map round)) ∨
    (t.Within start stop ∧ ∃ d ∈ stop, (round d).nanos ≤ t.nanos)

instance (t : Stamp) (round : Stamp → Stamp) (start : Stamp) (stop : Option Stamp) :
    Decidable (t.Misplaced round start stop) :=
  inferInstanceAs (Decidable (_ ∨ _))

theorem floorMicros_le (t : Stamp) : t.floorMicros.nanos ≤ t.nanos := by
  show t.nanos / 1000 * 1000 ≤ t.nanos
  omega

theorem floorSeconds_le (t : Stamp) : t.floorSeconds.nanos ≤ t.nanos := by
  show t.nanos / 1000000000 * 1000000000 + 0 ≤ t.nanos
  omega

/-- Rounding the bounds down matters for the misplaced stamps and for no others. -/
theorem within_round_iff (hround : ∀ t, (round t).nanos ≤ t.nanos) :
    (t.Within (round start) (stop.map round) ↔ t.Within start stop) ↔
      ¬ t.Misplaced round start stop := by
  constructor
  · rintro h (⟨hlt, hin⟩ | ⟨hin, d, hd, hle⟩)
    · exact absurd (h.1 hin).1 (Int.not_le.2 hlt)
    · exact absurd ((h.2 hin).2 (round d) (Option.mem_map_of_mem round hd)) (Int.not_lt.2 hle)
  · intro h
    constructor
    · intro hin
      refine ⟨Int.not_lt.1 fun hlt => h (.inl ⟨hlt, hin⟩), fun d hd => ?_⟩
      exact Int.lt_of_lt_of_le (hin.2 (round d) (Option.mem_map_of_mem round hd)) (hround d)
    · intro hin
      refine ⟨Int.le_trans (hround start) hin.1, fun d hd => ?_⟩
      obtain ⟨u, hu, rfl⟩ := Option.mem_map.1 hd
      exact Int.not_le.1 fun hle => h (.inr ⟨hin, u, hu, hle⟩)

/-- A stamp that the calendar reaches is rounded down to a whole second that it reaches. -/
theorem onSecond_floorSeconds (hmin : minSeconds ≤ t.seconds) (hmax : t.seconds ≤ maxSeconds) :
    t.floorSeconds.OnSecond := by
  rw [OnSecond, floorSeconds, seconds_ofSeconds (by decide), ofSeconds?, if_pos ⟨hmin, hmax⟩]

theorem seconds_floorSeconds (t : Stamp) : t.floorSeconds.seconds = t.seconds :=
  seconds_ofSeconds (by decide)

end Stamp

/-- Where a commit stands in time. -/
def Commit.moment (c : Commit) : ℤ ×ₗ ℤ := toLex (c.stamp.nanos, c.checkpoint)

/-- The commits of a tenant within bounds, ordered by stamp and then by checkpoint. -/
def timeline (log : List Commit) (tenant : String) (start : Stamp) (stop : Option Stamp) :
    List Commit :=
  (log.filter fun c => c.stream.tenant = tenant ∧ c.stamp.Within start stop).mergeSort
    fun c d => c.moment ≤ d.moment

section Timelines

variable {log : List Commit} {tenant : String} {start start' : Stamp} {stop stop' : Option Stamp}
  {c : Commit}

theorem mem_timeline : c ∈ timeline log tenant start stop ↔
    c ∈ log ∧ c.stream.tenant = tenant ∧ c.stamp.Within start stop := by
  rw [timeline, List.mem_mergeSort, List.mem_filter, decide_eq_true_eq]

/-- Timelines of other bounds are the same if the bounds have the same commits within. -/
theorem timeline_eq_iff : timeline log tenant start stop = timeline log tenant start' stop' ↔
    ∀ c ∈ log, c.stream.tenant = tenant →
      (c.stamp.Within start stop ↔ c.stamp.Within start' stop') := by
  constructor
  · intro h c hc htenant
    have hmem : c ∈ timeline log tenant start stop ↔ c ∈ timeline log tenant start' stop' := by
      rw [h]
    simpa only [mem_timeline, hc, htenant, true_and] using hmem
  · intro h
    rw [timeline, timeline]
    congr 1
    exact List.filter_congr fun c hc => decide_eq_decide.2 (and_congr_right (h c hc))

/-- Rounding the bounds down leaves a timeline as it is if it misplaces no commit. -/
theorem timeline_round_iff {round : Stamp → Stamp} (hround : ∀ t, (round t).nanos ≤ t.nanos) :
    timeline log tenant (round start) (stop.map round) = timeline log tenant start stop ↔
      ∀ c ∈ log, c.stream.tenant = tenant → ¬ c.stamp.Misplaced round start stop := by
  rw [timeline_eq_iff]
  exact forall_congr' fun c => forall_congr' fun _ => forall_congr' fun _ =>
    Stamp.within_round_iff hround

/-- Commits in the order of their moments that answer a query for a span of time are its
timeline. -/
theorem eq_timeline {found : List Commit}
    (hperm : found.Perm (log.filter (Ledger.answers (.during tenant start stop))))
    (hsorted : found.Pairwise fun c d => c.moment < d.moment) :
    found = timeline log tenant start stop := by
  have hfilter : log.filter (Ledger.answers (.during tenant start stop))
      = log.filter fun c => c.stream.tenant = tenant ∧ c.stamp.Within start stop :=
    List.filter_congr fun c _ => by
      rw [Bool.eq_iff_iff, Ledger.answers_during, decide_eq_true_eq, Stamp.Within]
  rw [hfilter] at hperm
  exact (mergeSort_by_eq_of_perm hperm.symm hsorted).symm

/-- **A store in memory keeps to the bounds.**  It sorts by stamp alone, which keeps equal stamps in
the order of checkpoints. -/
theorem Ledger.Kept.read_during {l : Ledger} (h : l.Kept) (tenant : String) (start : Stamp)
    (stop : Option Stamp) :
    l.read (.during tenant start stop) = timeline l.log tenant start stop := by
  refine eq_timeline (l.perm_read _) ?_
  refine (pairwise_mergeSort_stable (fun a b c => ?_) (fun a b => ?_)
    (h.ascending.filter _)).imp fun {c d} hcd => ?_
  · simp only [decide_eq_true_eq]
    exact Int.le_trans
  · simp only [Bool.or_eq_true, decide_eq_true_eq]
    exact Int.le_total ..
  · simp only [decide_eq_true_eq] at hcd
    refine Prod.Lex.toLex_lt_toLex.2 ?_
    show c.stamp.nanos < d.stamp.nanos ∨
      c.stamp.nanos = d.stamp.nanos ∧ c.checkpoint < d.checkpoint
    omega

end Timelines

namespace Tables

variable {t : Tables} {rows : List CommitRow} {tenant : String} {start : Stamp}
  {stop : Option Stamp}

/-- The commits of rows that can be read. -/
def reported (rows : List CommitRow) : List Commit :=
  (rows.filter fun r => r.Readable).map CommitRow.commit

/-- If all rows that are found can be read, their commits are the timeline of the bounds in whole
microseconds. -/
theorem InOrder.map_found (h : InOrder rows)
    (hread : ∀ r ∈ (Query.during tenant start stop).found rows, r.Readable) :
    ((Query.during tenant start stop).found rows).map CommitRow.commit
      = timeline (reported rows) tenant start.floorMicros (stop.map Stamp.floorMicros) := by
  have hkept : InOrder (rows.filter fun r => r.Readable) := h.sublist List.filter_sublist
  have hreadable : ∀ r ∈ rows.filter fun r => r.Readable, r.Readable := fun r hr =>
    of_decide_eq_true (List.mem_filter.1 hr).2
  have hsees := hkept.sees hreadable (Query.during tenant start stop)
  have hselected : rows.filter (Query.during tenant start stop).selects
      = (rows.filter fun r => r.Readable).filter (Query.during tenant start stop).selects := by
    rw [List.filter_filter]
    refine List.filter_congr fun r hr => ?_
    cases hselects : (Query.during tenant start stop).selects r with
    | false => rfl
    | true => rw [decide_eq_true (hread r (Query.mem_found.2 ⟨hr, hselects⟩)), Bool.true_and]
  refine eq_timeline ?_ (List.pairwise_map.2 ((h.apart _).pairwise_found.imp_of_mem ?_))
  · refine ((Query.perm_found _ rows).map _).trans (.of_eq ?_)
    rw [hselected, reported, List.filter_map]
    congr 1
    exact List.filter_congr hsees.selects
  · intro r s hr hs hrs
    have hwhole {r : CommitRow} (hr : r ∈ (Query.during tenant start stop).found rows) :
        r.commit.stamp.nanos = r.commit.stamp.micros * 1000 := by
      obtain ⟨layout, c, rfl, -, -⟩ := h.written r (Query.mem_found.1 hr).1
      rw [(CommitRow.readAs_of_decode (hread _ hr)).stamp, Stamp.micros_ofMicros]
      rfl
    rw [CommitRow.rowKey_of_decode (hread r hr), CommitRow.rowKey_of_decode (hread s hs),
      Query.commitKey_before, decide_eq_true_eq] at hrs
    have hr := hwhole hr
    have hs := hwhole hs
    obtain hlt | hlt := Prod.Lex.toLex_lt_toLex.1 hrs
    · refine Prod.Lex.toLex_lt_toLex.2 (.inl ?_)
      simp only at hlt ⊢
      omega
    · refine Prod.Lex.toLex_lt_toLex.2 (.inr ?_)
      simp only at hlt ⊢
      omega

/-- **Tables round the bounds down to the microsecond.**  A read yields the timeline if and only if
the tenant has a name that a statement can hold, pages are no greater than the database can be asked
for, all rows that are found can be read, and no commit of the tenant is misplaced by the
rounding. -/
theorem InOrder.read_during_iff (h : InOrder t.commits) (o : TableOptions) :
    Database.read o (.during tenant start stop) (some t)
        = (timeline (reported t.commits) tenant start stop).map .ok ↔
      quotable tenant = true ∧ o.pageSize ≤ maxPage ∧
      (∀ r ∈ (Query.during tenant start stop).found t.commits, r.Readable) ∧
      ∀ c ∈ reported t.commits, c.stream.tenant = tenant →
        ¬ c.stamp.Misplaced Stamp.floorMicros start stop := by
  rw [← o.rowsPerPage_le_maxPage_iff]
  have hclean {e : Fault} (xs : List Item) (cs : List Commit) :
      xs ++ [.error e] ≠ cs.map .ok := fun heq => by
    have hmem : (Except.error e : Item) ∈ cs.map Except.ok := heq ▸ by simp
    obtain ⟨c, -, hc⟩ := List.mem_map.1 hmem
    cases hc
  by_cases hname : (Query.during tenant start stop).quotable = true
  swap
  · rw [Database.read_of_not_quotable (Bool.eq_false_iff.2 hname)]
    exact iff_of_false (hclean [] _) fun hright => hname hright.1
  rw [Database.read_of_quotable hname,
    and_iff_right (show quotable tenant = true from hname)]
  by_cases hmax : o.rowsPerPage ≤ maxPage
  · rw [and_iff_right hmax]
    rcases readable_or_exists ((Query.during tenant start stop).found t.commits) with
      hread | ⟨good, r, rest, e, hfound, hgood, he⟩
    · rw [and_iff_right hread, (h.apart _).readRows_readable o.one_le_rowsPerPage hmax hread,
        h.map_found hread, (List.map_injective_iff.2 fun _ _ => Except.ok.inj).eq_iff]
      exact timeline_round_iff Stamp.floorMicros_le
    · rw [(h.apart _).readRows_refused o.one_le_rowsPerPage hmax hfound hgood he]
      refine iff_of_false (hclean _ _) fun hright => CommitRow.not_readable he (hright.1 r ?_)
      simp [hfound]
  · rw [readRows, if_pos (Nat.not_le.1 hmax)]
    exact iff_of_false (hclean [] _) fun hright => hmax hright.1

end Tables

namespace Remote

open Wire

variable {σ : Type} {server : Server σ} {s : σ} {log : List Commit} {tenant : String}
  {start : Stamp} {stop : Option Stamp}

/-- A message that is read as a commit, if the client takes it. -/
def Arrives (c : Commit) (bs : Bytes) : Prop :=
  bs.length ≤ maxMessage → ∃ m, CommitMessage.decode? bs = some m ∧ m.toCommit = .ok c

/-- A server that keeps to the bounds of a span of time if they are whole seconds: it answers with
the timeline of its log, one message for each commit. -/
def KeepsTime (server : Server σ) (s : σ) (log : List Commit) : Prop :=
  ∀ method bs tenant, ∀ start : Stamp, ∀ stop : Option Stamp, start.OnSecond →
    (∀ d ∈ stop, d.OnSecond) →
    Request.decode? method bs = some (.during tenant start.seconds (stop.map Stamp.seconds)) →
    ∃ bss, (server method bs s).1 = .answered bss none ∧
      List.Forall₂ Arrives (timeline log tenant start stop) bss

/-- A time that the calendar reaches. -/
def InCalendar (t : Stamp) : Prop := Stamp.minSeconds ≤ t.seconds ∧ t.seconds ≤ Stamp.maxSeconds

instance : DecidablePred InCalendar := fun t =>
  inferInstanceAs (Decidable (Stamp.minSeconds ≤ t.seconds ∧ t.seconds ≤ Stamp.maxSeconds))

/-- **Requests round the bounds down to the second.**  What is read is the timeline of the rounded
bounds if the client takes every message, and no list of commits otherwise. -/
theorem KeepsTime.read_during_iff (h : KeepsTime server s log) (layout : Layout)
    (hstart : InCalendar start) (hstop : ∀ d ∈ stop, InCalendar d)
    (hlength : (readRequest (.during tenant start stop)).encode.length ≤ 9223372036854775807)
    (cs : List Commit) :
    Feed.items (engine layout server (.read (.during tenant start stop)) s).1.reply = cs.map .ok ↔
      takes layout server s (.read (.during tenant start stop)) = true ∧
        cs = timeline log tenant start.floorSeconds (stop.map Stamp.floorSeconds) := by
  have hsecond : start.floorSeconds.OnSecond := Stamp.onSecond_floorSeconds hstart.1 hstart.2
  have hseconds : ∀ d ∈ stop.map Stamp.floorSeconds, d.OnSecond := fun d hd => by
    obtain ⟨u, hu, rfl⟩ := Option.mem_map.1 hd
    exact Stamp.onSecond_floorSeconds (hstop u hu).1 (hstop u hu).2
  have hrequest : readRequest (.during tenant start stop) = .during tenant
      start.floorSeconds.seconds ((stop.map Stamp.floorSeconds).map Stamp.seconds) := by
    rw [readRequest, Stamp.seconds_floorSeconds, Option.map_map]
    congr 1
    exact Option.map_congr fun u _ => (Stamp.seconds_floorSeconds u).symm
  have hfits : (readRequest (.during tenant start stop)).Fits := by
    rw [hrequest]
    refine ⟨hsecond.seconds_mem, fun n hn => ?_⟩
    obtain ⟨d, hd, rfl⟩ := Option.mem_map.1 hn
    exact (hseconds d hd).seconds_mem
  have hdecode := Request.decode?_encode hfits (by omega)
  obtain ⟨bss, hanswer, harrives⟩ := h _ _ tenant _ _ hsecond hseconds
    (hdecode.trans (congrArg some hrequest))
  have hsend : (send server (readRequest (.during tenant start stop)) s).1
      = .answered bss none := hanswer
  show Feed.items (Feed.ofItems ((Delivery.stream _ (send server _ s).1).map _)) = _ ↔
    (send server (readRequest (.during tenant start stop)) s).1.short = true ∧ _
  rw [Feed.items_ofItems, hsend]
  exact stream_answered_iff (fun status => ⟨_, rfl⟩) harrives

/-- The message of a stored commit arrives as that commit. -/
theorem Stored.arrives {layout : Layout} {c : Commit} {bs : Bytes} (h : Stored c)
    (hbs : (CommitMessage.ofCommit layout c).Writes bs) : Arrives c bs := fun hshort =>
  ⟨_, h.decode? hbs hshort, h.toCommit⟩

theorem arrives_all {layout : Layout} {cs : List Commit} {bss : List Bytes}
    (hcs : ∀ c ∈ cs, Stored c)
    (h : List.Forall₂ (fun c => (CommitMessage.ofCommit layout c).Writes) cs bss) :
    List.Forall₂ Arrives cs bss := by
  induction h with
  | nil => exact .nil
  | cons hbs _ ih =>
    obtain ⟨hc, hcs⟩ := List.forall_mem_cons.1 hcs
    exact .cons (hc.arrives hbs) (ih hcs)

/-- A server of a store in memory keeps to the bounds. -/
theorem Serves.keepsTime {layout : Layout} {store : σ → Memory}
    (hserver : Serves layout server store) {past : List Operation}
    (hs : store s = Memory.after past) (hpast : ∀ op ∈ past, Portable op)
    (hlength : past.length ≤ 9223372036854775807) :
    KeepsTime server s (Memory.after past).ledger.log := by
  intro method bs tenant start stop hstart hstop hdecode
  have hop : operation? (.during tenant start.seconds (stop.map Stamp.seconds))
      = some (.read (.during tenant start stop)) := by
    have hstart' : Stamp.ofSeconds? start.seconds = some start := hstart
    rw [operation?, hstart']
    cases stop with
    | none => rfl
    | some d =>
      have hd : Stamp.ofSeconds? d.seconds = some d := hstop d rfl
      simp [hd]
  have hsound := Memory.sound_after past
  have hfeed : Feed.items (Memory.engine (.read (.during tenant start stop)) (store s)).1.reply
      = (timeline (Memory.after past).ledger.log tenant start stop).map .ok := by
    rw [hs, ← hsound.kept.read_during tenant start stop, ← Memory.read_eq hsound.reads]
    exact Feed.items_ofItems _
  obtain ⟨bss, hbss, hanswer⟩ := hserver.tells hdecode hop s _ hfeed
  exact ⟨bss, hanswer, arrives_all (fun c hc =>
    stored_of_mem hpast hlength (mem_timeline.1 hc).1) hbss⟩

end Remote

/-- **Reads round the bounds of a span of time down.**  Tables yield the timeline of the bounds in
whole microseconds, and a remote store, whose server keeps to whole seconds, that of the bounds in
whole seconds. This is the timeline of the bounds themselves if and only if no commit of the tenant
is misplaced by the rounding (and, of tables, the tenant has a name that a statement can hold, pages
are no greater than the database can be asked for and all rows that are found can be read; of a
remote store, the client takes every message that comes back). -/
theorem time_bounds_kept_iff (tenant : String) (start : Stamp) (stop : Option Stamp) :
    (∀ (run : List (TableOptions × Operation)), ∀ t ∈ Database.after run, ∀ o : TableOptions,
      (quotable tenant = true → o.pageSize ≤ maxPage →
        (∀ r ∈ (Query.during tenant start stop).found t.commits, r.Readable) →
        Database.read o (.during tenant start stop) (some t)
          = (timeline (Tables.reported t.commits) tenant start.floorMicros
            (stop.map Stamp.floorMicros)).map .ok) ∧
      (Database.read o (.during tenant start stop) (some t)
          = (timeline (Tables.reported t.commits) tenant start stop).map .ok ↔
        quotable tenant = true ∧ o.pageSize ≤ maxPage ∧
        (∀ r ∈ (Query.during tenant start stop).found t.commits, r.Readable) ∧
        ∀ c ∈ Tables.reported t.commits, c.stream.tenant = tenant →
          ¬ c.stamp.Misplaced Stamp.floorMicros start stop)) ∧
    ∀ {σ : Type} (layout : Layout) (server : Remote.Server σ) (s : σ) (log : List Commit),
      Remote.KeepsTime server s log → Remote.InCalendar start →
      (∀ d ∈ stop, Remote.InCalendar d) →
      (Remote.readRequest (.during tenant start stop)).encode.length ≤ 9223372036854775807 →
      (Remote.takes layout server s (.read (.during tenant start stop)) = true →
        Feed.items (Remote.engine layout server (.read (.during tenant start stop)) s).1.reply
          = (timeline log tenant start.floorSeconds (stop.map Stamp.floorSeconds)).map .ok) ∧
      (Feed.items (Remote.engine layout server (.read (.during tenant start stop)) s).1.reply
          = (timeline log tenant start stop).map .ok ↔
        Remote.takes layout server s (.read (.during tenant start stop)) = true ∧
        ∀ c ∈ log, c.stream.tenant = tenant →
          ¬ c.stamp.Misplaced Stamp.floorSeconds start stop) := by
  constructor
  · intro run t ht o
    have hordered := Database.ordered_after run t ht
    refine ⟨fun hname hpage hread => ?_, hordered.read_during_iff o⟩
    have hquery : (Query.during tenant start stop).quotable = true := hname
    rw [← hordered.map_found hread, Database.read_of_quotable hquery]
    exact (hordered.apart _).readRows_readable o.one_le_rowsPerPage
      (o.rowsPerPage_le_maxPage_iff.2 hpage) hread
  · intro σ layout server s log hserver hstart hstop hlength
    have hread := hserver.read_during_iff layout hstart hstop hlength
    refine ⟨fun htakes => (hread _).2 ⟨htakes, rfl⟩, (hread _).trans (and_congr_right fun _ => ?_)⟩
    exact eq_comm.trans (timeline_round_iff Stamp.floorSeconds_le)

/-- One commit, at a whole second. -/
def onSecond : List Operation := [.commit (Memory.sampleAttempt "a" 1 1 1 1)]

theorem time_bounds_kept_iff_scattered :
    (∃ t ∈ Database.after (scattered.map ({}, ·)),
      Database.read ⟨2, .compact⟩ (.during "tenant" ⟨-500⟩ (some ⟨5000000500⟩)) (some t)
        = (timeline (Tables.reported t.commits) "tenant" ⟨-500⟩ (some ⟨5000000500⟩)).map .ok) ∧
    Remote.KeepsTime (Remote.memoryServer .indented) (Memory.after onSecond)
      (Memory.after onSecond).ledger.log ∧
    Feed.items (Remote.engine .compact (Remote.memoryServer .indented)
        (.read (.during "tenant" ⟨-500⟩ (some ⟨5000000500⟩))) (Memory.after onSecond)).1.reply
      = (timeline (Memory.after onSecond).ledger.log "tenant" ⟨-500⟩ (some ⟨5000000500⟩)).map
        .ok := by
  obtain ⟨htables, hremote⟩ := time_bounds_kept_iff "tenant" ⟨-500⟩ (some ⟨5000000500⟩)
  constructor
  · have hmap : (Database.after (scattered.map ({}, ·))).map (fun t =>
        decide ((∀ r ∈ t.commits, r.Readable) ∧ ∀ c ∈ Tables.reported t.commits,
          ¬ c.stamp.Misplaced Stamp.floorMicros ⟨-500⟩ (some ⟨5000000500⟩))) = some true := by
      decide +kernel
    obtain ⟨t, ht, hgood⟩ := Option.map_eq_some_iff.1 hmap
    obtain ⟨hread, hplaced⟩ := of_decide_eq_true hgood
    exact ⟨t, ht, (htables _ t ht ⟨2, .compact⟩).2.2 ⟨by decide, by decide, fun r hr =>
      hread r (Query.mem_found.1 hr).1, fun c hc _ => hplaced c hc⟩⟩
  · have hpast : ∀ op ∈ onSecond, Remote.Portable op := List.forall_mem_singleton.2
      ⟨by decide, Remote.carried_sampleAttempt "a" 1 (by decide) (by decide) (by decide),
        fun layout => by cases layout <;> decide +kernel⟩
    have hkeeps : Remote.KeepsTime (Remote.memoryServer .indented) (Memory.after onSecond)
        (Memory.after onSecond).ledger.log :=
      (Remote.serves_memoryServer .indented).keepsTime (id_eq _) hpast (by decide)
    refine ⟨hkeeps, (hremote .compact _ _ _ hkeeps (by decide) (by decide) ?_).2.2 ⟨?_, ?_⟩⟩
    · decide +kernel
    · decide +kernel
    · decide +kernel

/-- A commit that was stamped before the start is read: in tables one of the microsecond that the
start is in, through a server one of its second. -/
theorem time_bounds_not_kept :
    (∃ t ∈ Database.after [({}, .setUp), ({}, .commit (stampedAttempt "a" 1000 .null))], ∃ c,
      Database.read {} (.during "tenant" ⟨1500⟩ none) (some t) = [.ok c] ∧
        c.stamp.nanos < (Stamp.mk 1500).nanos) ∧
    ∃ c, Feed.items (Remote.engine .compact (Remote.memoryServer .compact)
        (.read (.during "tenant" ⟨500000000⟩ none)) (Memory.after onSecond)).1.reply = [.ok c] ∧
      c.stamp.nanos < (Stamp.mk 500000000).nanos := by
  constructor
  · have hmap : (Database.after [({}, .setUp), ({}, .commit (stampedAttempt "a" 1000 .null))]).map
        (fun t => Database.read {} (.during "tenant" ⟨1500⟩ none) (some t))
        = some [.ok ((stampedAttempt "a" 1000 .null).confirm 1)] := by decide +kernel
    obtain ⟨t, ht, hread⟩ := Option.map_eq_some_iff.1 hmap
    exact ⟨t, ht, _, hread, by decide⟩
  · exact ⟨(Memory.sampleAttempt "a" 1 1 1 1).confirm 1, by decide +kernel, by decide⟩

end EventSourcing
