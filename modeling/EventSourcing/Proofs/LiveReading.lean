import EventSourcing.Proofs.TableOrder

/-!
# Reading while others write

A read is pulled: it fetches a page when somebody asks for an item and its buffer is empty, and
hands out the commits of the page one by one (`Reading.pull`). Between two pulls others may write. A
`LiveRead` is a database with one such read and everything it has answered so far; pulls and writes
take turns in any order. If nobody writes, the read answers what the database finds at once
(`LiveRead.answers_pulls`).

What was seen are the commits that were handed out or are in the buffer. They are always in strictly
ascending order, the next page starts after the last of them, and a matching commit that was there
at the first fetch is either seen or comes after everything seen (`LiveRead.Sound`). A commit that
is written meanwhile gets a greater checkpoint than all others, and a greater sequence than those of
its stream. So for reads of a stream or after a checkpoint it is still ahead of the read; only a
read of a span of time can have passed it.
-/

namespace EventSourcing

/-- The order of the query is the order in which commits arrive. -/
def Query.ByArrival (q : Query) : Prop := ∀ tenant start stop, q ≠ .during tenant start stop

/-- Of two commits that answer a query, the later one has another place, and a later one if the
order is that of arrival. -/
theorem Query.place_of_precedes {q : Query} {c d : Commit} (hc : Ledger.answers q.floored c = true)
    (hd : Ledger.answers q.floored d = true) (hprecedes : c.Precedes d) :
    q.place c ≠ q.place d ∧ (q.ByArrival → q.place c < q.place d) := by
  cases q with
  | revisions s first last =>
    have hstream : c.stream = d.stream := by
      simp only [floored, Ledger.answers, Bool.and_eq_true, decide_eq_true_eq] at hc hd
      rw [hc.1.1, hd.1.1]
    have hlt : place (.revisions s first last) c < place (.revisions s first last) d :=
      Prod.Lex.toLex_lt_toLex.2 (.inl (Int.ofNat_lt.2 (hprecedes.2 hstream)))
    exact ⟨ne_of_lt hlt, fun _ => hlt⟩
  | after tenant checkpoint =>
    have hlt : place (.after tenant checkpoint) c < place (.after tenant checkpoint) d :=
      Prod.Lex.toLex_lt_toLex.2 (.inl hprecedes.1)
    exact ⟨ne_of_lt hlt, fun _ => hlt⟩
  | during tenant start stop =>
    refine ⟨fun he => ?_, fun h => absurd rfl (h tenant start stop)⟩
    exact absurd (congrArg (fun x => (ofLex x).2) he) (ne_of_lt hprecedes.1)

/-- A read under way. -/
structure Reading where
  /-- The commits of the page that were not handed out yet. -/
  buffer : List Commit := []
  /-- The position that the next page starts after. -/
  cursor : Option PageKey := none
  /-- There is no next page. -/
  exhausted : Bool := false

/-- Fetches a page through a store. -/
def Database.fetch (o : TableOptions) (q : Query) (cursor : Option PageKey) :
    Database → Except Fault Page
  | none => .error .database
  | some t =>
    if q.quotable ∧ o.rowsPerPage ≤ maxPage then fetchPage q o.rowsPerPage cursor t.commits
    else .error .database

namespace Reading

/-- Fetches the next page, if there is one and the buffer is empty. -/
def refill (o : TableOptions) (q : Query) (db : Database) (r : Reading) : Except Fault Reading :=
  if r.buffer.isEmpty && !r.exhausted then
    (db.fetch o q r.cursor).map fun page => ⟨page.commits, page.next, page.next.isNone⟩
  else .ok r

/-- Asks a read for its next item; there is none when it is over. A fault ends a read. -/
def pull (o : TableOptions) (q : Query) (db : Database) (r : Reading) : Option Item × Reading :=
  match r.refill o q db with
  | .error e => (some (.error e), ⟨[], none, true⟩)
  | .ok r =>
    match r.buffer with
    | [] => (none, r)
    | c :: cs => (some (.ok c), { r with buffer := cs })

end Reading

/-- The commits of a database that can be read entirely. -/
def Database.log : Database → Except Fault (List Commit)
  | none => .error .database
  | some t => decodeRows t.commits

/-- A database with a read under way. -/
structure LiveRead where
  database : Database
  reading : Reading := {}
  /-- What was answered to each pull so far. -/
  answers : List (Option Item) := []

namespace LiveRead

/-- What happens to a database with a read. -/
inductive Turn where
  | pull
  /-- Somebody writes, through a store of any options. -/
  | write (options : TableOptions) (attempt : Attempt)

variable (o : TableOptions) (q : Query)

def step (s : LiveRead) : Turn → LiveRead
  | .pull =>
    let (answer, reading) := s.reading.pull o q s.database
    { s with reading, answers := s.answers ++ [answer] }
  | .write p a => { s with database := (Database.commit p a s.database).2 }

def run (db : Database) (turns : List Turn) : LiveRead :=
  turns.foldl (step o q) { database := db }

/-- What holds of a read that has handed out some commits and answered some pulls with nothing, if
the database held the one log at the first fetch and holds the other now. -/
structure Sound (before now : List Commit) (s : LiveRead) (cs : List Commit) (ends : Nat) :
    Prop where
  answers : s.answers = cs.map (fun c => some (.ok c)) ++ List.replicate ends none
  matching : ∀ c ∈ cs ++ s.reading.buffer, c ∈ now ∧ Ledger.answers q.floored c = true
  ascending : (cs ++ s.reading.buffer).Pairwise fun c d => q.place c < q.place d
  cursor : s.reading.exhausted = false →
    s.reading.cursor = (cs ++ s.reading.buffer).getLast?.map q.commitKey
  grown : ∀ c ∈ before, c ∈ now
  covered : ∀ c ∈ before, Ledger.answers q.floored c = true → c ∈ cs ++ s.reading.buffer ∨
    s.reading.exhausted = false ∧ ∀ d ∈ cs ++ s.reading.buffer, q.place d < q.place c
  /-- If the order is that of arrival, the read has passed nothing. -/
  ahead : q.ByArrival → ∀ c ∈ now, Ledger.answers q.floored c = true →
    c ∈ cs ++ s.reading.buffer ∨ ∀ d ∈ cs ++ s.reading.buffer, q.place d < q.place c
  finished : 0 < ends → s.reading.buffer = [] ∧ s.reading.exhausted = true

end LiveRead

namespace Query

variable {q : Query} {cs log : List Commit} {c : Commit}

/-- After ascending commits come those that are after all of them. -/
theorem mem_rest (hcs : cs.Pairwise fun c d => q.place c < q.place d) :
    c ∈ q.rest (cs.getLast?.map q.commitKey) log ↔
      (c ∈ log ∧ Ledger.answers q.floored c = true) ∧ ∀ d ∈ cs, q.place d < q.place c := by
  rw [rest, List.mem_mergeSort, List.mem_filter, List.mem_filter]
  refine and_congr_right fun _ => ?_
  cases hlast : cs.getLast? with
  | none =>
    rw [List.getLast?_eq_none_iff.1 hlast]
    exact iff_of_true rfl fun _ hd => absurd hd List.not_mem_nil
  | some e =>
    obtain ⟨ds, rfl⟩ := List.getLast?_eq_some_iff.1 hlast
    rw [Option.map_some, Option.all_some, commitKey_before, decide_eq_true_eq]
    refine ⟨fun he d hd => ?_, fun h => h e (by simp)⟩
    rcases List.mem_append.1 hd with hd | hd
    · exact lt_trans ((List.pairwise_append.1 hcs).2.2 d hd e (by simp)) he
    · rwa [List.mem_singleton.1 hd]

/-- The rest of an answer is in strict order if its commits have different places. -/
theorem pairwise_rest (h : (log.filter (Ledger.answers q.floored)).Pairwise fun c d =>
    q.place c ≠ q.place d) (cursor : Option PageKey) :
    (q.rest cursor log).Pairwise fun c d => q.place c < q.place d := by
  have hne : (q.rest cursor log).Pairwise fun c d => q.place c ≠ q.place d :=
    (List.mergeSort_perm ..).pairwise_iff (fun h => Ne.symm h) |>.2 (h.sublist List.filter_sublist)
  exact ((pairwise_mergeSort_by q.place _).and hne).imp fun h => lt_of_le_of_ne h.1 h.2

/-- There is a next page if the page is full, and it starts after its last commit. -/
theorem next_eq {page : List Commit} {n : Nat} (hn : 1 ≤ n) (hle : page.length ≤ n)
    {next : Option PageKey}
    (hnext : next = if page.length < n then none else page.getLast?.map q.commitKey) :
    (next.isNone = false ↔ page.length = n) ∧
      (page.length = n → next = page.getLast?.map q.commitKey) := by
  by_cases hfull : page.length = n
  · rw [if_neg (by omega)] at hnext
    refine ⟨iff_of_true ?_ hfull, fun _ => hnext⟩
    rw [hnext, List.getLast?_eq_some_getLast (List.ne_nil_of_length_pos (by omega))]
    rfl
  · rw [if_pos (by omega)] at hnext
    refine ⟨iff_of_false ?_ hfull, fun h => absurd h hfull⟩
    rw [hnext]
    exact Bool.noConfusion

end Query

/-- What is not among the first items of a list comes after all of them. -/
theorem mem_take_or_after {α : Type*} {R : α → α → Prop} {l : List α} (hl : l.Pairwise R) {a : α}
    (ha : a ∈ l) (n : Nat) : a ∈ l.take n ∨ (l.take n).length = n ∧ ∀ b ∈ l.take n, R b a := by
  rw [← List.take_append_drop n l] at ha hl
  rcases List.mem_append.1 ha with ha | ha
  · exact .inl ha
  · have hlength := List.length_pos_of_mem ha
    rw [List.length_drop] at hlength
    exact .inr ⟨List.length_take_of_le (by omega), fun b hb =>
      (List.pairwise_append.1 hl).2.2 b hb a ha⟩

namespace Database

variable {o : TableOptions} {q : Query} {db : Database} {log : List Commit}

theorem exists_of_log (h : db.log = .ok log) : ∃ t, db = some t ∧
    (∀ r ∈ t.commits, r.decode = .ok r.commit) ∧ t.commits.map CommitRow.commit = log := by
  cases db with
  | none => cases h
  | some t =>
    obtain ⟨hread, hcommits⟩ := decodeRows_eq_ok_iff.1 h
    exact ⟨t, rfl, hread, hcommits⟩

/-- The commits that answer a query have different places in its order. -/
theorem Ordered.pairwise_place (h : Ordered db) (hlog : db.log = .ok log) (q : Query) :
    (log.filter (Ledger.answers q.floored)).Pairwise fun c d => q.place c ≠ q.place d := by
  obtain ⟨t, rfl, hread, rfl⟩ := exists_of_log hlog
  refine (((h t rfl).pairwise_commit hread).filter _).imp_of_mem fun hc hd hprecedes => ?_
  exact (Query.place_of_precedes (List.mem_filter.1 hc).2 (List.mem_filter.1 hd).2 hprecedes).1

/-- Whatever a commit adds to a database is later than everything that is there. -/
theorem Ordered.exists_of_log_commit (h : Ordered db) {p : TableOptions} {a : Attempt}
    {log' : List Commit} (hlog : (Database.commit p a db).2.log = .ok log') :
    ∃ log more, db.log = .ok log ∧ log' = log ++ more ∧
      ∀ c ∈ log, ∀ d ∈ more, c.Precedes d := by
  have hordered := h.commit p a
  obtain ⟨-, he⟩ | ⟨t, c, t', rfl, -, -, happend, he⟩ := commit_cases p a db
  · rw [he] at hlog
    exact ⟨log', [], hlog, (List.append_nil _).symm, fun _ _ _ hd => absurd hd List.not_mem_nil⟩
  · have haccepts := Tables.accepts_of_append happend
    rw [he] at hlog hordered
    obtain ⟨u, hu, hread, rfl⟩ := exists_of_log hlog
    obtain rfl := Option.some.inj hu
    have hprecedes := (hordered t' rfl).pairwise_commit hread
    rw [haccepts.commits, List.map_append] at hprecedes ⊢
    refine ⟨_, _, decodeRows_eq_ok_iff.2 ⟨fun r hr => hread r ?_, rfl⟩, rfl,
      (List.pairwise_append.1 hprecedes).2.2⟩
    rw [haccepts.commits]
    exact List.mem_append_left _ hr

/-- A page that is fetched holds the first commits of what is still to be read. -/
theorem Ordered.fetch_eq (h : Ordered db) (hlog : db.log = .ok log) {q : Query}
    (hasked : q.quotable = true ∧ o.pageSize ≤ maxPage) (cursor : Option PageKey) :
    let page := (q.rest cursor log).take o.rowsPerPage
    db.fetch o q cursor = .ok ⟨page,
      if page.length < o.rowsPerPage then none else page.getLast?.map q.commitKey⟩ := by
  obtain ⟨t, rfl, hread, rfl⟩ := exists_of_log hlog
  rw [fetch, if_pos ⟨hasked.1, o.rowsPerPage_le_maxPage_iff.2 hasked.2⟩]
  exact ((h t rfl).sees hread q).fetchPage_eq o.rowsPerPage cursor

end Database

namespace LiveRead.Sound

variable {o : TableOptions} {q : Query} {before now : List Commit} {s : LiveRead}
  {cs : List Commit} {ends : Nat}

theorem ends_eq_zero (h : Sound q before now s cs ends)
    (hopen : s.reading.buffer ≠ [] ∨ s.reading.exhausted = false) : ends = 0 := by
  by_contra hne
  obtain ⟨hbuffer, hexhausted⟩ := h.finished (Nat.pos_of_ne_zero hne)
  rcases hopen with hopen | hopen
  · exact hopen hbuffer
  · rw [hexhausted] at hopen
    cases hopen

/-- With a page of what is still to be read a read stays sound. -/
theorem fetched (h : Sound q before now s cs ends) (hbuffer : s.reading.buffer = [])
    (hopen : s.reading.exhausted = false)
    (hdistinct : (now.filter (Ledger.answers q.floored)).Pairwise fun c d => q.place c ≠ q.place d)
    {n : Nat} (hn : 1 ≤ n) {page : List Commit} {next : Option PageKey}
    (hpage : page = (q.rest s.reading.cursor now).take n)
    (hnext : next = if page.length < n then none else page.getLast?.map q.commitKey) :
    Sound q before now { s with reading := ⟨page, next, next.isNone⟩ } cs ends ∧
      (page = [] → next.isNone = true) := by
  have hends := h.ends_eq_zero (.inr hopen)
  have hseen : cs ++ s.reading.buffer = cs := by rw [hbuffer, List.append_nil]
  obtain ⟨hanswers, hmatching, hascending, hcursor, hgrown, hcovered, hahead, -⟩ := h
  rw [hseen] at hmatching hascending hcursor hcovered hahead
  have hrest := Query.pairwise_rest hdistinct s.reading.cursor
  have hmem {c : Commit} : c ∈ q.rest s.reading.cursor now ↔ (c ∈ now ∧
      Ledger.answers q.floored c = true) ∧ ∀ d ∈ cs, q.place d < q.place c := by
    rw [hcursor hopen]
    exact Query.mem_rest hascending
  have htake : ∀ c ∈ page, c ∈ q.rest s.reading.cursor now := fun c hc =>
    List.mem_of_mem_take (hpage ▸ hc)
  obtain ⟨hopen', hfull⟩ := Query.next_eq hn (hpage ▸ List.length_take_le ..) hnext
  -- what was still to be read is on the page, or there is a next page and it comes after this one
  have hstep : ∀ c ∈ q.rest s.reading.cursor now, c ∈ cs ++ page ∨
      next.isNone = false ∧ ∀ d ∈ cs ++ page, q.place d < q.place c := by
    intro c hc
    rcases mem_take_or_after hrest hc n with hin | ⟨hlength, hafter⟩
    · exact .inl (List.mem_append_right _ (hpage ▸ hin))
    · rw [← hpage] at hlength hafter
      refine .inr ⟨hopen'.2 hlength, fun d hd => ?_⟩
      rcases List.mem_append.1 hd with hd | hd
      · exact (hmem.1 hc).2 d hd
      · exact hafter d hd
  refine ⟨{
    answers := hanswers
    matching := fun c hc => ?matching
    ascending := ?ascending
    cursor := fun hsome => ?cursor
    grown := hgrown
    covered := fun c hc hq => ?covered
    ahead := fun harrival c hc hq => ?ahead
    finished := fun hpos => absurd hends (by omega) }, fun hempty => ?last⟩
  case matching =>
    rcases List.mem_append.1 hc with hc | hc
    · exact hmatching c hc
    · exact (hmem.1 (htake c hc)).1
  case ascending =>
    refine List.pairwise_append.2 ⟨hascending, ?_, fun c hc d hd => (hmem.1 (htake d hd)).2 c hc⟩
    exact hpage ▸ hrest.sublist (List.take_sublist ..)
  case cursor =>
    have hlength := hopen'.1 hsome
    have hne : page ≠ [] := List.ne_nil_of_length_pos (by omega)
    rw [List.getLast?_append_of_ne_nil _ hne]
    exact hfull hlength
  case covered =>
    rcases hcovered c hc hq with hin | ⟨-, hafter⟩
    · exact .inl (List.mem_append_left _ hin)
    · exact hstep c (hmem.2 ⟨⟨hgrown c hc, hq⟩, hafter⟩)
  case ahead =>
    rcases hahead harrival c hc hq with hin | hafter
    · exact .inl (List.mem_append_left _ hin)
    · exact (hstep c (hmem.2 ⟨⟨hc, hq⟩, hafter⟩)).imp_right And.right
  case last =>
    by_contra hsome
    have hlength := hopen'.1 (Bool.eq_false_iff.2 hsome)
    rw [hempty] at hlength
    exact absurd hlength (Nat.ne_of_lt hn)

/-- Filling the buffer keeps a read sound, and a buffer that is empty then means the end. -/
theorem refill (h : Sound q before now s cs ends) (hdb : Database.Ordered s.database)
    (hlog : s.database.log = .ok now)
    (hasked : q.quotable = true ∧ o.pageSize ≤ maxPage) :
    ∃ r, s.reading.refill o q s.database = .ok r ∧
      Sound q before now { s with reading := r } cs ends ∧
      (r.buffer = [] → r.exhausted = true) := by
  rw [Reading.refill]
  split
  · rename_i hfetch
    obtain ⟨hbuffer, hopen⟩ : s.reading.buffer = [] ∧ s.reading.exhausted = false := by
      simpa using hfetch
    rw [hdb.fetch_eq hlog hasked]
    exact ⟨_, rfl, h.fetched hbuffer hopen (hdb.pairwise_place hlog q)
      o.one_le_rowsPerPage rfl rfl⟩
  · rename_i hkeep
    refine ⟨s.reading, rfl, h, fun hbuffer => ?_⟩
    simpa [hbuffer] using hkeep

/-- A pull keeps a read sound: it hands out the next commit, or the read is over. -/
theorem pull (h : Sound q before now s cs ends) (hdb : Database.Ordered s.database)
    (hlog : s.database.log = .ok now)
    (hasked : q.quotable = true ∧ o.pageSize ≤ maxPage) :
    ∃ cs ends, Sound q before now (s.step o q .pull) cs ends := by
  obtain ⟨r, hrefill, hr, hempty⟩ := h.refill hdb hlog hasked
  rw [step, Reading.pull, hrefill]
  obtain ⟨buffer, cursor, exhausted⟩ := r
  cases buffer with
  | nil =>
    refine ⟨cs, ends + 1, { hr with answers := ?_, finished := fun _ => ⟨rfl, hempty rfl⟩ }⟩
    show s.answers ++ [none] = _
    rw [h.answers, List.append_assoc, List.replicate_succ']
  | cons c buffer =>
    have hends := hr.ends_eq_zero (.inl (List.cons_ne_nil c buffer))
    have hseen : cs ++ c :: buffer = (cs ++ [c]) ++ buffer := by simp
    obtain ⟨hanswers, hmatching, hascending, hcursor, hgrown, hcovered, hahead, -⟩ := hr
    simp only [hseen] at hmatching hascending hcursor hcovered hahead
    refine ⟨cs ++ [c], 0, ?_, hmatching, hascending, hcursor, hgrown, hcovered, hahead, nofun⟩
    show s.answers ++ [some (.ok c)] = _
    rw [h.answers, hends, List.map_append]
    simp

/-- Later commits keep a read sound. -/
theorem grow (h : Sound q before now s cs ends) {more : List Commit}
    (hmore : ∀ c ∈ now, ∀ d ∈ more, c.Precedes d)
    (db : Database) : Sound q before (now ++ more) { s with database := db } cs ends where
  answers := h.answers
  matching c hc := ⟨List.mem_append_left _ (h.matching c hc).1, (h.matching c hc).2⟩
  ascending := h.ascending
  cursor := h.cursor
  grown c hc := List.mem_append_left _ (h.grown c hc)
  covered := h.covered
  ahead harrival c hc hq := by
    rcases List.mem_append.1 hc with hc | hc
    · exact h.ahead harrival c hc hq
    · refine .inr fun d hd => ?_
      obtain ⟨hd, hqd⟩ := h.matching d hd
      exact (Query.place_of_precedes hqd hq (hmore d hd c hc)).2 harrival
  finished := h.finished

end LiveRead.Sound

namespace LiveRead

variable {o : TableOptions} {q : Query} {db : Database} {before now : List Commit}

theorem run_concat (turns : List Turn) (turn : Turn) :
    run o q db (turns ++ [turn]) = (run o q db turns).step o q turn := by
  rw [run, List.foldl_append]
  rfl

theorem ordered_run (h : Database.Ordered db) (turns : List Turn) :
    Database.Ordered (run o q db turns).database := by
  induction turns using List.reverseRecOn with
  | nil => exact h
  | append_singleton turns turn ih =>
    rw [run_concat]
    cases turn with
    | pull => exact ih
    | write p a => exact ih.commit p a

/-- A read is sound whatever the turns, as long as every row can be read. -/
theorem sound_run (hdb : Database.Ordered db) (hbefore : db.log = .ok before)
    (hasked : q.quotable = true ∧ o.pageSize ≤ maxPage) (turns : List Turn)
    (hnow : (run o q db turns).database.log = .ok now) :
    ∃ cs ends, Sound q before now (run o q db turns) cs ends := by
  induction turns using List.reverseRecOn generalizing now with
  | nil =>
    obtain rfl : before = now := Except.ok.inj (hbefore.symm.trans hnow)
    exact ⟨[], 0, rfl, nofun, .nil, fun _ => rfl, fun _ hc => hc, fun _ _ _ => .inr ⟨rfl, nofun⟩,
      fun _ _ _ _ => .inr nofun, nofun⟩
  | append_singleton turns turn ih =>
    have hordered := ordered_run (o := o) (q := q) hdb turns
    rw [run_concat] at hnow ⊢
    cases turn with
    | pull =>
      obtain ⟨cs, ends, hsound⟩ := ih hnow
      exact hsound.pull hordered hnow hasked
    | write p a =>
      obtain ⟨log, more, hlog, rfl, hmore⟩ := hordered.exists_of_log_commit hnow
      obtain ⟨cs, ends, hsound⟩ := ih hlog
      exact ⟨cs, ends, hsound.grow hmore _⟩

/-- What a read should answer if the database holds the one log at the first fetch and the other in
the end: commits, and then, when it is over, nothing any more. Bounds of a span of time count in
whole microseconds, as stamps do in the database. -/
structure Right (q : Query) (before now : List Commit) (answers : List (Option Item))
    (cs : List Commit) (ends : Nat) : Prop where
  commits : answers = cs.map (fun c => some (.ok c)) ++ List.replicate ends none
  matching : ∀ c ∈ cs, c ∈ now ∧ Ledger.answers q.floored c = true
  ascending : cs.Pairwise fun c d => q.place c < q.place d
  /-- A read is over at the latest when it was pulled once more than there are commits. -/
  finished : now.length < answers.length → 0 < ends
  complete : 0 < ends → ∀ c ∈ before, Ledger.answers q.floored c = true → c ∈ cs
  /-- If the order is that of arrival, nothing is skipped that comes before a commit. -/
  gapless : q.ByArrival → ∀ pre d post, cs = pre ++ d :: post → ∀ c ∈ now,
    Ledger.answers q.floored c = true → q.place c < q.place d → c ∈ pre

/-- A fault is neither a commit nor nothing. -/
theorem not_right_error {e : Fault} {more : List (Option Item)} {cs : List Commit} {ends : Nat} :
    ¬ Right q before now (some (.error e) :: more) cs ends := by
  intro h
  have hcommits := h.commits
  cases cs with
  | nil => cases ends <;> cases hcommits
  | cons c cs => cases hcommits

/-- A sound read is right. -/
theorem Sound.right {s : LiveRead} {cs : List Commit} {ends : Nat}
    (h : Sound q before now s cs ends) : Right q before now s.answers cs ends where
  commits := h.answers
  matching c hc := h.matching c (List.mem_append_left _ hc)
  ascending := (List.pairwise_append.1 h.ascending).1
  finished hlength := by
    have hnodup : cs.Nodup := (List.pairwise_append.1 h.ascending).1.imp fun hlt he =>
      absurd (congrArg q.place he) (ne_of_lt hlt)
    have hsub : cs ⊆ now := fun c hc => (h.matching c (List.mem_append_left _ hc)).1
    have hle : cs.length ≤ now.length := hnodup.length_le_of_subset hsub
    rw [h.answers, List.length_append, List.length_map, List.length_replicate] at hlength
    omega
  complete hends c hc hq := by
    obtain ⟨hbuffer, hexhausted⟩ := h.finished hends
    rcases h.covered c hc hq with hin | ⟨hopen, -⟩
    · rwa [hbuffer, List.append_nil] at hin
    · rw [hexhausted] at hopen
      cases hopen
  gapless harrival pre d post hcs c hc hq hlt := by
    have hascending := h.ascending
    rw [hcs, List.append_assoc, List.cons_append] at hascending
    have hafter := (List.pairwise_cons.1 (List.pairwise_append.1 hascending).2.1).1
    rcases h.ahead harrival c hc hq with hin | hahead
    · rw [hcs, List.append_assoc, List.cons_append] at hin
      rcases List.mem_append.1 hin with hin | hin
      · exact hin
      · rcases List.mem_cons.1 hin with rfl | hin
        · exact absurd hlt (lt_irrefl _)
        · exact absurd hlt (lt_asymm (hafter c hin))
    · refine absurd hlt (lt_asymm (hahead d ?_))
      rw [hcs]
      simp

/-- What was answered is not taken back. -/
theorem exists_answers_append (s : LiveRead) (turns : List Turn) :
    ∃ more, (turns.foldl (step o q) s).answers = s.answers ++ more := by
  induction turns generalizing s with
  | nil => exact ⟨[], (List.append_nil _).symm⟩
  | cons turn turns ih =>
    obtain ⟨more, hmore⟩ := ih (s.step o q turn)
    rw [List.foldl_cons, hmore]
    cases turn with
    | pull => exact ⟨_, List.append_assoc ..⟩
    | write => exact ⟨more, rfl⟩

/-- What a database cannot be asked for is not fetched. -/
theorem step_pull_refused (hasked : ¬ (q.quotable = true ∧ o.pageSize ≤ maxPage))
    (hbefore : db.log = .ok before) :
    step o q { database := db } .pull
      = { database := db, reading := ⟨[], none, true⟩, answers := [some (.error .database)] } := by
  obtain ⟨t, rfl, -, -⟩ := Database.exists_of_log hbefore
  have hrefill : Reading.refill o q (some t) {} = .error .database := by
    show (Database.fetch o q none (some t)).map _ = _
    rw [Database.fetch, if_neg (mt (And.imp_right o.rowsPerPage_le_maxPage_iff.1) hasked)]
    rfl
  rw [step, Reading.pull, hrefill]
  rfl

theorem run_pulls (n : Nat) : (run o q db (List.replicate n .pull)).database = db ∧
    (run o q db (List.replicate n .pull)).answers.length = n := by
  induction n with
  | zero => exact ⟨rfl, rfl⟩
  | succ n ih =>
    rw [List.replicate_succ', run_concat]
    exact ⟨ih.1, by rw [step, List.length_append, ih.2, List.length_singleton]⟩

/-- If nobody writes, a read that is pulled to its end answers what the database finds at once. -/
theorem answers_pulls (hdb : Database.Ordered db) (hlog : db.log = .ok before)
    (hasked : q.quotable = true ∧ o.pageSize ≤ maxPage) {n : Nat} (hn : before.length < n) :
    ∃ ends, (run o q db (List.replicate n .pull)).answers
      = (Database.read o q db).map some ++ List.replicate ends none := by
  obtain ⟨hsame, hlength⟩ := @run_pulls o q db n
  obtain ⟨cs, ends, hsound⟩ := sound_run hdb hlog hasked (List.replicate n .pull) (hsame ▸ hlog)
  have hright := hsound.right
  have hends := hright.finished (by omega)
  have hne {c d : Commit} (h : q.place c ≠ q.place d) : c ≠ d := fun he => h (congrArg q.place he)
  have hperm : cs.Perm (before.filter (Ledger.answers q.floored)) := by
    refine (List.perm_ext_iff_of_nodup (hright.ascending.imp fun hlt => hne (ne_of_lt hlt))
      ((hdb.pairwise_place hlog q).imp hne)).2 fun c => ?_
    rw [List.mem_filter]
    exact ⟨hright.matching c, fun hc => hright.complete hends c hc.1 hc.2⟩
  obtain ⟨t, rfl, hread, rfl⟩ := Database.exists_of_log hlog
  have hrows : Database.read o q (some t) = cs.map .ok :=
    (Database.read_of_quotable hasked.1).trans <|
      ((hdb t rfl).sees hread q).readRows_eq hperm hright.ascending o.one_le_rowsPerPage
        (o.rowsPerPage_le_maxPage_iff.2 hasked.2)
  refine ⟨ends, ?_⟩
  rw [hright.commits, hrows, List.map_map]
  rfl

/-- **Reads are right while others write.**  Whatever ran before, let every row be readable, and let
others write anything through stores of any options between two pulls of a read. The read is right
if and only if its names can stand in a statement and its pages are no greater than what a database
can be asked for. -/
theorem right_iff (o : TableOptions) (q : Query) (history : List (TableOptions × Operation))
    (turns : List Turn) (hbefore : (Database.after history).log = .ok before)
    (hnow : (run o q (Database.after history) (.pull :: turns)).database.log = .ok now) :
    (∃ cs ends,
      Right q before now (run o q (Database.after history) (.pull :: turns)).answers cs ends) ↔
      q.quotable = true ∧ o.pageSize ≤ maxPage := by
  constructor
  · rintro ⟨cs, ends, hright⟩
    by_contra hasked
    obtain ⟨more, hmore⟩ := exists_answers_append (o := o) (q := q)
      (step o q { database := Database.after history } .pull) turns
    rw [run, List.foldl_cons, hmore, step_pull_refused hasked hbefore] at hright
    exact not_right_error hright
  · intro hasked
    obtain ⟨cs, ends, hsound⟩ := sound_run (Database.ordered_after history) hbefore hasked
      (.pull :: turns) hnow
    exact ⟨cs, ends, hsound.right⟩

/-- A run that sets the tables up and writes two commits of one stamp. -/
def twoStreams : List (TableOptions × Operation) :=
  [({}, .setUp), ({}, .commit (Memory.sampleAttempt "a" 1 2 2 1)),
    ({}, .commit (Memory.sampleAttempt "b" 1 1 1 2))]

def twoStreamsLog : List Commit :=
  [(Memory.sampleAttempt "a" 1 2 2 1).confirm 1, (Memory.sampleAttempt "b" 1 1 1 2).confirm 2]

/-- A read of a span of time in pages of one row, with a third commit of the same stamp in
between. -/
def writtenMeanwhile : LiveRead :=
  run ⟨1, .compact⟩ (.during "tenant" ⟨0⟩ none) (Database.after twoStreams)
    [.pull, .write {} (Memory.sampleAttempt "a" 2 3 1 3), .pull, .pull, .pull]

theorem right_iff_writtenMeanwhile :
    (Database.after twoStreams).log = .ok twoStreamsLog ∧
      writtenMeanwhile.database.log
        = .ok (twoStreamsLog ++ [(Memory.sampleAttempt "a" 2 3 1 3).confirm 3]) ∧
      ∃ cs ends, Right (.during "tenant" ⟨0⟩ none) twoStreamsLog
        (twoStreamsLog ++ [(Memory.sampleAttempt "a" 2 3 1 3).confirm 3])
        writtenMeanwhile.answers cs ends := by
  have hbefore : (Database.after twoStreams).log = .ok twoStreamsLog := by decide +kernel
  have hnow : writtenMeanwhile.database.log
      = .ok (twoStreamsLog ++ [(Memory.sampleAttempt "a" 2 3 1 3).confirm 3]) := by decide +kernel
  exact ⟨hbefore, hnow, (right_iff ⟨1, .compact⟩ (.during "tenant" ⟨0⟩ none) twoStreams _ hbefore
    hnow).2 (by decide)⟩

/-- One row more than a database can be asked for: the commits that are there are not handed out. -/
theorem not_right_great_page :
    (Database.after twoStreams).log = .ok twoStreamsLog ∧
      (run ⟨9223372036854775808, .compact⟩ (.after "tenant" 0) (Database.after twoStreams)
          [.pull, .pull]).answers = [some (.error .database), none] ∧
      ¬ ∃ cs ends, Right (.after "tenant" 0) twoStreamsLog twoStreamsLog
        (run ⟨9223372036854775808, .compact⟩ (.after "tenant" 0) (Database.after twoStreams)
          [.pull, .pull]).answers cs ends := by
  have hanswers : (run ⟨9223372036854775808, .compact⟩ (.after "tenant" 0)
      (Database.after twoStreams) [.pull, .pull]).answers = [some (.error .database), none] := by
    decide +kernel
  refine ⟨by decide +kernel, hanswers, ?_⟩
  rw [hanswers]
  rintro ⟨cs, ends, hright⟩
  exact not_right_error hright

end LiveRead
end EventSourcing
