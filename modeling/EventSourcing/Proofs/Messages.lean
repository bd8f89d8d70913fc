import EventSourcing.Commit
import EventSourcing.Proofs.Protobuf
import EventSourcing.Wire.Message

/-!
# Messages are read back from their bytes

A message is read back from its bytes, however the entries of its maps are ordered in them
(`Wire.CommitMessage.decode?_of_writes`), if its fields have the types that they are written as
(`Wire.CommitMessage.Fits`). Each field takes the message that has the fields before it to the one
that has it too. So are the replies that carry messages (`Wire.CommitReply.decode?_of_writes`).
-/

namespace EventSourcing
namespace Wire

open Protobuf

namespace EventMessage

/-- The same event with the entries of its headers in another order. -/
def Shuffled (m m' : EventMessage) : Prop := m'.body = m.body ∧ m'.headers.Perm m.headers

/-- An event is read back from its bytes. -/
theorem takes {m m' : EventMessage} (hm : Ascending m.headers) (h : Shuffled m m') (depth : Nat) :
    Takes depth maps (take depth) m'.encode {} m := by
  obtain ⟨body, headers⟩ := m
  obtain ⟨body', headers'⟩ := m'
  obtain ⟨rfl, hheaders⟩ := h
  have h1 : Takes depth maps (take depth) (text 1 body') {} { body := body' } :=
    Takes.text (fun body => { body }) (by decide) fun _ => rfl
  have h2 : Takes depth maps (take depth) (entries 2 headers') { body := body' }
      { body := body', headers } :=
    Takes.entries (fun headers => { body := body', headers }) (by decide) hm hheaders fun _ _ => rfl
  exact h1.append h2

end EventMessage

namespace CommitMessage

/-- The numbers of a message are those of their types, and the keys of its maps ascend. -/
structure Fits (m : CommitMessage) : Prop where
  revision_le : m.revision ≤ maxRevision
  sequence_le : m.sequence ≤ maxRevision
  stamp_mem : -9223372036854775808 ≤ m.stamp ∧ m.stamp < 9223372036854775808
  checkpoint_mem : -9223372036854775808 ≤ m.checkpoint ∧ m.checkpoint < 9223372036854775808
  headers : Ascending m.headers
  events : ∀ e ∈ m.events, Ascending e.headers

/-- Bytes that a message is written as: the entries of its maps come in some order. -/
def Writes (m : CommitMessage) (bs : Bytes) : Prop :=
  ∃ hs es, hs.Perm m.headers ∧ List.Forall₂ EventMessage.Shuffled m.events es ∧
    bs = encode { m with headers := hs, events := es }

theorem writes_encode (m : CommitMessage) : m.Writes m.encode :=
  ⟨m.headers, m.events, List.Perm.refl _,
    List.forall₂_same.2 fun _ _ => ⟨rfl, List.Perm.refl _⟩, rfl⟩

variable {m : CommitMessage} {bs : Bytes}

/-- Events are added to those before them. -/
theorem takes_events {es es' : List EventMessage} (h : List.Forall₂ EventMessage.Shuffled es es')
    (hes : ∀ e ∈ es, Ascending e.headers) (depth : Nat) (m : CommitMessage) :
    Takes depth maps (take depth) (es'.flatMap fun e => message 9 e.encode) m
      { m with events := m.events ++ es } := by
  induction h generalizing m with
  | nil =>
    rw [List.append_nil]
    exact Takes.nil
  | @cons e e' es es' he _ ih =>
    obtain ⟨hheaders, hes⟩ := List.forall_mem_cons.1 hes
    have hevent : Takes depth maps (take depth) (message 9 e'.encode) m
        { m with events := m.events ++ [e] } := by
      refine Takes.message (by decide) fun hlength => ?_
      have hread := (EventMessage.takes hheaders he (depth - 1)).merge hlength
      exact congrArg (Option.map _) hread
    have hrest := ih hes { m with events := m.events ++ [e] }
    rw [List.append_assoc, List.singleton_append] at hrest
    exact hevent.append hrest

/-- The bytes of a commit take the blank message to the commit. -/
theorem takes (hm : m.Fits) (h : m.Writes bs) (depth : Nat) :
    Takes depth maps (take depth) bs {} m := by
  obtain ⟨hs, es, hheaders, hevents, rfl⟩ := h
  obtain ⟨tenant, stream, revision, id, sequence, stamp, checkpoint, headers, events⟩ := m
  have h2 : Takes depth maps (take depth) (text 1 tenant ++ text 2 stream) {} { tenant, stream } :=
    Takes.texts (fun tenant stream => { tenant, stream }) (fun _ => rfl) fun _ => rfl
  have h3 : Takes depth maps (take depth) (word 3 revision) { tenant, stream }
      { tenant, stream, revision } :=
    Takes.word (fun revision => { tenant, stream, revision }) (by decide) (by decide)
      (Nat.lt_succ_of_le hm.revision_le) fun _ => rfl
  have h4 : Takes depth maps (take depth) (text 4 id) { tenant, stream, revision }
      { tenant, stream, revision, id } :=
    Takes.text (fun id => { tenant, stream, revision, id }) (by decide) fun _ => rfl
  have h5 : Takes depth maps (take depth) (word 5 sequence) { tenant, stream, revision, id }
      { tenant, stream, revision, id, sequence } :=
    Takes.word (fun sequence => { tenant, stream, revision, id, sequence }) (by decide) (by decide)
      (Nat.lt_succ_of_le hm.sequence_le) fun _ => rfl
  have h6 : Takes depth maps (take depth) (integer 6 stamp)
      { tenant, stream, revision, id, sequence }
      { tenant, stream, revision, id, sequence, stamp } :=
    Takes.integer (fun stamp => { tenant, stream, revision, id, sequence, stamp }) (by decide)
      (by decide) hm.stamp_mem fun _ => rfl
  have h7 : Takes depth maps (take depth) (integer 7 checkpoint)
      { tenant, stream, revision, id, sequence, stamp }
      { tenant, stream, revision, id, sequence, stamp, checkpoint } :=
    Takes.integer (fun checkpoint => { tenant, stream, revision, id, sequence, stamp, checkpoint })
      (by decide) (by decide) hm.checkpoint_mem fun _ => rfl
  have h8 : Takes depth maps (take depth) (entries 8 hs)
      { tenant, stream, revision, id, sequence, stamp, checkpoint }
      { tenant, stream, revision, id, sequence, stamp, checkpoint, headers } :=
    Takes.entries
      (fun headers => { tenant, stream, revision, id, sequence, stamp, checkpoint, headers })
      (by decide) hm.headers hheaders fun _ _ => rfl
  have h9 := takes_events hevents hm.events depth
    { tenant, stream, revision, id, sequence, stamp, checkpoint, headers }
  exact ((((((h2.append h3).append h4).append h5).append h6).append h7).append h8).append h9

/-- **A commit is read back from its bytes.** -/
theorem decode?_of_writes (hm : m.Fits) (h : m.Writes bs) (hbs : bs.length < 18446744073709551616) :
    decode? bs = some m :=
  (takes hm h maxDepth).merge hbs

/-- The order of the entries does not change how long a message is. -/
theorem length_of_writes (h : m.Writes bs) : bs.length = m.encode.length := by
  have hentries (number : Nat) {es es' : TextMap} (h : es'.Perm es) :
      (entries number es').length = (entries number es).length := (h.flatMap_right _).length_eq
  obtain ⟨hs, es, hheaders, hevents, rfl⟩ := h
  have hflat : (es.flatMap fun e => message 9 e.encode).length
      = (m.events.flatMap fun e => message 9 e.encode).length := by
    clear hs hheaders
    generalize m.events = events at hevents
    induction hevents with
    | nil => rfl
    | @cons e e' es es' he _ ih =>
      have hevent : e'.encode.length = e.encode.length := by
        rw [EventMessage.encode, EventMessage.encode, List.length_append, List.length_append, he.1,
          hentries 2 he.2]
      rw [List.flatMap_cons, List.flatMap_cons, List.length_append, List.length_append, ih,
        message, message, delimited, delimited, hevent, List.length_append, List.length_append,
        List.length_append, List.length_append, hevent]
  simp only [encode, List.length_append, hentries 8 hheaders, hflat]


end CommitMessage

namespace SnapshotMessage

/-- The bytes of a snapshot take the blank message to the snapshot. -/
theorem takes {m : SnapshotMessage} (hm : m.revision ≤ maxRevision) (depth : Nat) :
    Takes depth [] take m.encode {} m := by
  obtain ⟨tenant, stream, revision, payload⟩ := m
  have h2 : Takes depth [] take (text 1 tenant ++ text 2 stream) {} { tenant, stream } :=
    Takes.texts (fun tenant stream => { tenant, stream }) (fun _ => rfl) fun _ => rfl
  have h3 : Takes depth [] take (word 3 revision) { tenant, stream }
      { tenant, stream, revision } :=
    Takes.word (fun revision => { tenant, stream, revision }) (by decide) (by decide)
      (Nat.lt_succ_of_le hm) fun _ => rfl
  have h4 : Takes depth [] take (text 4 payload) { tenant, stream, revision }
      { tenant, stream, revision, payload } :=
    Takes.text (fun payload => { tenant, stream, revision, payload }) (by decide) fun _ => rfl
  exact (h2.append h3).append h4

/-- **A snapshot is read back from its bytes.** -/
theorem decode?_encode {m : SnapshotMessage} (hm : m.revision ≤ maxRevision)
    (hbs : m.encode.length < 18446744073709551616) : decode? m.encode = some m :=
  (takes hm maxDepth).merge hbs

end SnapshotMessage

namespace HeadMessage

/-- A head is read back from its bytes. -/
theorem decode?_encode {m : HeadMessage} (hhead : m.head ≤ maxRevision)
    (hsnapshot : m.snapshot ≤ maxRevision) (hbs : m.encode.length < 18446744073709551616) :
    decode? m.encode = some m := by
  obtain ⟨tenant, stream, head, snapshot⟩ := m
  have h2 : Takes maxDepth [] take (text 1 tenant ++ text 2 stream) {} { tenant, stream } :=
    Takes.texts (fun tenant stream => { tenant, stream }) (fun _ => rfl) fun _ => rfl
  have h3 : Takes maxDepth [] take (word 3 head) { tenant, stream } { tenant, stream, head } :=
    Takes.word (fun head => { tenant, stream, head }) (by decide) (by decide)
      (Nat.lt_succ_of_le hhead) fun _ => rfl
  have h4 : Takes maxDepth [] take (word 4 snapshot) { tenant, stream, head }
      { tenant, stream, head, snapshot } :=
    Takes.word (fun snapshot => { tenant, stream, head, snapshot }) (by decide) (by decide)
      (Nat.lt_succ_of_le hsnapshot) fun _ => rfl
  exact ((h2.append h3).append h4).merge hbs

end HeadMessage

namespace CommitReply

/-- Bytes that the answer to an attempt is written as. -/
def Writes (o : CommitOutcome) (c : Option CommitMessage) (bs : Bytes) : Prop :=
  match c with
  | none => bs = integer 1 o.number
  | some m => ∃ cs, m.Writes cs ∧ bs = integer 1 o.number ++ message 2 cs

theorem writes_encode (o : CommitOutcome) (c : Option CommitMessage) :
    Writes o c (encode ⟨o.number, c⟩) := by
  cases c with
  | none => exact List.append_nil _
  | some m => exact ⟨m.encode, m.writes_encode, rfl⟩

/-- **The answer to an attempt is read back from its bytes.** -/
theorem decode?_of_writes {o : CommitOutcome} {c : Option CommitMessage} {bs : Bytes}
    (hc : ∀ m ∈ c, m.Fits) (h : Writes o c bs) (hbs : bs.length < 18446744073709551616) :
    decode? bs = some ⟨o.number, c⟩ := by
  have houtcome : Takes maxDepth [] take (integer 1 o.number) {} ⟨o.number, none⟩ := by
    cases o with
    | empty => exact Takes.nil
    | committed => exact Takes.number (by decide) (by decide) (by decide) rfl
    | duplicate => exact Takes.number (by decide) (by decide) (by decide) rfl
  cases c with
  | none =>
    obtain rfl : bs = integer 1 o.number := h
    exact houtcome.merge hbs
  | some m =>
    obtain ⟨cs, hcs, rfl⟩ := h
    have hcommit : Takes maxDepth [] take (message 2 cs) ⟨o.number, none⟩ ⟨o.number, some m⟩ := by
      refine Takes.message (by decide) fun hlength => ?_
      have hread := (CommitMessage.takes (hc m rfl) hcs (maxDepth - 1)).merge hlength
      exact congrArg (Option.map _) hread
    exact (houtcome.append hcommit).merge hbs

end CommitReply

namespace SnapshotReply

/-- The answer with a snapshot, or without one, is read back from its bytes. -/
theorem decode?_encode {r : SnapshotReply} (hr : ∀ m ∈ r.snapshot, m.revision ≤ maxRevision)
    (hbs : r.encode.length < 18446744073709551616) : decode? r.encode = some r := by
  obtain ⟨_ | m⟩ := r
  · rfl
  · have hsnapshot : Takes maxDepth [] take (message 1 m.encode) {} ⟨some m⟩ := by
      refine Takes.message (by decide) fun hlength => ?_
      have hread := (SnapshotMessage.takes (hr m rfl) (maxDepth - 1)).merge hlength
      exact congrArg (Option.map _) hread
    exact hsnapshot.merge hbs

end SnapshotReply

/-- The answer whether a snapshot was recorded is read back from its bytes. -/
theorem AddedReply.decode?_encode (r : AddedReply) : decode? r.encode = some r := by
  obtain ⟨_ | _⟩ := r <;> decide

end Wire
end EventSourcing
