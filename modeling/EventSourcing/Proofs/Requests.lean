import EventSourcing.Proofs.Messages
import EventSourcing.Wire.Request

/-!
# Requests are read back from their bytes

What a method was called with is read as the request that was sent
(`Wire.Request.decode?_encode`), if the numbers of the request are those of their types. Requests
that are a message of their own are read as that message is.
-/

namespace EventSourcing
namespace Wire

open Protobuf

namespace Request

/-- The numbers of a request are those of their types, and the keys of its maps ascend. -/
def Fits : Request → Prop
  | .commit m => m.Fits
  | .revisions _ _ first last => first ≤ maxRevision ∧ last ≤ maxRevision
  | .after _ checkpoint => -9223372036854775808 ≤ checkpoint ∧ checkpoint < 9223372036854775808
  | .during _ start stop => (-9223372036854775808 ≤ start ∧ start < 9223372036854775808) ∧
    ∀ n ∈ stop, -9223372036854775808 ≤ n ∧ n < 9223372036854775808
  | .snapshot _ _ last => last ≤ maxRevision
  | .addSnapshot m => m.revision ≤ maxRevision
  | .streamsToSnapshot _ threshold => threshold ≤ maxRevision
  | .setUp | .drop | .purge _ | .deleteStream .. => True

/-- **A request is read back from its bytes.** -/
theorem decode?_encode {r : Request} (hr : r.Fits) (hbs : r.encode.length < 18446744073709551616) :
    decode? r.method r.encode = some r := by
  cases r with
  | commit m =>
    have htake (m : CommitMessage) (f : Field) :
        take (.commit m) f = (m.take maxDepth f).map .commit := rfl
    have hread := CommitMessage.decode?_of_writes hr m.writes_encode hbs
    exact (merge_map htake {} m.encode).trans (congrArg (Option.map Request.commit) hread)
  | addSnapshot m =>
    have htake (m : SnapshotMessage) (f : Field) :
        take (.addSnapshot m) f = (m.take f).map .addSnapshot := rfl
    have hread := SnapshotMessage.decode?_encode hr hbs
    exact (merge_map htake {} m.encode).trans (congrArg (Option.map Request.addSnapshot) hread)
  | revisions tenant stream first last =>
    have h2 : Takes maxDepth [] take (text 1 tenant ++ text 2 stream) (.revisions "" "" 0 0)
        (.revisions tenant stream 0 0) :=
      Takes.texts (.revisions · · 0 0) (fun _ => rfl) fun _ => rfl
    have h3 : Takes maxDepth [] take (word 3 first) (.revisions tenant stream 0 0)
        (.revisions tenant stream first 0) :=
      Takes.word (.revisions tenant stream · 0) (by decide) (by decide) (Nat.lt_succ_of_le hr.1)
        fun _ => rfl
    have h4 : Takes maxDepth [] take (word 4 last) (.revisions tenant stream first 0)
        (.revisions tenant stream first last) :=
      Takes.word (.revisions tenant stream first ·) (by decide) (by decide)
        (Nat.lt_succ_of_le hr.2) fun _ => rfl
    exact ((h2.append h3).append h4).merge hbs
  | after tenant checkpoint =>
    have h1 : Takes maxDepth [] take (text 1 tenant) (.after "" 0) (.after tenant 0) :=
      Takes.text (.after · 0) (by decide) fun _ => rfl
    have h2 : Takes maxDepth [] take (integer 2 checkpoint) (.after tenant 0)
        (.after tenant checkpoint) :=
      Takes.integer (.after tenant ·) (by decide) (by decide) hr fun _ => rfl
    exact (h1.append h2).merge hbs
  | during tenant start stop =>
    have h1 : Takes maxDepth [] take (text 1 tenant) (.during "" 0 none) (.during tenant 0 none) :=
      Takes.text (.during · 0 none) (by decide) fun _ => rfl
    have h2 : Takes maxDepth [] take (integer 2 start) (.during tenant 0 none)
        (.during tenant start none) :=
      Takes.integer (.during tenant · none) (by decide) (by decide) hr.1 fun _ => rfl
    cases stop with
    | none => exact ((h1.append h2).append Takes.nil).merge hbs
    | some n =>
      have h3 : Takes maxDepth [] take (someInteger 3 n) (.during tenant start none)
          (.during tenant start (some n)) :=
        Takes.someInteger (fun n => .during tenant start (some n)) (by decide) (by decide)
          (hr.2 n rfl) fun _ => rfl
      exact ((h1.append h2).append h3).merge hbs
  | snapshot tenant stream last =>
    have h2 : Takes maxDepth [] take (text 1 tenant ++ text 2 stream) (.snapshot "" "" 0)
        (.snapshot tenant stream 0) :=
      Takes.texts (.snapshot · · 0) (fun _ => rfl) fun _ => rfl
    have h3 : Takes maxDepth [] take (word 3 last) (.snapshot tenant stream 0)
        (.snapshot tenant stream last) :=
      Takes.word (.snapshot tenant stream ·) (by decide) (by decide) (Nat.lt_succ_of_le hr)
        fun _ => rfl
    exact (h2.append h3).merge hbs
  | streamsToSnapshot tenant threshold =>
    have h1 : Takes maxDepth [] take (text 1 tenant) (.streamsToSnapshot "" 0)
        (.streamsToSnapshot tenant 0) :=
      Takes.text (.streamsToSnapshot · 0) (by decide) fun _ => rfl
    have h2 : Takes maxDepth [] take (word 2 threshold) (.streamsToSnapshot tenant 0)
        (.streamsToSnapshot tenant threshold) :=
      Takes.word (.streamsToSnapshot tenant ·) (by decide) (by decide) (Nat.lt_succ_of_le hr)
        fun _ => rfl
    exact (h1.append h2).merge hbs
  | setUp | drop => rfl
  | purge tenant =>
    cases tenant with
    | none => rfl
    | some tenant =>
      have h1 : Takes maxDepth [] take (someText 1 tenant) (.purge none) (.purge (some tenant)) :=
        Takes.someText (fun tenant => .purge (some tenant)) (by decide) fun _ => rfl
      exact h1.merge hbs
  | deleteStream tenant stream =>
    exact (Takes.texts Request.deleteStream (fun _ => rfl) fun _ => rfl).merge hbs

end Request
end Wire
end EventSourcing
