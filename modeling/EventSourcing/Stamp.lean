/-!
# Time stamps

A stamp is a number of nanoseconds since the beginning of 1970, negative before it. Stores and
messages keep coarser stamps: whole microseconds or whole seconds, always rounded down.
-/

namespace EventSourcing

/-- A point in time, in nanoseconds since the beginning of 1970. -/
structure Stamp where
  nanos : Int
  deriving DecidableEq, Repr, Inhabited

namespace Stamp

/-- The stamp of whole seconds and nanoseconds after them. -/
def ofSeconds (seconds : Int) (nanos : Nat) : Stamp := ⟨seconds * 1000000000 + nanos⟩

/-- The whole seconds, rounded down. -/
def seconds (t : Stamp) : Int := t.nanos / 1000000000

/-- The nanoseconds after the whole seconds. -/
def subsecond (t : Stamp) : Nat := (t.nanos % 1000000000).toNat

/-- The whole microseconds, rounded down. -/
def micros (t : Stamp) : Int := t.nanos / 1000

def ofMicros (n : Int) : Stamp := ⟨n * 1000⟩

/-- The stamp at the precision of a microsecond. -/
def floorMicros (t : Stamp) : Stamp := ofMicros t.micros

/-- The stamp at the precision of a second. -/
def floorSeconds (t : Stamp) : Stamp := ofSeconds t.seconds 0

/-- The first and the last second that a calendar of a quarter million years either way reaches. -/
def minSeconds : Int := -8334601228800

def maxSeconds : Int := 8210266876799

/-- The stamp of whole seconds, if the calendar reaches it. -/
def ofSeconds? (n : Int) : Option Stamp :=
  if minSeconds ≤ n ∧ n ≤ maxSeconds then some (ofSeconds n 0) else none

/-- The stamp of whole microseconds, if the calendar reaches it. -/
def ofMicros? (n : Int) : Option Stamp :=
  if minSeconds ≤ n / 1000000 ∧ n / 1000000 ≤ maxSeconds then some (ofMicros n) else none

theorem micros_ofMicros (n : Int) : (ofMicros n).micros = n := by
  simp [micros, ofMicros]

theorem seconds_ofSeconds {s : Int} {n : Nat} (h : n < 1000000000) :
    (ofSeconds s n).seconds = s := by
  simp only [seconds, ofSeconds]; omega

end Stamp
end EventSourcing
