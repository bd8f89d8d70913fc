import EventSourcing.Fault

/-!
# The verdict on an attempt

A stream accepts an attempt that goes on right after its last commit. Two numbers decide: the
sequence and the revision of that commit, both zero for a stream without commits. An attempt whose
sequence is taken, or whose events start at or before the head revision, lost against another
writer; one that starts later, or skips a sequence, leaves a gap.
-/

namespace EventSourcing

/-- What a stream makes of an attempt. -/
inductive Verdict where
  | fits
  | occupied
  | gap
  deriving DecidableEq, Repr

namespace Attempt

/-- The verdict on an attempt at a stream whose last commit has these numbers. -/
def verdict (a : Attempt) (headSequence headRevision : Nat) : Verdict :=
  if a.sequence ≤ headSequence ∨ a.previousRevision < headRevision then .occupied
  else if a.sequence ≠ nextRevision headSequence ∨ a.previousRevision ≠ headRevision then .gap
  else .fits

/-- The fault of an attempt that was too late. -/
def conflict (a : Attempt) : Fault := .conflict a.stream a.revision a.sequence

/-- The text of a gap. -/
def gapText (a : Attempt) (headSequence headRevision : Nat) : String :=
  "commit sequence " ++ toString a.sequence ++ " / revision " ++ toString a.revision
    ++ " leaves a gap after head sequence " ++ toString headSequence ++ " / revision "
    ++ toString headRevision

/-- Refuses an attempt that does not fit. -/
def validate (a : Attempt) (headSequence headRevision : Nat) : Except Fault Unit :=
  match a.verdict headSequence headRevision with
  | .fits => .ok ()
  | .occupied => .error a.conflict
  | .gap => .error (.invalidAttempt (a.gapText headSequence headRevision))

theorem validate_eq_ok_iff (a : Attempt) (s r : Nat) :
    a.validate s r = .ok () ↔ a.verdict s r = .fits := by
  unfold validate; cases a.verdict s r <;> simp

end Attempt
end EventSourcing
