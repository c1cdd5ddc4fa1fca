/-
The comparison at the end of `checkHolderIdentity` of `src/service/instance-lock.ts`: is the process with the recorded id
the one that wrote the record? The sentinel of `acquireMutex` and the lock of `stopLockHolder` are both judged by it.
-/
import Mathlib.Algebra.Order.Group.Unbundled.Abs
import Mathlib.Algebra.Order.Group.Int
import Mathlib.Tactic.Common

namespace AstramemLocal.Service

/-- milliseconds -/
abbrev Clock := ℤ

abbrev Pid := ℕ

def IDENTITY_TOLERANCE_MS : ℤ := 60000

inductive HolderIdentity where
  | dead
  | noRecordedStart
  | queryFailed
  | mismatch
  | matches
deriving DecidableEq, Repr

/-- the last comparison, with the OS's answer to the query for the start of the process -/
def compareStart (recordedStart : Clock) : Option Clock → HolderIdentity
  | none => .queryFailed
  | some actualStart => if IDENTITY_TOLERANCE_MS < |actualStart - recordedStart| then .mismatch else .matches

theorem compareStart_mismatch {t : Clock} {actual : Option Clock} (h : compareStart t actual = .mismatch) :
    ∃ a, actual = some a ∧ IDENTITY_TOLERANCE_MS < |a - t| := by
  cases actual with
  | none => simp [compareStart] at h
  | some a =>
    refine ⟨a, rfl, ?_⟩
    by_contra hle
    simp [compareStart, hle] at h

end AstramemLocal.Service
