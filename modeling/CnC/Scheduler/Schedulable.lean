import Mathlib.Tactic.Common

/-!
# Schedulables

The part of `CnC::Internal::schedulable` which decides when a step instance may
be scheduled: a counter of pending calls of `suspend`, a flag which records
whether `suspend` was called since the flag was reset, and the status.
-/

namespace CnC.Scheduler

/-- The values of `m_status`. -/
inductive Status where
  | unprepared
  | prepared
  | pending
  | fromPending
  | done
  deriving DecidableEq, Repr

inductive StepReturnValue where
  | success
  | unfinished
  | failure
  | needsSequentialize
  | needsExtraWake
  deriving DecidableEq, Repr

structure Schedulable where
  nSuspenders : Int
  wasSuspendedSinceReset : Bool
  status : Status
  deriving DecidableEq, Repr

namespace Schedulable

/-- The constructor. -/
def create : Schedulable where
  nSuspenders := 0
  wasSuspendedSinceReset := false
  status := .unprepared

def suspend (s : Schedulable) : Schedulable :=
  { s with nSuspenders := s.nSuspenders + 1, wasSuspendedSinceReset := true }

/-- Undo one call of `suspend`, and tell whether it was the last one. -/
def unsuspend (s : Schedulable) : Schedulable × Bool :=
  ({ s with nSuspenders := s.nSuspenders - 1 }, s.nSuspenders == 1)

def resetWasSuspended (s : Schedulable) : Schedulable :=
  { s with wasSuspendedSinceReset := false }

end Schedulable

end CnC.Scheduler
