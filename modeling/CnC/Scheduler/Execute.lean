import CnC.Library.Transition
import CnC.Scheduler.Schedulable

/-!
# Executing step instances

Plain step instances on one process, from `create_step_instance` to their
deletion: they are neither part of a range nor pre-scheduled nor sequentialized.
With `m_bypass`, a step instance which is scheduled by another one is not queued
but hung on it as `m_succStep`, and executed next by the same thread.

Every thread may stand in a pass of the loop of `do_execute` and, outside of a pass
or within `execute`, in a call which puts an item or creates a step instance.  The
atomic steps are the operations on a counter of suspends, on the status, on
`m_succStep`, on `m_userStepsInFlight`, on the queue of the scheduler and on a
suspend group, and the deletions.
-/

namespace CnC.Execute

open Transition CnC.Scheduler

universe u

variable {Step Item Thread : Type u}

/-- The pointer `m_succStep` comes with the number of the call of `schedule` which
has set it. -/
structure Instance (Step : Type u) where
  sched : Schedulable
  succStep : Option (Step × Nat)

/-- Where a pass of the loop of `do_execute` stands: before the extra suspend, in
`execute`, before it reads `m_succStep`, before it decrements the counter of steps
or of suspends, before it deletes the instance; after the last unsuspend before the
test of `done`; after another unsuspend before it decrements the counter of steps,
before it clears `m_succStep` and before it marks its successor; and at the end of
the loop.  `newS` is the successor it has read. -/
inductive Phase (Step : Type u) where
  | begin
  | executing
  | returned (success : Bool)
  | read (success : Bool) (newS : Option (Step × Nat))
  | delete (newS : Option (Step × Nat))
  | again (newS : Option (Step × Nat))
  | failed (newS : Option (Step × Nat))
  | clear (newS : Option (Step × Nat))
  | mark (newS : Option (Step × Nat))
  | next (newS : Option (Step × Nat))

/-- A pass with its instance, for a call of `schedule`. -/
structure Pass (Step : Type u) where
  step : Step
  ticket : Nat
  phase : Phase Step

/-- Where the put of an item or the creation of a step instance stands.  A put
resumes the members of the suspend group of the item and logs each of them.  Both
call `schedule`, which counts the step, reads `m_succStep` and then queues the
instance or sets `m_succStep`; `after` is the item of the put, if it is one. -/
inductive Call (Step Item : Type u) where
  | resume (item : Item)
  | log (step : Step) (item : Item)
  | prepareBegin (step : Step)
  | preparing (step : Step)
  | prepareEnd (step : Step)
  | test (step : Step)
  | delete (step : Step)
  | count (step : Step) (after : Option Item)
  | hang (step : Step) (ticket : Nat) (after : Option Item)
  | enqueue (step : Step) (ticket : Nat) (after : Option Item)
  | write (step : Step) (ticket : Nat) (after : Option Item)
  deriving DecidableEq

/-- What has happened: the instances for which `schedule` has counted a step, for
each of these calls the instances of the passes which started for it and the number
of decrements, the deletions, and whether an instance was used after its deletion.
No step reads it, except for the number of the next call. -/
structure History (Step : Type u) where
  calls : List Step
  started : Nat → List Step
  ended : Nat → Nat
  deletes : Step → Nat
  misused : Bool

/-- The queue of the scheduler holds an instance for each call of `schedule` which
has put one there; it may be served in any order. -/
structure State (Step Item Thread : Type u) where
  inst : Step → Instance Step
  created : Step → Bool
  present : Item → Bool
  waiting : List (Item × Option Step)
  queue : Nat → Option Step
  pass : Thread → Option (Pass Step)
  call : Thread → Option (Call Step Item)
  userStepsInFlight : Int
  waiters : Nat
  history : History Step

/-- How `execute` returns.  A canceled step does nothing and reports success. -/
inductive Outcome where
  | success
  | canceled
  | unfinished
  deriving DecidableEq

inductive Action (Step Item Thread : Type u) where
  | pop (thread : Thread) (ticket : Nat)
  | advancePass (thread : Thread)
  | get (thread : Thread) (item : Item)
  | put (thread : Thread) (item : Item)
  | create (thread : Thread) (step : Step)
  | return_ (thread : Thread) (outcome : Outcome)
  | advanceCall (thread : Thread)
  | depends (thread : Thread) (item : Item)
  | passOn (thread : Thread) (all : Bool)
  | prepared (thread : Thread)
  | wait
  | unwait

section Steps

variable [DecidableEq Step] [DecidableEq Item] [DecidableEq Thread]

/-- `scheduler_i::current`. -/
def State.current (s : State Step Item Thread) (thread : Thread) : Option Step :=
  match s.pass thread with
  | some ⟨step, _, .executing⟩ => some step
  | _ => none

/-- The thread is the environment or runs user code of a step. -/
def State.Free (s : State Step Item Thread) (thread : Thread) : Prop :=
  (s.call thread).isNone ∧ ((s.pass thread).isNone ∨ (s.current thread).isSome)

instance (s : State Step Item Thread) (thread : Thread) : Decidable (s.Free thread) := by
  unfold State.Free
  infer_instance

def State.modify (s : State Step Item Thread) (step : Step)
    (change : Schedulable → Schedulable) : State Step Item Thread :=
  { s with
    inst := Function.update s.inst step
      { s.inst step with sched := change (s.inst step).sched } }

def State.setSucc (s : State Step Item Thread) (step : Step) (succ : Option (Step × Nat)) :
    State Step Item Thread :=
  { s with inst := Function.update s.inst step { s.inst step with succStep := succ } }

def State.setPass (s : State Step Item Thread) (thread : Thread) (pass : Option (Pass Step)) :
    State Step Item Thread :=
  { s with pass := Function.update s.pass thread pass }

def State.setCall (s : State Step Item Thread) (thread : Thread) (call : Option (Call Step Item)) :
    State Step Item Thread :=
  { s with call := Function.update s.call thread call }

/-- The decrement of `m_userStepsInFlight` at the end of a pass. -/
def State.decrement (s : State Step Item Thread) (ticket : Nat) : State Step Item Thread :=
  { s with
    userStepsInFlight := s.userStepsInFlight - 1
    history := { s.history with
      ended := Function.update s.history.ended ticket (s.history.ended ticket + 1) } }

def State.start (s : State Step Item Thread) (thread : Thread) (step : Step) (ticket : Nat) :
    State Step Item Thread :=
  { s.setPass thread (some ⟨step, ticket, .begin⟩) with
    history := { s.history with
      started := Function.update s.history.started ticket (step :: s.history.started ticket) } }

def State.delete (s : State Step Item Thread) (step : Step) : State Step Item Thread :=
  { s with history := { s.history with
      deletes := Function.update s.history.deletes step (s.history.deletes step + 1) } }

/-- A get fails, or a dependency is missing: the instance joins the suspend group of
the item. -/
def State.suspend (s : State Step Item Thread) (step : Step) (item : Item) :
    State Step Item Thread :=
  { s.modify step Schedulable.suspend with waiting := (item, some step) :: s.waiting }

/-- `re_schedule`: a member leaves the suspend group of the item. -/
def State.unsuspend (s : State Step Item Thread) (step : Step) (item : Item) :
    State Step Item Thread :=
  { s.modify step fun sched => sched.unsuspend.1 with
    waiting := s.waiting.erase (item, some step) }

def State.advancePass (s : State Step Item Thread) (bypass : Bool) (thread : Thread) :
    Pass Step → Option (State Step Item Thread)
  | ⟨step, ticket, phase⟩ =>
      let go := fun (s : State Step Item Thread) phase =>
        some (s.setPass thread (some ⟨step, ticket, phase⟩))
      match phase with
      | .begin => go (s.modify step fun sched => sched.suspend.resetWasSuspended) .executing
      | .executing => none
      | .returned success => go s (.read success (if bypass then (s.inst step).succStep else none))
      | .read true newS => go (s.decrement ticket) (.delete newS)
      | .read false newS =>
          let (_, last) := (s.inst step).sched.unsuspend
          go (s.modify step fun sched => sched.unsuspend.1)
            (if last then .again newS else .failed newS)
      | .delete newS => go (s.delete step) (.next newS)
      | .again newS =>
          go s (if (s.inst step).sched.status = .done then .failed newS else .begin)
      | .failed newS => go (s.decrement ticket) (if bypass then .clear newS else .next newS)
      | .clear newS => go (s.setSucc step none) (.mark newS)
      | .mark newS =>
          match newS with
          | some succ =>
              if succ.1 = step then go s (.next newS)
              else go (s.setSucc succ.1 (some succ)) (.next newS)
          | none => go s (.next newS)
      | .next newS =>
          match newS with
          | some succ =>
              if succ.1 = step then some (s.setPass thread none)
              else some (s.start thread succ.1 succ.2)
          | none => some (s.setPass thread none)

/-- What the thread does after `schedule`. -/
def afterSchedule (step : Step) : Option Item → Option (Call Step Item)
  | some item => some (.log step item)
  | none => none

def State.advanceCall (s : State Step Item Thread) (bypass : Bool) (thread : Thread) :
    Call Step Item → Option (State Step Item Thread)
  | .resume item =>
      match s.waiting.find? fun entry => entry.1 = item with
      | none => some (s.setCall thread none)
      | some (_, none) => some { s with waiting := s.waiting.erase (item, none) }
      | some (_, some step) =>
          let (_, last) := (s.inst step).sched.unsuspend
          some ((s.unsuspend step item).setCall thread
            (if last then some (.count step (some item)) else some (.log step item)))
  | .log _ item => some (s.setCall thread (some (.resume item)))
  | .prepareBegin step =>
      some ((s.modify step fun sched => sched.suspend.resetWasSuspended).setCall thread
        (some (.preparing step)))
  | .preparing _ => none
  | .prepareEnd step =>
      let (_, last) := (s.inst step).sched.unsuspend
      some ((s.modify step fun sched => sched.unsuspend.1).setCall thread
        (if last then some (.count step none) else some (.test step)))
  | .test step =>
      some (s.setCall thread
        (if (s.inst step).sched.status = .done then some (.delete step) else none))
  | .delete step => some ((s.delete step).setCall thread none)
  | .count step after =>
      if s.current thread = some step then some (s.setCall thread (afterSchedule step after))
      else
        let ticket := s.history.calls.length
        some ({ s with
          userStepsInFlight := s.userStepsInFlight + 1
          history := { s.history with calls := s.history.calls ++ [step] } }.setCall thread
            (some (.hang step ticket after)))
  | .hang step ticket after =>
      let bypasses := bypass && (s.current thread).any fun current =>
        decide ((s.inst current).sched.status ≠ .unprepared) && (s.inst current).succStep.isNone
      some (s.setCall thread
        (if bypasses then some (.write step ticket after) else some (.enqueue step ticket after)))
  | .enqueue step ticket after =>
      some ({ s with queue := Function.update s.queue ticket (some step) }.setCall thread
        (afterSchedule step after))
  | .write step ticket after =>
      match s.current thread with
      | none => none
      | some current =>
          some ((s.setSucc current (some (step, ticket))).setCall thread
            (afterSchedule step after))

/-- `execute` returns.  A get which has failed throws, so that the step is not
finished; the status is set only by a step which was not canceled. -/
def State.return_ (s : State Step Item Thread) (thread : Thread) (step : Step) (ticket : Nat)
    (outcome : Outcome) : Option (State Step Item Thread) :=
  let go := fun (s : State Step Item Thread) success =>
    some (s.setPass thread (some ⟨step, ticket, .returned success⟩))
  match outcome with
  | .unfinished => go s false
  | .success =>
      if (s.inst step).sched.wasSuspendedSinceReset then none
      else go (s.modify step fun sched => { sched with status := .done }) true
  | .canceled => if (s.inst step).sched.wasSuspendedSinceReset then none else go s true

def perform (bypass : Bool) (s : State Step Item Thread) :
    Action Step Item Thread → Option (State Step Item Thread)
  | .pop thread ticket =>
      if (s.pass thread).isNone ∧ (s.call thread).isNone then
        (s.queue ticket).map fun step =>
          { s with queue := Function.update s.queue ticket none }.start thread step ticket
      else none
  | .advancePass thread => (s.pass thread).bind (s.advancePass bypass thread)
  | .get thread item =>
      if s.Free thread ∧ s.present item = false then
        match s.current thread with
        | some step => some (s.suspend step item)
        | none => some { s with waiting := (item, none) :: s.waiting }
      else none
  | .put thread item =>
      if s.Free thread ∧ s.present item = false then
        some ({ s with present := Function.update s.present item true }.setCall thread
          (some (.resume item)))
      else none
  | .create thread step =>
      if s.Free thread ∧ s.created step = false then
        some ({ s with
          inst := Function.update s.inst step { sched := .create, succStep := none }
          created := Function.update s.created step true }.setCall thread
            (some (.prepareBegin step)))
      else none
  | .return_ thread outcome =>
      if (s.call thread).isNone then
        match s.pass thread with
        | some ⟨step, ticket, .executing⟩ => s.return_ thread step ticket outcome
        | _ => none
      else none
  | .advanceCall thread => (s.call thread).bind (s.advanceCall bypass thread)
  | .depends thread item =>
      match s.call thread with
      | some (.preparing step) => if s.present item then none else some (s.suspend step item)
      | _ => none
  | .passOn thread all =>
      match s.call thread with
      | some (.preparing step) =>
          if (s.inst step).sched.wasSuspendedSinceReset then none
          else
            some ((s.modify step fun sched => sched.unsuspend.1).setCall thread
              (if all then some (.count step none) else some (.delete step)))
      | _ => none
  | .prepared thread =>
      match s.call thread with
      | some (.preparing step) =>
          some ((s.modify step fun sched => { sched with status := .prepared }).setCall thread
            (some (.prepareEnd step)))
      | _ => none
  | .wait =>
      some { s with userStepsInFlight := s.userStepsInFlight + 1, waiters := s.waiters + 1 }
  | .unwait =>
      if 0 < s.waiters then
        some { s with userStepsInFlight := s.userStepsInFlight - 1, waiters := s.waiters - 1 }
      else none

def Pass.accesses (bypass : Bool) : Pass Step → Option Step
  | ⟨step, _, phase⟩ =>
      match phase with
      | .begin | .executing | .read false _ | .delete _ | .again _ | .clear _ => some step
      | .returned _ => if bypass then some step else none
      | .mark (some succ) => if succ.1 = step then none else some succ.1
      | .read true _ | .failed _ | .mark none | .next _ => none

def State.accessedByCall (s : State Step Item Thread) (bypass : Bool) (thread : Thread) :
    Call Step Item → Option Step
  | .resume item => (s.waiting.find? fun entry => entry.1 = item).bind Prod.snd
  | .log step _ | .prepareBegin step | .preparing step | .prepareEnd step | .test step
  | .delete step | .enqueue step _ _ => some step
  | .count _ _ => none
  | .hang _ _ _ => if bypass then s.current thread else none
  | .write _ _ _ => s.current thread

def State.accesses (s : State Step Item Thread) (bypass : Bool) :
    Action Step Item Thread → Option Step
  | .advancePass thread => (s.pass thread).bind (Pass.accesses bypass)
  | .get thread _ => s.current thread
  | .return_ thread _ => s.current thread
  | .advanceCall thread => (s.call thread).bind (s.accessedByCall bypass thread)
  | .depends thread _ | .passOn thread _ | .prepared thread =>
      (s.call thread).bind (s.accessedByCall bypass thread)
  | .pop _ _ | .put _ _ | .create _ _ | .wait | .unwait => none

def step (bypass : Bool) (s : State Step Item Thread) (action : Action Step Item Thread) :
    Option (State Step Item Thread) :=
  (perform bypass s action).map fun next =>
    { next with history := { next.history with
        misused := s.history.misused ||
          (s.accesses bypass action).any fun step => decide (0 < s.history.deletes step) } }

def start (Step Item Thread : Type u) : State Step Item Thread where
  inst _ := { sched := .create, succStep := none }
  created _ := false
  present _ := false
  waiting := []
  queue _ := none
  pass _ := none
  call _ := none
  userStepsInFlight := 0
  waiters := 0
  history :=
    { calls := []
      started := fun _ => []
      ended := fun _ => 0
      deletes := fun _ => 0
      misused := false }

def system (bypass : Bool) : System (State Step Item Thread) (Action Step Item Thread) where
  Initial s := s = start Step Item Thread
  step := step bypass

end Steps

end CnC.Execute
