import CnC.Library.Transition
import CnC.Scheduler.Schedulable

/-!
# Waiting for all steps

`scheduler_i::wait_all` with everything that feeds its two lists, on one process:
plain, pre-scheduled, sequentialized and range step instances, from their creation
to their deletion.  Range step instances whose sub-steps miss an item register as
pending, step instances which must not run beside others register in `m_seqSteps`,
and every pass of `wait_all` serves both lists once the workers are idle.

A worker which runs a step instance, and the thread of the environment which calls
`wait`, may be inside of puts and of nested calls of `prepare`, which in turn run
the user's code where the tuner asks to pre-schedule.  The atomic steps are the
operations on one counter of suspends, on one status, on `m_userStepsInFlight`, on
one list under its mutex, and on one member of a suspend group.  A step instance
which hangs on another one as its `m_succStep` counts as queued.
-/

namespace CnC.WaitAll

open Transition CnC.Scheduler

universe u

variable {Step Item : Type u}

/-- What the tuner says about a plain step instance; for a range, whether its
executions allocate `m_statuses`. -/
inductive Kind where
  | step (sequentialize preschedule : Bool)
  | range (allocates : Bool)
  deriving DecidableEq

def Kind.isRange : Kind → Bool
  | .range _ => true
  | .step _ _ => false

/-- Where a call of `prepare` or of `do_execute` stands with the schedulable it
holds.  `prepare` remembers the thread it runs in, and `prescheduled` whether it has
suspended once more for an unprepared parent.  A successful execution decrements the
counter of steps, reads `m_inPending` and deletes the schedulable. -/
inductive Phase (Step : Type u) where
  | prepareBegin (thread : Option Step)
  | prescheduled (thread : Option Step) (extra : Bool)
  | preparing (thread : Option Step)
  | prepareEnd (thread : Option Step)
  | executeBegin
  | executing
  | executeEnd (result : StepReturnValue)
  | succeeded
  | testing
  | deleting
  deriving DecidableEq

/-- `queued` counts the entries in the queues of the scheduler, and `statuses` tells
whether `m_statuses` is allocated. -/
structure Instance (Step : Type u) where
  sched : Schedulable
  inPending : Bool
  sequentialize : Bool
  statuses : Bool
  queued : Nat
  held : List (Phase Step)
  deleted : Bool
  deriving DecidableEq

/-- A thread is named by the step instance its worker executes, and `none` is the
thread of the environment.  `preparing` is its stack of calls of `prepare`, innermost
first; `testing` is the step instance whose `done` such a call reads before it
returns, and `resuming` the item whose suspend group it resumes. -/
structure Thread (Step Item : Type u) where
  preparing : List Step
  testing : Option Step
  resuming : Option Item
  deriving DecidableEq

/-- Where the wait thread stands, with the number of the pass of `wait_all`: outside,
in `wait`, locking the schedulables of either list, between the sequentialized steps,
in `do_execute` with one of them, or re-scheduling the pending ones with `_curr_pend`
under the mutex of the lists. -/
inductive Waiter (Step : Type u) where
  | idle
  | waiting (i : Nat)
  | lockPending (i : Nat) (rest : List Step)
  | lockSeq (i : Nat) (rest : List Step)
  | sequential (i : Nat)
  | running (i : Nat) (step : Step)
  | reschedule (i : Nat) (currPend : Nat)
  deriving DecidableEq

/-- `inFlight` lists the step instances which `m_userStepsInFlight` counts.  The back
of a vector is the head of its list.  `rescheduled` records what the current pass of
`wait_all` has scheduled from `m_pendingSteps`; no step reads it. -/
structure State (Step Item : Type u) where
  inst : Step → Option (Instance Step)
  present : Item → Bool
  waiting : List (Item × Option Step)
  thread : Option Step → Thread Step Item
  inFlight : List Step
  pendingSteps : List Step
  seqSteps : List Step
  seq2 : List Step
  rescheduled : List Step
  waiter : Waiter Step

/-- How the user's code ends: `execute` of the step or of the range returns, was
canceled, or a range leaves after its first preparation because an item is missing. -/
inductive Outcome where
  | value (rv : StepReturnValue)
  | canceled
  | unprepared
  deriving DecidableEq

inductive Action (Step Item : Type u) where
  | create (thread : Option Step) (step : Step)
  | prepare (thread : Option Step)
  | depends (thread : Option Step) (item : Item)
  | prepared (thread : Option Step)
  | preExecuted (thread : Option Step) (outcome : Outcome)
  | get (thread : Option Step) (item : Item)
  | put (thread : Option Step) (item : Item)
  | resume (thread : Option Step)
  | pop (step : Step)
  | advance (step : Step) (phase : Phase Step)
  | return_ (step : Step) (outcome : Outcome)
  | wait
  | waitAll

def Thread.idle : Thread Step Item := ⟨[], none, none⟩

@[grind =] def Instance.create (phase : Phase Step) : Instance Step where
  sched := .create
  inPending := false
  sequentialize := false
  statuses := false
  queued := 0
  held := [phase]
  deleted := false

@[grind =] def Instance.setStatus (status : Status) (x : Instance Step) : Instance Step :=
  { x with sched := { x.sched with status := status } }

@[grind =] def Instance.suspend (x : Instance Step) : Instance Step :=
  { x with sched := x.sched.suspend }

@[grind =] def Instance.unsuspend (x : Instance Step) : Instance Step :=
  { x with sched := x.sched.unsuspend.1 }

/-- The extra suspend of `prepare`, which is not observed. -/
@[grind =] def Instance.guard (x : Instance Step) : Instance Step :=
  { x with sched := x.sched.suspend.resetWasSuspended }

@[grind =] def Instance.setPending (x : Instance Step) : Instance Step :=
  { x.setStatus .pending with inPending := true }

@[grind =] def Instance.setSequentialize (x : Instance Step) : Instance Step :=
  { x with sequentialize := true }

/-- An execution of a range allocates `m_statuses` if it checks the dependencies. -/
@[grind =] def Instance.allocate (kind : Kind) (x : Instance Step) : Instance Step :=
  { x with statuses := x.statuses || kind = .range true }

@[grind =] def Instance.delete (x : Instance Step) : Instance Step :=
  { x with deleted := true }

section Steps

variable [DecidableEq Step]

@[grind =] def Instance.goto (before after : Phase Step) (x : Instance Step) : Instance Step :=
  { x with held := after :: x.held.erase before }

/-- The call in the given phase returns. -/
@[grind =] def Instance.release (phase : Phase Step) (x : Instance Step) : Instance Step :=
  { x with held := x.held.erase phase }

def State.modify (s : State Step Item) (step : Step) (change : Instance Step → Instance Step) :
    State Step Item :=
  { s with inst := Function.update s.inst step ((s.inst step).map change) }

def State.setThread (s : State Step Item) (thread : Option Step) (calls : Thread Step Item) :
    State Step Item :=
  { s with thread := Function.update s.thread thread calls }

/-- `is_sequentialized`. -/
def State.sequentialized (s : State Step Item) (step : Step) : Bool :=
  (s.inst step).any Instance.sequentialize

def State.inPhase (s : State Step Item) (step : Step) (phase : Phase Step) : Bool :=
  (s.inst step).any fun x => x.held.contains phase

/-- The step instance on whose behalf the innermost of the listed calls of `prepare`
runs. -/
def callerOf (thread : Option Step) (preparing : List Step) : Option Step :=
  match preparing with
  | step :: _ => some step
  | [] => thread

/-- `scheduler_i::current`. -/
def State.current (s : State Step Item) (thread : Option Step) : Option Step :=
  callerOf thread (s.thread thread).preparing

/-- The thread runs the user's code: of the environment, of the step instance it
executes, or of one which it pre-schedules. -/
def State.runs (s : State Step Item) (thread : Option Step) : Bool :=
  match s.thread thread with
  | ⟨[], none, none⟩ =>
      match thread with
      | none => decide (s.waiter = .idle)
      | some step => s.inPhase step .executing
  | ⟨step :: _, none, none⟩ =>
      s.inPhase step (.prescheduled thread false) || s.inPhase step (.prescheduled thread true)
  | _ => false

/-- `m_mutex` is free for threads other than the wait thread. -/
def State.mutexFree (s : State Step Item) : Bool :=
  match s.waiter with
  | .reschedule _ _ => false
  | _ => true

def pending (s : State Step Item) (step : Step) : Option (State Step Item) :=
  if s.mutexFree then
    some { s.modify step Instance.setPending with pendingSteps := step :: s.pendingSteps }
  else none

def sequentialize (s : State Step Item) (step : Step) : Option (State Step Item) :=
  if s.mutexFree then
    some { s.modify step Instance.setSequentialize with seqSteps := step :: s.seqSteps }
  else none

/-- The part of `schedule` which counts the step and queues it. -/
def State.enqueue (s : State Step Item) (step : Step) : State Step Item :=
  { s.modify step fun x => { x with queued := x.queued + 1 } with
    inFlight := step :: s.inFlight }

def schedule (s : State Step Item) (step : Step) (curr : Option Step) :
    Option (State Step Item) :=
  if curr = some step then some s
  else if curr.any s.sequentialized then pending s step
  else some (s.enqueue step)

/-- A get fails, or a dependency is missing: the current step instance joins the
suspend group of the item. -/
def suspend (s : State Step Item) (curr : Option Step) (item : Item) : State Step Item :=
  match curr with
  | none => { s with waiting := (item, none) :: s.waiting }
  | some step =>
      { s.modify step Instance.suspend with waiting := (item, some step) :: s.waiting }

/-- The switch of `tagged_step_instance::do_execute`, and its return value. -/
def taggedExecute (s : State Step Item) (step : Step) :
    StepReturnValue → Option (State Step Item × StepReturnValue)
  | .success => some (s.modify step (·.setStatus .done), .success)
  | .unfinished =>
      if s.sequentialized step then
        (sequentialize s step).map fun next => (next, .needsSequentialize)
      else some (s, .unfinished)
  | .needsExtraWake => (pending s step).map fun next => (next, .unfinished)
  | .needsSequentialize => (sequentialize s step).map fun next => (next, .needsSequentialize)
  | .failure => none

/-- The return value of `range_step_instance::execute`. -/
def rangeResult (x : Instance Step) (result : StepReturnValue) : StepReturnValue :=
  if x.sequentialize then .needsSequentialize
  else if x.sched.status = .pending then .unfinished
  else result

/-- `execute` returns.  Only ranges ask for another wake. -/
def State.return_ (kind : Step → Kind) (s : State Step Item) (step : Step) :
    Outcome → Option (State Step Item)
  | .canceled =>
      if (kind step).isRange then none
      else some (s.modify step (·.goto .executing .succeeded))
  | .unprepared =>
      if (kind step).isRange &&
          (s.inst step).any fun x => !x.statuses && decide (1 < x.sched.nSuspenders) then
        some (s.modify step fun x =>
          (x.allocate (kind step)).goto .executing (.executeEnd .unfinished))
      else none
  | .value rv =>
      if decide (rv = .needsExtraWake) && !(kind step).isRange then none
      else
        (taggedExecute s step rv).bind fun (next, result) =>
          (next.inst step).map fun x =>
            let result := if (kind step).isRange then rangeResult x result else result
            next.modify step fun x => (x.allocate (kind step)).goto .executing
              (if result = .success then .succeeded else .executeEnd result)

/-- The call of `do_execute` returns; the wait thread goes on if it was its own. -/
def State.leave (s : State Step Item) (step : Step) (phase : Phase Step) : State Step Item :=
  { s.modify step (·.release phase) with
    waiter := match s.waiter with
      | .running i current => if current = step then .sequential i else .running i current
      | waiter => waiter }

/-- The steps of the loop of `do_execute` around `execute`. -/
def State.advance (s : State Step Item) (step : Step) (x : Instance Step) :
    Phase Step → Option (State Step Item)
  | .executeBegin =>
      some (s.modify step fun x =>
        let y := if x.sched.status = .fromPending then x.setStatus .prepared else x.suspend
        { y.goto .executeBegin .executing with sched := y.sched.resetWasSuspended })
  | .executeEnd result =>
      let unsuspended := s.modify step Instance.unsuspend
      if x.sched.unsuspend.2 && decide (x.sched.status ≠ .done) &&
          decide (result ≠ .needsSequentialize) then
        some (unsuspended.modify step (·.goto (.executeEnd result) .executeBegin))
      else
        some { unsuspended.leave step (.executeEnd result) with
          inFlight := s.inFlight.erase step }
  | .succeeded =>
      some { s.modify step (·.goto .succeeded .testing) with
        inFlight := s.inFlight.erase step }
  | .testing =>
      if x.inPending then some (s.leave step .testing)
      else some (s.modify step (·.goto .testing .deleting))
  | .deleting => some ((s.modify step Instance.delete).leave step .deleting)
  | _ => none

/-- The next step of the innermost call of `prepare` of a thread, which prepares
`step` for the caller named by the rest of the stack. -/
def State.prepare (kind : Step → Kind) (s : State Step Item) (thread : Option Step) (step : Step)
    (rest : List Step) (x : Instance Step) : Option (State Step Item) :=
  let parent := callerOf thread rest
  let calls := { s.thread thread with preparing := rest }
  if x.held.contains (.prepareBegin thread) then
    match kind step with
    | .step sequentialize preschedule =>
        if !sequentialize && preschedule then
          let extra := parent.any fun parent =>
            (s.inst parent).any fun y => decide (y.sched.status = .unprepared)
          some (s.modify step fun x =>
            (if extra then x.guard.suspend else x.guard).goto
              (.prepareBegin thread) (.prescheduled thread extra))
        else some (s.modify step fun x => x.guard.goto (.prepareBegin thread) (.preparing thread))
    | .range _ =>
        some (s.modify step fun x => x.suspend.goto (.prepareBegin thread) (.preparing thread))
  else if x.held.contains (.prepareEnd thread) then
    let returned := (s.modify step (·.release (.prepareEnd thread))).setThread thread calls
    match kind step with
    | .step true _ => sequentialize returned step
    | .step false _ =>
        let unsuspended := returned.modify step Instance.unsuspend
        if x.sched.unsuspend.2 then schedule unsuspended step parent
        else some (unsuspended.setThread thread { calls with testing := some step })
    | .range _ => schedule (returned.modify step Instance.unsuspend) step parent
  else none

/-- The execution of a pre-scheduled step instance in `prepare` returns.  After a
success, the caller of `prepare` deletes it. -/
def State.preExecuted (s : State Step Item) (thread : Option Step) (step : Step)
    (rest : List Step) (extra : Bool) : Outcome → Option (State Step Item)
  | .canceled | .value .success =>
      some ((s.modify step fun x =>
        ((x.setStatus .done).release (.prescheduled thread extra)).delete).setThread thread
          { s.thread thread with preparing := rest })
  | .value .needsExtraWake | .unprepared => none
  | .value rv =>
      (taggedExecute s step rv).map fun (next, _) =>
        next.modify step fun x =>
          ((if extra then x.unsuspend else x).setStatus .prepared).goto
            (.prescheduled thread extra) (.prepareEnd thread)

def State.waitAll (s : State Step Item) : Option (State Step Item) :=
  let lock := fun step => s.modify step fun x => if x.sched.status = .done then x else x.suspend
  match s.waiter with
  | .idle | .running _ _ => none
  | .waiting i =>
      if s.inFlight.isEmpty then
        some { s with waiter := .lockPending i s.pendingSteps.reverse, rescheduled := [] }
      else none
  | .lockPending i (step :: rest) => some { lock step with waiter := .lockPending i rest }
  | .lockPending i [] => some { s with waiter := .lockSeq i s.seqSteps.reverse }
  | .lockSeq i (step :: rest) => some { lock step with waiter := .lockSeq i rest }
  | .lockSeq i [] => some { s with seq2 := s.seqSteps, seqSteps := [], waiter := .sequential i }
  | .sequential i =>
      match s.seq2 with
      | step :: rest =>
          some { s.modify step fun x => { x with held := .executeBegin :: x.held } with
            seq2 := rest
            inFlight := step :: s.inFlight
            waiter := .running i step }
      | [] =>
          some { s with waiter := .reschedule i (s.pendingSteps.length + s.seqSteps.length) }
  | .reschedule i currPend =>
      match s.pendingSteps with
      | step :: rest =>
          let popped := { s with pendingSteps := rest }
          if (s.inst step).any fun x => decide (x.sched.status = .done) then
            some (popped.modify step Instance.delete)
          else
            some { (popped.modify step fun x =>
                { x.setStatus .fromPending with inPending := false }).enqueue step with
              rescheduled := step :: s.rescheduled }
      | [] =>
          some { s with
            waiter := if i + 1 < 99999 && decide (0 < currPend) then .waiting (i + 1) else .idle }

variable [DecidableEq Item]

def step (kind : Step → Kind) (s : State Step Item) :
    Action Step Item → Option (State Step Item)
  | .create thread step =>
      if s.runs thread && (s.inst step).isNone then
        let created := { s with
          inst := Function.update s.inst step (some (.create (.prepareBegin thread))) }
        some (created.setThread thread
          { s.thread thread with preparing := step :: (s.thread thread).preparing })
      else none
  | .prepare thread =>
      match s.thread thread with
      | ⟨preparing, some step, none⟩ =>
          let tested :=
            if (s.inst step).any fun x => decide (x.sched.status = .done) then
              s.modify step Instance.delete
            else s
          some (tested.setThread thread ⟨preparing, none, none⟩)
      | ⟨step :: rest, none, none⟩ => (s.inst step).bind (s.prepare kind thread step rest)
      | _ => none
  | .depends thread item =>
      match s.thread thread with
      | ⟨step :: _, none, none⟩ =>
          if s.inPhase step (.preparing thread) && !(kind step).isRange && !s.present item then
            some (suspend s (some step) item)
          else none
      | _ => none
  | .prepared thread =>
      match s.thread thread with
      | ⟨step :: _, none, none⟩ =>
          if s.inPhase step (.preparing thread) then
            some (s.modify step fun x =>
              (x.setStatus .prepared).goto (.preparing thread) (.prepareEnd thread))
          else none
      | _ => none
  | .preExecuted thread outcome =>
      match s.thread thread with
      | ⟨step :: rest, none, none⟩ =>
          if s.inPhase step (.prescheduled thread false) then
            s.preExecuted thread step rest false outcome
          else if s.inPhase step (.prescheduled thread true) then
            s.preExecuted thread step rest true outcome
          else none
      | _ => none
  | .get thread item =>
      if s.runs thread && !s.present item then some (suspend s (s.current thread) item) else none
  | .put thread item =>
      if s.runs thread && !s.present item then
        some ({ s with present := Function.update s.present item true }.setThread thread
          { s.thread thread with resuming := some item })
      else none
  | .resume thread =>
      (s.thread thread).resuming.bind fun item =>
        match s.waiting.find? fun entry => entry.1 = item with
        | none => some (s.setThread thread { s.thread thread with resuming := none })
        | some (_, none) => some { s with waiting := s.waiting.erase (item, none) }
        | some (_, some step) =>
            (s.inst step).bind fun x =>
              let unsuspended := { s.modify step Instance.unsuspend with
                waiting := s.waiting.erase (item, some step) }
              if x.sched.unsuspend.2 then schedule unsuspended step (s.current thread)
              else some unsuspended
  | .pop step =>
      if (s.inst step).any fun x => decide (0 < x.queued) then
        some (s.modify step fun x =>
          { x with queued := x.queued - 1, held := .executeBegin :: x.held })
      else none
  | .advance step phase =>
      (s.inst step).bind fun x =>
        if x.held.contains phase then s.advance step x phase else none
  | .return_ step outcome =>
      if s.inPhase step .executing && decide (s.thread (some step) = .idle) then
        s.return_ kind step outcome
      else none
  | .wait =>
      if decide (s.waiter = .idle) && decide (s.thread none = .idle) then
        some { s with waiter := .waiting 0 }
      else none
  | .waitAll => s.waitAll

def start (Step Item : Type u) : State Step Item where
  inst _ := none
  present _ := false
  waiting := []
  thread _ := .idle
  inFlight := []
  pendingSteps := []
  seqSteps := []
  seq2 := []
  rescheduled := []
  waiter := .idle

def system (kind : Step → Kind) : System (State Step Item) (Action Step Item) where
  Initial s := s = start Step Item
  step := step kind

end Steps

def Waiter.isRunning : Waiter Step → Bool
  | .running _ _ => true
  | _ => false

/-- In how many suspend groups the step instance is. -/
def State.memberships [DecidableEq Step] (s : State Step Item) (step : Step) : Nat :=
  s.waiting.countP fun entry => entry.2 = some step

section Condition

variable [DecidableEq Step] [DecidableEq Item]

/-- Another call of `unsuspend` takes the last suspend. -/
def State.lastSuspend (s : State Step Item) (step : Step) : Bool :=
  (s.inst step).any fun x => decide (x.sched.nSuspenders = 1)

/-- The schedulable which a step of `prepare` or of a put hands to `schedule`. -/
def State.schedules (kind : Step → Kind) (s : State Step Item) : Action Step Item → Option Step
  | .prepare thread =>
      match s.thread thread with
      | ⟨step :: _, none, none⟩ =>
          let isLast := match kind step with
            | .step sequentialize _ => !sequentialize && s.lastSuspend step
            | .range _ => true
          if s.inPhase step (.prepareEnd thread) && isLast then some step else none
      | _ => none
  | .resume thread =>
      ((s.thread thread).resuming.bind fun item =>
        s.waiting.find? fun entry => entry.1 = item).bind fun entry =>
          entry.2.filter s.lastSuspend
  | _ => none

/-- The user's code of `step` may end in this way: where it asks for another wake or to be
sequentialized, the step instance is not in `m_pendingSteps`, and a sequentialized one
does not ask for another wake. -/
def State.mayEnd (s : State Step Item) (step : Step) : Outcome → Bool
  | .value .needsExtraWake => (s.inst step).any fun x => !x.inPending && !x.sequentialize
  | .value .needsSequentialize => (s.inst step).any fun x => !x.inPending
  | _ => true

/-- Nothing is scheduled while the wait thread runs a sequentialized step, no
sequentialized step instance is scheduled by a put or by `prepare`, and the user's
code ends as it may. -/
def State.exclusive (kind : Step → Kind) (s : State Step Item) (action : Action Step Item) : Bool :=
  (s.schedules kind action).all (fun step => !s.waiter.isRunning && !s.sequentialized step) &&
    match action with
    | .return_ step outcome => s.mayEnd step outcome
    | _ => true

/-- The current step instance when a step of `prepare` or of a put calls `schedule`. -/
def State.scheduler (s : State Step Item) : Action Step Item → Option Step
  | .prepare thread => callerOf thread (s.thread thread).preparing.tail
  | .resume thread => s.current thread
  | _ => none

/-- The current step instance of a thread, if any, is suspended. -/
def State.guarded (s : State Step Item) (thread : Option Step) : Bool :=
  (s.current thread).all fun step =>
    (s.inst step).any fun x => decide (0 < x.sched.nSuspenders)

/-- While the wait thread runs a sequentialized step nothing else schedules, no
sequentialized step instance is scheduled by a put or by `prepare`, no execution misses
an item without a guard, and the user's code ends as it may. -/
def State.orderly (kind : Step → Kind) (s : State Step Item) (action : Action Step Item) : Bool :=
  (s.schedules kind action).all (fun step =>
      (!s.waiter.isRunning || (s.scheduler action).any s.sequentialized) &&
        !s.sequentialized step) &&
    match action with
    | .get thread _ => s.guarded thread
    | .return_ step outcome => s.mayEnd step outcome
    | _ => true

end Condition

end CnC.WaitAll
