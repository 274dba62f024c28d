import CnC.Library.Transition
import CnC.Scheduler.Schedulable

/-!
# Suspending and resuming step instances

Plain step instances on one process: they are neither part of a range nor
pre-scheduled nor sequentialized, and the scheduler does not bypass its queues.
A step instance whose get fails joins the suspend group of the item and is
replayed when the item is put.  It may be scheduled by the put of the last
missing item, by the call of `prepare` which created it, or by the loop of
`do_execute` which has just run it, and these race with each other.

The atomic steps are the sections under the lock of one item and the single
operations on the counter of suspends.  `Placed` is the invariant of a step
instance: it is in one place, and its counter tells how many suspend groups
hold it.
-/

namespace CnC.Scheduler

open Transition

universe u

variable {Step Item : Type u}

/-- Where a call of `prepare` or a loop of `do_execute` is with the step
instance it holds.  A call of `prepare` remembers the step instance which was
current when it was called. -/
inductive Phase (Step : Type u) where
  | prepareBegin (caller : Option Step)
  | preparing (caller : Option Step)
  | prepareEnd (caller : Option Step)
  | prepareSchedule (caller : Option Step)
  | executeBegin
  | executing
  | executeEnd
  deriving DecidableEq

/-- The extra suspend is held from the start of `prepare` or `execute` until
its end. -/
def Phase.guarded : Phase Step → Bool
  | .preparing _ | .prepareEnd _ | .executing | .executeEnd => true
  | .prepareBegin _ | .prepareSchedule _ | .executeBegin => false

/-- A step instance with the number of its entries in the scheduler's queues
and the calls which hold it. -/
structure Instance (Step : Type u) where
  sched : Schedulable
  queued : Nat
  held : List (Phase Step)
  deriving DecidableEq

/-- `waiting` lists the members of the suspend groups of all items; the
environment is the member `none`. -/
structure State (Step Item : Type u) where
  inst : Step → Option (Instance Step)
  present : Item → Bool
  waiting : List (Item × Option Step)

inductive Action (Step Item : Type u) where
  | create (step : Step) (caller : Option Step)
  | prepareGuard (step : Step) (caller : Option Step)
  | depends (step : Step) (caller : Option Step) (item : Item)
  | prepareStatus (step : Step) (caller : Option Step)
  | prepareUnguard (step : Step) (caller : Option Step)
  | prepareSchedule (step : Step) (caller : Option Step)
  | pop (step : Step)
  | executeGuard (step : Step)
  | get (step : Step) (item : Item)
  | getFromEnv (item : Item)
  | put (current : Option Step) (item : Item)
  | executeReturn (step : Step) (result : StepReturnValue)
  | executeUnguard (step : Step)

section Steps

variable [DecidableEq Step] [DecidableEq Item]

def State.modify (s : State Step Item) (step : Step) (change : Instance Step → Instance Step) :
    State Step Item :=
  { s with inst := Function.update s.inst step ((s.inst step).map change) }

def Instance.advance (x : Instance Step) (before after : Phase Step) : Instance Step :=
  { x with held := after :: x.held.erase before }

/-- The call in the given phase returns. -/
def Instance.release (x : Instance Step) (phase : Phase Step) : Instance Step :=
  { x with held := x.held.erase phase }

def Instance.suspend (x : Instance Step) : Instance Step :=
  { x with sched := x.sched.suspend }

def State.Holds (s : State Step Item) (step : Step) (phase : Phase Step) : Prop :=
  ∃ x, s.inst step = some x ∧ phase ∈ x.held

instance (s : State Step Item) (step : Step) (phase : Phase Step) :
    Decidable (s.Holds step phase) :=
  decidable_of_iff ((s.inst step).any fun x => decide (phase ∈ x.held)) (by
    simp [State.Holds, Option.any_eq_true])

/-- `scheduler_i::schedule` without bypass.  A step instance which is current
is not scheduled: it is running. -/
def schedule (s : State Step Item) (step : Step) (current : Option Step) : State Step Item :=
  if current = some step then s
  else s.modify step fun x => { x with queued := x.queued + 1 }

/-- `scheduler_i::suspend` in a failing get: the current step instance joins
the suspend group of the item. -/
def suspend (s : State Step Item) (current : Option Step) (item : Item) : State Step Item :=
  match current with
  | none => { s with waiting := (item, none) :: s.waiting }
  | some step =>
      { s.modify step Instance.suspend with waiting := (item, some step) :: s.waiting }

/-- `re_schedule`, applied to one member of a suspend group. -/
def reSchedule (current : Option Step) (s : State Step Item) : Option Step → State Step Item
  | none => s
  | some step =>
      match s.inst step with
      | none => s
      | some x =>
          let unsuspended :=
            s.modify step fun x => { x with sched := x.sched.unsuspend.1 }
          if x.sched.unsuspend.2 then schedule unsuspended step current else unsuspended

def suspendGroup (s : State Step Item) (item : Item) : List (Option Step) :=
  (s.waiting.filter fun entry => entry.1 = item).map Prod.snd

/-- `scheduler_i::resume`: all members are rescheduled and the group is
deleted. -/
def resume (s : State Step Item) (current : Option Step) (item : Item) : State Step Item :=
  let resumed := (suspendGroup s item).foldl (reSchedule current) s
  { resumed with waiting := s.waiting.filter fun entry => entry.1 ≠ item }

/-- The thread runs an instance, or is the environment or a communication
thread. -/
def State.Current (s : State Step Item) : Option Step → Prop
  | none => True
  | some step => s.Holds step .executing

instance (s : State Step Item) (current : Option Step) : Decidable (s.Current current) := by
  unfold State.Current
  split <;> infer_instance

/-- The counter operation at the end of `prepare` or of an iteration of
`do_execute`, with the phase to go on to if it was the last suspend. -/
def unguard (s : State Step Item) (step : Step) (before after : Phase Step) :
    State Step Item :=
  s.modify step fun x =>
    let y := { x with sched := x.sched.unsuspend.1 }
    if x.sched.unsuspend.2 then y.advance before after else y.release before

def guard (s : State Step Item) (step : Step) (before after : Phase Step) : State Step Item :=
  s.modify step fun x =>
    { x.advance before after with sched := x.sched.suspend.resetWasSuspended }

def step (s : State Step Item) : Action Step Item → Option (State Step Item)
  | .create step caller =>
      if s.inst step = none ∧ s.Current caller then
        some { s with
          inst := Function.update s.inst step
            (some { sched := .create, queued := 0, held := [.prepareBegin caller] }) }
      else none
  | .prepareGuard step caller =>
      if s.Holds step (.prepareBegin caller) then
        some (guard s step (.prepareBegin caller) (.preparing caller))
      else none
  | .depends step caller item =>
      if s.Holds step (.preparing caller) ∧ s.present item = false then
        some (suspend s (some step) item)
      else none
  | .prepareStatus step caller =>
      if s.Holds step (.preparing caller) then
        some (s.modify step fun x =>
          { x.advance (.preparing caller) (.prepareEnd caller) with
            sched := { x.sched with status := .prepared } })
      else none
  | .prepareUnguard step caller =>
      if s.Holds step (.prepareEnd caller) then
        some (unguard s step (.prepareEnd caller) (.prepareSchedule caller))
      else none
  | .prepareSchedule step caller =>
      if s.Holds step (.prepareSchedule caller) then
        some (schedule (s.modify step (·.release (.prepareSchedule caller))) step caller)
      else none
  | .pop step =>
      match s.inst step with
      | none => none
      | some x =>
          if 0 < x.queued then
            some (s.modify step fun x =>
              { x with queued := x.queued - 1, held := .executeBegin :: x.held })
          else none
  | .executeGuard step =>
      if s.Holds step .executeBegin then some (guard s step .executeBegin .executing)
      else none
  | .get step item =>
      if s.Holds step .executing ∧ s.present item = false then
        some (suspend s (some step) item)
      else none
  | .getFromEnv item =>
      if s.present item = false then some (suspend s none item) else none
  | .put current item =>
      if s.Current current ∧ s.present item = false then
        some { resume s current item with present := Function.update s.present item true }
      else none
  | .executeReturn step result =>
      if s.Holds step .executing then
        match result with
        | .success =>
            some (s.modify step fun x =>
              { x.release .executing with sched := { x.sched with status := .done } })
        | .unfinished => some (s.modify step (·.advance .executing .executeEnd))
        | _ => none
      else none
  | .executeUnguard step =>
      if s.Holds step .executeEnd then some (unguard s step .executeEnd .executeBegin)
      else none

def start (Step Item : Type u) : State Step Item where
  inst _ := none
  present _ := false
  waiting := []

def system : System (State Step Item) (Action Step Item) where
  Initial s := s = start Step Item
  step := step

/-- An execution with a failed get does not end with success: the get throws,
or `flush_gets` does. -/
def FailedGetsReplay (s : State Step Item) : Action Step Item → Prop
  | .executeReturn step .success =>
      ∀ x, s.inst step = some x → x.sched.wasSuspendedSinceReset = false
  | _ => True

instance (s : State Step Item) (action : Action Step Item) :
    Decidable (FailedGetsReplay s action) := by
  unfold FailedGetsReplay
  split
  · rename_i step
    exact decidable_of_iff ((s.inst step).all fun x => !x.sched.wasSuspendedSinceReset) (by
      simp [Option.all_eq_true])
  · infer_instance

/-- How many suspend groups a step instance is in, with multiplicity. -/
def memberships (s : State Step Item) (step : Step) : Nat :=
  s.waiting.countP fun entry => entry.2 = some step

end Steps

def Phase.caller : Phase Step → Option Step
  | .prepareBegin caller | .preparing caller | .prepareEnd caller | .prepareSchedule caller =>
      caller
  | .executeBegin | .executing | .executeEnd => none

/-- Where a step instance with the given number of memberships in suspend
groups can be.  An alive step instance is either suspended, or in a queue, or
held by one call; without the extra suspend, only a suspended one has
memberships. -/
inductive Placed (step : Step) (memberships : Nat) : Option (Instance Step) → Prop
  | absent : memberships = 0 → Placed step memberships none
  | done {sched : Schedulable} : sched.status = .done → memberships = 0 →
      Placed step memberships (some ⟨sched, 0, []⟩)
  | suspended {sched : Schedulable} : sched.status ≠ .done → 0 < memberships →
      sched.nSuspenders = memberships → Placed step memberships (some ⟨sched, 0, []⟩)
  | queued {sched : Schedulable} : sched.status ≠ .done → memberships = 0 → sched.nSuspenders = 0 →
      Placed step memberships (some ⟨sched, 1, []⟩)
  | held {sched : Schedulable} {phase : Phase Step} : sched.status ≠ .done → phase.caller ≠ some step →
      sched.nSuspenders = memberships + (if phase.guarded then 1 else 0) →
      (phase.guarded = false → memberships = 0) →
      (phase = .executing → sched.wasSuspendedSinceReset = false → memberships = 0) →
      Placed step memberships (some ⟨sched, 0, [phase]⟩)

theorem Placed.of_held {step : Step} {m : Nat} {x : Instance Step} {phase : Phase Step}
    (placed : Placed step m (some x)) (membership : phase ∈ x.held) :
    x.sched.status ≠ .done ∧ x.queued = 0 ∧ x.held = [phase] ∧ phase.caller ≠ some step ∧
      x.sched.nSuspenders = m + (if phase.guarded then 1 else 0) ∧
      (phase.guarded = false → m = 0) ∧
      (phase = .executing → x.sched.wasSuspendedSinceReset = false → m = 0) := by
  cases placed with
  | done => cases membership
  | suspended => cases membership
  | queued => cases membership
  | held alive caller counter unguarded replayed =>
      rw [List.mem_singleton] at membership
      subst membership
      exact ⟨alive, rfl, rfl, caller, counter, unguarded, replayed⟩

theorem Placed.pop {step : Step} {m : Nat} {x : Instance Step}
    (placed : Placed step m (some x)) (nonempty : 0 < x.queued) :
    Placed step m (some { x with queued := x.queued - 1, held := .executeBegin :: x.held }) := by
  cases placed with
  | done => cases nonempty
  | suspended => cases nonempty
  | held => cases nonempty
  | queued alive empty counter =>
      refine .held alive ?_ ?_ (fun _ => empty) (fun _ _ => empty)
      · simp [Phase.caller]
      · simp [Phase.guarded, counter, empty]

theorem Placed.suspend {step : Step} {m : Nat} {x : Instance Step} {phase : Phase Step}
    (placed : Placed step m (some x)) (held : phase ∈ x.held) (guarded : phase.guarded = true) :
    Placed step (m + 1) (some x.suspend) := by
  obtain ⟨alive, notQueued, alone, caller, counter, -, -⟩ := placed.of_held held
  rw [guarded, if_pos rfl] at counter
  have shape : x.suspend = ⟨x.sched.suspend, 0, [phase]⟩ := by
    simp [Instance.suspend, notQueued, alone]
  rw [shape]
  refine .held alive caller ?_ ?_ ?_
  · simp [Schedulable.suspend, counter, guarded]
  · simp [guarded]
  · intro _ notSuspended
    cases notSuspended

section Invariant

variable [DecidableEq Step] {s : State Step Item}

/-- Every step instance is in its place, and only missing items have members
in their suspend groups. -/
structure Sound (s : State Step Item) : Prop where
  placed : ∀ step, Placed step (memberships s step) (s.inst step)
  missing : ∀ entry ∈ s.waiting, s.present entry.1 = false

theorem sound_start : Sound (start Step Item) where
  placed _ := .absent rfl
  missing := by simp [start]

@[simp] theorem modify_waiting (step : Step) (change : Instance Step → Instance Step) :
    (s.modify step change).waiting = s.waiting := rfl

@[simp] theorem modify_present (step : Step) (change : Instance Step → Instance Step) :
    (s.modify step change).present = s.present := rfl

theorem modify_inst_same {step : Step} {x : Instance Step} (found : s.inst step = some x)
    (change : Instance Step → Instance Step) :
    (s.modify step change).inst step = some (change x) := by
  simp [State.modify, found]

theorem modify_inst_other {step other : Step} (different : other ≠ step)
    (change : Instance Step → Instance Step) :
    (s.modify step change).inst other = s.inst other := by
  simp [State.modify, different]

theorem modify_modify (step : Step) (first second : Instance Step → Instance Step) :
    (s.modify step first).modify step second = s.modify step (second ∘ first) := by
  simp [State.modify]

/-- A step which operates on one step instance only has to put that one in its
place. -/
theorem Sound.modify (sound : Sound s) {step : Step} {x : Instance Step}
    (found : s.inst step = some x) {change : Instance Step → Instance Step}
    (placed : Placed step (memberships s step) (some x) →
      Placed step (memberships s step) (some (change x))) :
    Sound (s.modify step change) where
  placed other := by
    have before := sound.placed other
    by_cases same : other = step
    · subst same
      rw [modify_inst_same found]
      exact placed (found ▸ before)
    · rw [modify_inst_other same]
      exact before
  missing := sound.missing

theorem Placed.guard {step : Step} {m : Nat} {x : Instance Step} {before after : Phase Step}
    (placed : Placed step m (some x)) (held : before ∈ x.held)
    (unguarded : before.guarded = false) (guarded : after.guarded = true)
    (sameCaller : after.caller = before.caller) :
    Placed step m (some { x.advance before after with
      sched := x.sched.suspend.resetWasSuspended }) := by
  obtain ⟨alive, notQueued, alone, caller, counter, empty, -⟩ := placed.of_held held
  have noGroups := empty unguarded
  simp only [Instance.advance, notQueued, alone, List.erase_cons_head]
  refine .held alive (sameCaller ▸ caller) ?_ ?_ ?_
  · simp [Schedulable.suspend, Schedulable.resetWasSuspended, counter, guarded, unguarded]
  · intro contradictory
    exact noGroups
  · intro _ _
    exact noGroups

/-- The end of the extra suspend: either the step instance has no memberships
and the call goes on with it, or the call leaves it to the suspend groups. -/
theorem Placed.unguard {step : Step} {m : Nat} {x : Instance Step} {before after : Phase Step}
    (placed : Placed step m (some x)) (held : before ∈ x.held)
    (guarded : before.guarded = true) (unguarded : after.guarded = false)
    (notExecuting : after ≠ .executing) (sameCaller : after.caller = before.caller) :
    Placed step m (some
      (let y := { x with sched := x.sched.unsuspend.1 }
       if x.sched.unsuspend.2 then y.advance before after else y.release before)) := by
  obtain ⟨alive, notQueued, alone, caller, counter, -, -⟩ := placed.of_held held
  rw [guarded, if_pos rfl] at counter
  by_cases last : m = 0
  · have final : x.sched.unsuspend.2 = true := by
      simp [Schedulable.unsuspend, counter, last]
    simp only [final, if_true, Instance.advance, notQueued, alone, List.erase_cons_head]
    refine .held alive (sameCaller ▸ caller) ?_ (fun _ => last) (fun executing => ?_)
    · simp [Schedulable.unsuspend, counter, unguarded]
    · exact absurd executing notExecuting
  · have more : x.sched.unsuspend.2 = false := by
      simp only [Schedulable.unsuspend, counter, beq_eq_false_iff_ne]
      omega
    simp only [more, Bool.false_eq_true, if_false, Instance.release, notQueued, alone,
      List.erase_cons_head]
    exact .suspended alive (Nat.pos_of_ne_zero last) (by simp [Schedulable.unsuspend, counter])

theorem Placed.schedule {step : Step} {m : Nat} {x : Instance Step} {caller : Option Step}
    (placed : Placed step m (some x)) (held : .prepareSchedule caller ∈ x.held) :
    caller ≠ some step ∧
      Placed step m (some { x.release (.prepareSchedule caller) with queued := x.queued + 1 }) := by
  obtain ⟨alive, notQueued, alone, notCaller, counter, empty, -⟩ := placed.of_held held
  have noGroups : m = 0 := empty rfl
  refine ⟨notCaller, ?_⟩
  simp only [Instance.release, notQueued, alone, List.erase_cons_head]
  exact .queued alive noGroups (by simpa [Phase.guarded, noGroups] using counter)

theorem Sound.create (sound : Sound s) {step : Step} {caller : Option Step}
    (fresh : s.inst step = none) (executing : s.Current caller) :
    Sound { s with
      inst := Function.update s.inst step
        (some { sched := .create, queued := 0, held := [.prepareBegin caller] }) } where
  placed other := by
    have before := sound.placed other
    change Placed other (memberships s other) _
    by_cases same : other = step
    · subst same
      rw [fresh] at before
      cases before with
      | absent empty =>
          simp only [Function.update_self, empty]
          refine .held (by simp [Schedulable.create]) ?_ rfl (fun _ => rfl) (fun _ _ => rfl)
          rintro rfl
          obtain ⟨x, found, _⟩ := executing
          rw [fresh] at found
          cases found
    · simpa [same] using before
  missing := sound.missing

theorem Sound.suspendEnv (sound : Sound s) {item : Item} (absent : s.present item = false) :
    Sound (suspend s none item) where
  placed step := by
    have unchanged : memberships (suspend s none item) step = memberships s step := by
      simp [memberships, suspend]
    rw [unchanged]
    exact sound.placed step
  missing := by
    intro entry membership
    rcases List.mem_cons.mp membership with new | old
    · exact new ▸ absent
    · exact sound.missing entry old

theorem memberships_suspend (step other : Step) (item : Item) :
    memberships (suspend s (some step) item) other =
      memberships s other + if other = step then 1 else 0 := by
  simp [memberships, suspend, List.countP_cons, eq_comm]

theorem Sound.suspend (sound : Sound s) {step : Step} {item : Item} {phase : Phase Step}
    (held : s.Holds step phase) (guarded : phase.guarded = true)
    (absent : s.present item = false) : Sound (suspend s (some step) item) where
  placed other := by
    obtain ⟨x, found, membership⟩ := held
    rw [memberships_suspend]
    by_cases same : other = step
    · subst same
      have after : (Scheduler.suspend s (some other) item).inst other = some x.suspend :=
        modify_inst_same found _
      rw [after, if_pos rfl]
      exact (found ▸ sound.placed other : Placed _ _ (some x)).suspend membership guarded
    · have after : (Scheduler.suspend s (some step) item).inst other = s.inst other :=
        modify_inst_other same _
      rw [after, if_neg same]
      exact sound.placed other
  missing := by
    intro entry membership
    rcases List.mem_cons.mp membership with new | old
    · exact new ▸ absent
    · exact sound.missing entry old

theorem reSchedule_last {step : Step} {x : Instance Step} {current : Option Step}
    (found : s.inst step = some x) (last : x.sched.nSuspenders = 1)
    (notCurrent : current ≠ some step) :
    (reSchedule current s (some step)).inst =
      Function.update s.inst step (some ⟨x.sched.unsuspend.1, x.queued + 1, x.held⟩) := by
  simp [reSchedule, found, Schedulable.unsuspend, last, Scheduler.schedule, notCurrent,
    State.modify]

theorem reSchedule_more {step : Step} {x : Instance Step} {current : Option Step}
    (found : s.inst step = some x) (more : x.sched.nSuspenders ≠ 1) :
    (reSchedule current s (some step)).inst =
      Function.update s.inst step (some ⟨x.sched.unsuspend.1, x.queued, x.held⟩) := by
  simp [reSchedule, found, Schedulable.unsuspend, more, State.modify]

/-- One member of a resumed suspend group loses the membership, and is
scheduled if it was the last one and no call holds the step instance.  The
current step instance is never scheduled: it is executing. -/
theorem Placed.reSchedule {step : Step} {m : Nat} {x : Instance Step} (current : Option Step)
    (found : s.inst step = some x) (placed : Placed step (m + 1) (some x))
    (executing : current = some step → .executing ∈ x.held) :
    ∃ y, (reSchedule current s (some step)).inst = Function.update s.inst step (some y) ∧
      Placed step m (some y) ∧ y.held = x.held := by
  cases placed with
  | done _ empty => exact absurd empty (Nat.succ_ne_zero m)
  | queued _ empty => exact absurd empty (Nat.succ_ne_zero m)
  | suspended alive _ counter =>
      have notCurrent : current ≠ some step := by
        intro current
        cases executing current
      by_cases last : m = 0
      · refine ⟨_, reSchedule_last found (by simp [counter, last]) notCurrent, ?_, rfl⟩
        exact .queued alive last (by simp [Schedulable.unsuspend, counter, last])
      · refine ⟨_, reSchedule_more found (by simp [counter]; omega), ?_, rfl⟩
        exact .suspended alive (Nat.pos_of_ne_zero last)
          (by simp [Schedulable.unsuspend, counter])
  | @held sched phase alive caller counter unguarded replayed =>
      have guarded : phase.guarded = true := by
        cases isGuarded : phase.guarded with
        | true => rfl
        | false => exact absurd (unguarded isGuarded) (Nat.succ_ne_zero m)
      rw [guarded, if_pos rfl] at counter
      refine ⟨_, reSchedule_more found (by simp [counter]; omega), ?_, rfl⟩
      refine .held alive caller ?_ ?_ ?_
      · simp [Schedulable.unsuspend, counter, guarded]
      · simp [guarded]
      · intro isExecuting notSuspended
        exact absurd (replayed isExecuting notSuspended) (Nat.succ_ne_zero m)

theorem current_update {current : Option Step} {next : State Step Item} {step : Step}
    {x y : Instance Step} (executing : s.Current current) (found : s.inst step = some x)
    (updated : next.inst = Function.update s.inst step (some y)) (sameHeld : y.held = x.held) :
    next.Current current := by
  cases current with
  | none => trivial
  | some runner =>
      obtain ⟨z, holds, membership⟩ := executing
      by_cases same : runner = step
      · subst same
        rw [found] at holds
        cases holds
        exact ⟨y, by simp [updated], sameHeld ▸ membership⟩
      · exact ⟨z, by simp [updated, same, holds], membership⟩

/-- The fold of `resume`.  `outside` counts the memberships in the groups of
the other items. -/
theorem placed_resume {current : Option Step} {outside : Step → Nat}
    (members : List (Option Step))
    (placed : ∀ step, Placed step (outside step + members.count (some step)) (s.inst step))
    (executing : s.Current current) :
    ∀ step, Placed step (outside step) ((members.foldl (reSchedule current) s).inst step) := by
  induction members generalizing s with
  | nil => simpa using placed
  | cons member rest inductionHypothesis =>
      cases member with
      | none =>
          have unchanged : reSchedule current s none = s := rfl
          rw [List.foldl_cons, unchanged]
          exact inductionHypothesis (by simpa [List.count_cons] using placed) executing
      | some step =>
          have before := placed step
          rw [List.count_cons_self, ← Nat.add_assoc] at before
          cases found : s.inst step with
          | none =>
              rw [found] at before
              cases before
              contradiction
          | some x =>
              rw [found] at before
              have runs : current = some step → .executing ∈ x.held := by
                rintro rfl
                obtain ⟨z, holds, membership⟩ := executing
                rw [found] at holds
                cases holds
                exact membership
              obtain ⟨y, updated, after, sameHeld⟩ := before.reSchedule current found runs
              apply inductionHypothesis
              · intro other
                rw [updated]
                by_cases same : other = step
                · subst same
                  simpa using after
                · have unchanged := placed other
                  rw [List.count_cons_of_ne (by simpa using Ne.symm same)] at unchanged
                  simpa [same] using unchanged
              · exact current_update executing found updated sameHeld

variable [DecidableEq Item]

/-- The memberships of a step instance are those in the group of one item and
those in the groups of all others. -/
theorem memberships_split (s : State Step Item) (item : Item) (step : Step) :
    memberships s step =
      (s.waiting.filter fun entry => entry.1 ≠ item).countP (fun entry => entry.2 = some step) +
        (suspendGroup s item).count (some step) := by
  simp only [memberships, suspendGroup]
  induction s.waiting with
  | nil => rfl
  | cons entry rest inductionHypothesis =>
      by_cases same : entry.1 = item <;> by_cases member : entry.2 = some step <;>
        simp [same, member, inductionHypothesis] <;> omega

theorem Sound.put (sound : Sound s) {current : Option Step} (executing : s.Current current)
    (item : Item) :
    Sound { resume s current item with present := Function.update s.present item true } where
  placed := by
    apply placed_resume (suspendGroup s item) _ executing
    intro step
    have before := sound.placed step
    rwa [memberships_split s item] at before
  missing := by
    intro entry membership
    obtain ⟨old, different⟩ := List.mem_filter.mp membership
    have absent := sound.missing entry old
    simpa [of_decide_eq_true different] using absent

theorem Sound.step {action : Action Step Item} {next : State Step Item} (sound : Sound s)
    (replays : FailedGetsReplay s action) (stepped : step s action = some next) :
    Sound next := by
  cases action with
  | create step caller =>
      simp only [Scheduler.step, Option.ite_none_right_eq_some, Option.some.injEq] at stepped
      obtain ⟨⟨fresh, executing⟩, rfl⟩ := stepped
      exact sound.create fresh executing
  | prepareGuard step caller =>
      simp only [Scheduler.step, Option.ite_none_right_eq_some, Option.some.injEq] at stepped
      obtain ⟨⟨x, found, held⟩, rfl⟩ := stepped
      exact sound.modify found fun placed => placed.guard held rfl rfl rfl
  | depends step caller item =>
      simp only [Scheduler.step, Option.ite_none_right_eq_some, Option.some.injEq] at stepped
      obtain ⟨⟨held, absent⟩, rfl⟩ := stepped
      exact sound.suspend held rfl absent
  | prepareStatus step caller =>
      simp only [Scheduler.step, Option.ite_none_right_eq_some, Option.some.injEq] at stepped
      obtain ⟨⟨x, found, held⟩, rfl⟩ := stepped
      refine sound.modify found fun placed => ?_
      obtain ⟨-, notQueued, alone, notCaller, counter, -, -⟩ := placed.of_held held
      simp only [Instance.advance, notQueued, alone, List.erase_cons_head]
      exact .held (by simp) notCaller counter (by simp [Phase.guarded]) (by simp)
  | prepareUnguard step caller =>
      simp only [Scheduler.step, Option.ite_none_right_eq_some, Option.some.injEq] at stepped
      obtain ⟨⟨x, found, held⟩, rfl⟩ := stepped
      exact sound.modify found fun placed => placed.unguard held rfl rfl (by simp) rfl
  | prepareSchedule step caller =>
      simp only [Scheduler.step, Option.ite_none_right_eq_some, Option.some.injEq] at stepped
      obtain ⟨⟨x, found, held⟩, rfl⟩ := stepped
      obtain ⟨notCaller, queued⟩ := (found ▸ sound.placed step : Placed _ _ (some x)).schedule held
      rw [schedule, if_neg notCaller, modify_modify]
      exact sound.modify found fun _ => queued
  | pop step =>
      simp only [Scheduler.step] at stepped
      split at stepped
      · cases stepped
      · rename_i x found
        simp only [Option.ite_none_right_eq_some, Option.some.injEq] at stepped
        obtain ⟨nonempty, rfl⟩ := stepped
        exact sound.modify found fun placed => placed.pop nonempty
  | executeGuard step =>
      simp only [Scheduler.step, Option.ite_none_right_eq_some, Option.some.injEq] at stepped
      obtain ⟨⟨x, found, held⟩, rfl⟩ := stepped
      exact sound.modify found fun placed => placed.guard held rfl rfl rfl
  | get step item =>
      simp only [Scheduler.step, Option.ite_none_right_eq_some, Option.some.injEq] at stepped
      obtain ⟨⟨held, absent⟩, rfl⟩ := stepped
      exact sound.suspend held rfl absent
  | getFromEnv item =>
      simp only [Scheduler.step, Option.ite_none_right_eq_some, Option.some.injEq] at stepped
      obtain ⟨absent, rfl⟩ := stepped
      exact sound.suspendEnv absent
  | put current item =>
      simp only [Scheduler.step, Option.ite_none_right_eq_some, Option.some.injEq] at stepped
      obtain ⟨⟨executing, _⟩, rfl⟩ := stepped
      exact sound.put executing item
  | executeReturn step result =>
      simp only [Scheduler.step, Option.ite_none_right_eq_some] at stepped
      obtain ⟨⟨x, found, held⟩, returned⟩ := stepped
      cases result with
      | success =>
          cases returned
          refine sound.modify found fun placed => ?_
          obtain ⟨-, notQueued, alone, -, -, -, replayed⟩ := placed.of_held held
          simp only [Instance.release, notQueued, alone, List.erase_cons_head]
          exact .done rfl (replayed rfl (replays x found))
      | unfinished =>
          cases returned
          refine sound.modify found fun placed => ?_
          obtain ⟨alive, notQueued, alone, notCaller, counter, -, -⟩ := placed.of_held held
          simp only [Instance.advance, notQueued, alone, List.erase_cons_head]
          exact .held alive notCaller counter (by simp [Phase.guarded]) (by simp)
      | failure => cases returned
      | needsSequentialize => cases returned
      | needsExtraWake => cases returned
  | executeUnguard step =>
      simp only [Scheduler.step, Option.ite_none_right_eq_some, Option.some.injEq] at stepped
      obtain ⟨⟨x, found, held⟩, rfl⟩ := stepped
      exact sound.modify found fun placed => placed.unguard held rfl rfl (by simp) rfl

theorem sound_of_reached (reached : Reached system FailedGetsReplay s) : Sound s := by
  refine Reached.invariant Sound ?_ ?_ reached
  · rintro _ rfl
    exact sound_start
  · intro before action next _ sound replays stepped
    exact sound.step replays stepped

/-- In every run in which executions with a failed get do not succeed, a step
instance which is not done is never in two places, its counter tells its
memberships and whether it carries the extra suspend, and if it is in no queue
and no call holds it, then it waits for an item which has not been put. -/
theorem suspend_resume_sound (reached : Reached system FailedGetsReplay s) (step : Step)
    {x : Instance Step} (found : s.inst step = some x) (alive : x.sched.status ≠ .done) :
    x.sched.nSuspenders = memberships s step + (if x.held.any Phase.guarded then 1 else 0) ∧
      x.queued + x.held.length ≤ 1 ∧
      (x.queued = 0 → x.held = [] →
        ∃ item, (item, some step) ∈ s.waiting ∧ s.present item = false) := by
  have sound := sound_of_reached reached
  have placed := sound.placed step
  rw [found] at placed
  cases placed with
  | done finished => exact absurd finished alive
  | suspended _ waits counter =>
      refine ⟨by simp [counter], by simp, fun _ _ => ?_⟩
      obtain ⟨⟨item, member⟩, membership, same⟩ := List.countP_pos_iff.mp waits
      obtain rfl : member = some step := of_decide_eq_true same
      exact ⟨item, membership, sound.missing _ membership⟩
  | queued _ empty counter => exact ⟨by simp [counter, empty], by simp, by simp⟩
  | held _ _ counter _ _ => exact ⟨by simp [counter], by simp, by simp⟩

end Invariant

/-- Step instance 1 is prepared and scheduled, gets the missing item 7, and
leaves its execution suspended. -/
def getMissing : List (Action Nat Nat) :=
  [.create 1 none, .prepareGuard 1 none, .prepareStatus 1 none, .prepareUnguard 1 none,
    .prepareSchedule 1 none, .pop 1, .executeGuard 1, .get 1 7, .executeReturn 1 .unfinished,
    .executeUnguard 1]

theorem suspend_resume_sound_getMissing :
    ∃ (s : State Nat Nat) (x : Instance Nat),
      system.run FailedGetsReplay (start Nat Nat) getMissing = some s ∧ s.inst 1 = some x ∧
        x.sched.status ≠ .done ∧ x.sched.nSuspenders = 1 ∧ x.queued + x.held.length = 0 ∧
        ∃ item, (item, some 1) ∈ s.waiting ∧ s.present item = false := by
  refine ⟨_, _, rfl, rfl, by decide, by decide, by decide, ?_⟩
  obtain ⟨-, -, waits⟩ := suspend_resume_sound
    (Reached.run (.initial rfl) getMissing rfl) 1 rfl (by decide)
  exact waits rfl rfl

end CnC.Scheduler
