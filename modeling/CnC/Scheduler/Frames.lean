import Mathlib.Data.List.Count
import Mathlib.Data.List.Nodup
import CnC.Scheduler.Placed

/-!
# Schedulables, threads and the wait thread

The invariant of the runs in which no two executions of a schedulable meet: every
schedulable is in its place, the calls of every thread are nested, and no worker runs
while the wait thread goes through the lists.  A step changes one schedulable and the
calls of one thread, and the frame rules keep the rest.
-/

namespace CnC.WaitAll

open Transition CnC.Scheduler

universe u

variable {Step Item : Type u}

section Quiet

/-- While the wait thread goes through the lists, no worker runs. -/
def Quiet (s : State Step Item) : Prop :=
  match s.waiter with
  | .idle | .waiting _ => s.seq2 = []
  | .lockPending _ rest =>
      s.inFlight = [] ∧ s.seq2 = [] ∧ s.rescheduled = [] ∧ rest.Nodup ∧
        ∀ step ∈ rest, step ∈ s.pendingSteps
  | .lockSeq _ rest =>
      s.inFlight = [] ∧ s.seq2 = [] ∧ s.rescheduled = [] ∧ rest.Nodup ∧
        ∀ step ∈ rest, step ∈ s.seqSteps
  | .sequential _ => s.inFlight = [] ∧ s.rescheduled = []
  | .running _ current => (∀ step ∈ s.inFlight, step = current) ∧ s.rescheduled = []
  | .reschedule _ _ => s.seq2 = [] ∧ ∀ step ∈ s.rescheduled, step ∉ s.pendingSteps

def Waiter.inLists : Waiter Step → Bool
  | .lockPending _ _ | .lockSeq _ _ | .sequential _ => true
  | _ => false

variable {s : State Step Item} {step : Step}

theorem Quiet.within (quiet : Quiet s) {l : List Step}
    (within : ∀ other ∈ l, other ∈ s.inFlight) : Quiet { s with inFlight := l } := by
  have empty : s.inFlight = [] → l = [] := fun none =>
    List.eq_nil_iff_forall_not_mem.mpr fun other membership => by
      simpa [none] using within other membership
  obtain ⟨inst, present, waiting, thread, inFlight, pendingSteps, seqSteps, seq2, rescheduled,
    waiter⟩ := s
  cases waiter with
  | running i current =>
      exact ⟨fun other membership => quiet.1 other (within other membership), quiet.2⟩
  | lockPending i rest => exact ⟨empty quiet.1, quiet.2⟩
  | lockSeq i rest => exact ⟨empty quiet.1, quiet.2⟩
  | sequential i => exact ⟨empty quiet.1, quiet.2⟩
  | _ => exact quiet

theorem Quiet.outside (quiet : Quiet s) (counted : step ∈ s.inFlight) :
    s.waiter.inLists = false := by
  obtain ⟨inst, present, waiting, thread, inFlight, pendingSteps, seqSteps, seq2, rescheduled,
    waiter⟩ := s
  cases waiter with
  | lockPending => exact absurd counted (by simp [show inFlight = [] from quiet.1])
  | lockSeq => exact absurd counted (by simp [show inFlight = [] from quiet.1])
  | sequential => exact absurd counted (by simp [show inFlight = [] from quiet.1])
  | _ => rfl

theorem Quiet.sequentialize (quiet : Quiet s) (outside : s.waiter.inLists = false) :
    Quiet { s with seqSteps := step :: s.seqSteps } := by
  obtain ⟨inst, present, waiting, thread, inFlight, pendingSteps, seqSteps, seq2, rescheduled,
    waiter⟩ := s
  cases waiter with
  | lockPending => cases outside
  | lockSeq => cases outside
  | sequential => cases outside
  | _ => exact quiet

theorem Quiet.pending (quiet : Quiet s) (waits : s.waiter = .idle ∨ ∃ i, s.waiter = .waiting i) :
    Quiet { s with pendingSteps := step :: s.pendingSteps } := by
  obtain ⟨inst, present, waiting, thread, inFlight, pendingSteps, seqSteps, seq2, rescheduled,
    waiter⟩ := s
  rcases waits with isIdle | ⟨i, isWaiting⟩
  · cases isIdle
    exact quiet
  · cases isWaiting
    exact quiet

theorem Quiet.postpone (quiet : Quiet s) (running : s.waiter.isRunning = true) :
    Quiet { s with pendingSteps := step :: s.pendingSteps } := by
  obtain ⟨inst, present, waiting, thread, inFlight, pendingSteps, seqSteps, seq2, rescheduled,
    waiter⟩ := s
  cases waiter with
  | running i current => exact quiet
  | _ => cases running

theorem Quiet.enqueue (quiet : Quiet s) (outside : s.waiter.inLists = false)
    (parallel : s.waiter.isRunning = false) : Quiet { s with inFlight := step :: s.inFlight } := by
  obtain ⟨inst, present, waiting, thread, inFlight, pendingSteps, seqSteps, seq2, rescheduled,
    waiter⟩ := s
  cases waiter with
  | lockPending => cases outside
  | lockSeq => cases outside
  | sequential => cases outside
  | running => cases parallel
  | _ => exact quiet

end Quiet

section Sound

variable [DecidableEq Step]

def State.lockedPending (s : State Step Item) (step : Step) : Bool :=
  match s.waiter with
  | .idle | .waiting _ => false
  | .lockPending _ rest => s.pendingSteps.contains step && !rest.contains step
  | _ => s.pendingSteps.contains step

def State.lockedSeq (s : State Step Item) (step : Step) : Bool :=
  match s.waiter with
  | .lockSeq _ rest => s.seqSteps.contains step && !rest.contains step
  | .sequential _ | .running _ _ => s.seq2.contains step
  | _ => false

def Waiter.runs (waiter : Waiter Step) (step : Step) : Bool :=
  match waiter with
  | .running _ current => decide (current = step)
  | _ => false

def State.view (s : State Step Item) (step : Step) : View where
  memberships := s.memberships step
  inFlight := s.inFlight.count step
  pending := s.pendingSteps.count step
  seq := (s.seqSteps ++ s.seq2).count step
  lockedPending := s.lockedPending step
  lockedSeq := s.lockedSeq step
  running := s.waiter.runs step

/-- The calls of `prepare` of a thread: all but the innermost run the user's code. -/
def Stacked (s : State Step Item) (thread : Option Step) : List Step → Prop
  | [] => True
  | step :: rest =>
      (step :: rest).Nodup ∧
        (∃ phase, phase.preparesIn = some thread ∧ s.inPhase step phase = true) ∧
        ∀ caller ∈ rest, ∃ extra, s.inPhase caller (.prescheduled thread extra) = true

structure Threads (kind : Step → Kind) (s : State Step Item) : Prop where
  active : ∀ thread, s.thread thread ≠ .idle → (thread = none ∧ s.waiter = .idle) ∨
    ∃ step, thread = some step ∧ s.inPhase step .executing = true
  stacked : ∀ thread, Stacked s thread (s.thread thread).preparing
  tested : ∀ thread step, (s.thread thread).testing = some step → (kind step).isRange = false
  resuming : ∀ thread item, (s.thread thread).resuming = some item →
    ∀ step ∈ (s.thread thread).preparing, ∃ extra,
      s.inPhase step (.prescheduled thread extra) = true
  prepares : ∀ thread step phase, phase.preparesIn = some thread →
    s.inPhase step phase = true → step ∈ (s.thread thread).preparing

structure Sound (loose : Bool) (kind : Step → Kind) (s : State Step Item) : Prop where
  placed : ∀ step, Placed loose (kind step) (s.view step) (s.inst step)
  threads : Threads kind s
  quiet : Quiet s
  rescheduled : s.rescheduled.Nodup

/-- A thread which runs the user's code, or is inside of a call. -/
def Acts (s : State Step Item) (thread : Option Step) : Prop :=
  (thread = none ∧ s.waiter = .idle) ∨
    ∃ step, thread = some step ∧ s.inPhase step .executing = true

variable {loose : Bool} {kind : Step → Kind} {s next : State Step Item} {step other : Step}
  {thread : Option Step} {x : Instance Step} {phase : Phase Step}
  {edit : Instance Step → Instance Step} {rest : List Step}

@[simp] theorem modify_same (found : s.inst step = some x) :
    (s.modify step edit).inst step = some (edit x) := by
  simp [State.modify, found]

theorem modify_modify (first second : Instance Step → Instance Step) :
    (s.modify step first).modify step second = s.modify step (second ∘ first) := by
  simp [State.modify]

theorem modify_id : s.modify step id = s := by
  simp [State.modify]

theorem modify_eq (found : s.inst step = some x) :
    (s.modify step edit).inst = Function.update s.inst step (some (edit x)) := by
  simp [State.modify, found]

theorem inPhase_iff : s.inPhase step phase = true ↔ ∃ x, s.inst step = some x ∧ phase ∈ x.held := by
  simp [State.inPhase, Option.any_eq_true]

theorem inPhase_self (after : next.inst = Function.update s.inst step (some x)) :
    next.inPhase step phase = true ↔ phase ∈ x.held := by
  simp [State.inPhase, after]

theorem inPhase_other {record : Option (Instance Step)}
    (after : next.inst = Function.update s.inst step record) (different : other ≠ step) :
    next.inPhase other phase = s.inPhase other phase := by
  simp [State.inPhase, after, different]

theorem mem_held (found : s.inst step = some x) (held : s.inPhase step phase = true) :
    phase ∈ x.held := by
  obtain ⟨z, isFound, membership⟩ := inPhase_iff.mp held
  obtain rfl : x = z := Option.some.inj (found.symm.trans isFound)
  exact membership

@[simp] theorem view_modify : (s.modify step edit).view other = s.view other := rfl

@[simp] theorem view_setThread (calls : Thread Step Item) :
    (s.setThread thread calls).view other = s.view other := rfl

theorem view_inFlight (other : Step) :
    ({ s with inFlight := step :: s.inFlight } : State Step Item).view other =
      { s.view other with
        inFlight := (s.view other).inFlight + if step = other then 1 else 0 } := by
  simp [State.view, State.memberships, State.lockedPending, State.lockedSeq, List.count_cons]

theorem view_enqueue (other : Step) : (s.enqueue step).view other =
    { s.view other with inFlight := (s.view other).inFlight + if step = other then 1 else 0 } :=
  view_inFlight other

theorem view_erase [DecidableEq Item] {entry : Item × Option Step} (member : entry ∈ s.waiting)
    (other : Step) :
    ({ s with waiting := s.waiting.erase entry } : State Step Item).view other =
      { s.view other with memberships :=
          (s.view other).memberships - if entry.2 = some other then 1 else 0 } := by
  simp [State.view, State.memberships, State.lockedPending, State.lockedSeq, List.countP_erase,
    member]

theorem view_leave (l : List Step) (other : Step) :
    ({ s.leave step phase with inFlight := l } : State Step Item).view other =
      { s.view other with
        inFlight := l.count other
        running := s.waiter.runs other && decide (other ≠ step) } := by
  obtain ⟨inst, present, waiting, thread, inFlight, pendingSteps, seqSteps, seq2, rescheduled,
    waiter⟩ := s
  cases waiter with
  | running i current =>
      by_cases isCurrent : current = step
      · subst isCurrent
        simp [State.view, State.leave, State.modify, State.memberships, State.lockedPending,
          State.lockedSeq, Waiter.runs, eq_comm]
      · by_cases isOther : other = step <;>
          simp_all [State.view, State.leave, State.modify, State.memberships, State.lockedPending,
            State.lockedSeq, Waiter.runs]
  | _ =>
      simp [State.view, State.leave, State.modify, State.memberships, State.lockedPending,
        State.lockedSeq, Waiter.runs]

theorem view_seq (outside : s.waiter.inLists = false) (other : Step) :
    ({ s with seqSteps := step :: s.seqSteps } : State Step Item).view other =
      { s.view other with seq := (s.view other).seq + if step = other then 1 else 0 } := by
  obtain ⟨inst, present, waiting, thread, inFlight, pendingSteps, seqSteps, seq2, rescheduled,
    waiter⟩ := s
  cases waiter with
  | lockPending => cases outside
  | lockSeq => cases outside
  | sequential => cases outside
  | _ =>
      simp [State.view, State.memberships, State.lockedPending, State.lockedSeq,
        List.count_cons]

theorem view_pending (outside : s.waiter = .idle ∨ ∃ i, s.waiter = .waiting i) (other : Step) :
    ({ s with pendingSteps := step :: s.pendingSteps } : State Step Item).view other =
      { s.view other with pending := (s.view other).pending + if step = other then 1 else 0 } := by
  obtain ⟨inst, present, waiting, thread, inFlight, pendingSteps, seqSteps, seq2, rescheduled,
    waiter⟩ := s
  rcases outside with isIdle | ⟨i, isWaiting⟩
  · cases isIdle
    simp [State.view, State.memberships, State.lockedPending, State.lockedSeq, List.count_cons]
  · cases isWaiting
    simp [State.view, State.memberships, State.lockedPending, State.lockedSeq, List.count_cons]

theorem view_postpone (running : s.waiter.isRunning = true) (step other : Step) :
    ({ s with pendingSteps := step :: s.pendingSteps } : State Step Item).view other =
      { s.view other with
        pending := (s.view other).pending + if step = other then 1 else 0
        lockedPending := (s.view other).lockedPending || decide (step = other) } := by
  obtain ⟨inst, present, waiting, thread, inFlight, pendingSteps, seqSteps, seq2, rescheduled,
    waiter⟩ := s
  cases waiter with
  | running i current =>
      by_cases same : step = other
      · simp [State.view, State.memberships, State.lockedPending, State.lockedSeq, same]
      · simp [State.view, State.memberships, State.lockedPending, State.lockedSeq, same,
          Ne.symm same]
  | _ => cases running

theorem unlocked_of_unlisted (unlisted : (s.view step).pending = 0) :
    (s.view step).lockedPending = false := by
  have notMem : step ∉ s.pendingSteps := List.count_eq_zero.mp unlisted
  simp only [State.view, State.lockedPending]
  split <;> simp [notMem]

theorem unlocked_of_outside (outside : s.waiter.inLists = false)
    (unlisted : (s.view step).seq = 0) :
    (s.view step).lockedSeq = false := by
  have notMem : step ∉ s.seqSteps ++ s.seq2 := List.count_eq_zero.mp unlisted
  obtain ⟨inst, present, waiting, thread, inFlight, pendingSteps, seqSteps, seq2, rescheduled,
    waiter⟩ := s
  cases waiter with
  | lockSeq => cases outside
  | running i current =>
      have notOld : step ∉ seq2 := fun membership => notMem (List.mem_append_right _ membership)
      simp [State.view, State.lockedSeq, notOld]
  | sequential => cases outside
  | _ => rfl

theorem unlisted_of_unlocked (running : s.waiter.isRunning = true)
    (unlocked : (s.view step).lockedPending = false) : (s.view step).pending = 0 := by
  obtain ⟨inst, present, waiting, thread, inFlight, pendingSteps, seqSteps, seq2, rescheduled,
    waiter⟩ := s
  cases waiter with
  | running i current =>
      have notMem : step ∉ pendingSteps := by simpa [State.view, State.lockedPending] using unlocked
      exact List.count_eq_zero.mpr notMem
  | _ => cases running

theorem notRunning_of_parallel (parallel : s.waiter.isRunning = false) (step : Step) :
    (s.view step).running = false := by
  cases isWaiter : s.waiter with
  | running => simp [isWaiter, Waiter.isRunning] at parallel
  | _ => simp [State.view, Waiter.runs, isWaiter]

theorem Quiet.leave (quiet : Quiet s) (ended : step ∉ s.inFlight) (phase : Phase Step) :
    Quiet (s.leave step phase) := by
  obtain ⟨inst, present, waiting, thread, inFlight, pendingSteps, seqSteps, seq2, rescheduled,
    waiter⟩ := s
  cases waiter with
  | running i current =>
      obtain ⟨alone, fresh⟩ := quiet
      by_cases isCurrent : current = step
      · subst isCurrent
        have none : inFlight = [] := List.eq_nil_iff_forall_not_mem.mpr fun other membership =>
          ended (alone other membership ▸ membership)
        simp [Quiet, State.leave, State.modify, none, fresh]
      · simp only [Quiet, State.leave, State.modify, isCurrent, if_false]
        exact ⟨alone, fresh⟩
  | _ => exact quiet

theorem Stacked.congr {steps : List Step} (stacked : Stacked s thread steps)
    (same : ∀ step ∈ steps, ∀ phase, phase.preparesIn = some thread →
      s.inPhase step phase = true → next.inPhase step phase = true) :
    Stacked next thread steps := by
  cases steps with
  | nil => trivial
  | cons step rest =>
      obtain ⟨nodup, ⟨phase, prepares, held⟩, callers⟩ := stacked
      refine ⟨nodup, ⟨phase, prepares, same step List.mem_cons_self phase prepares held⟩, ?_⟩
      intro caller membership
      obtain ⟨extra, held⟩ := callers caller membership
      exact ⟨extra, same caller (List.mem_cons_of_mem _ membership) _ rfl held⟩

theorem Stacked.tail {rest : List Step} (stacked : Stacked s thread (step :: rest)) :
    Stacked s thread rest := by
  cases rest with
  | nil => trivial
  | cons caller others =>
      obtain ⟨nodup, -, callers⟩ := stacked
      obtain ⟨extra, held⟩ := callers caller List.mem_cons_self
      exact ⟨(List.nodup_cons.mp nodup).2, ⟨_, rfl, held⟩, fun other membership =>
        callers other (List.mem_cons_of_mem _ membership)⟩

theorem Stacked.mem {steps : List Step} (stacked : Stacked s thread steps)
    (membership : step ∈ steps) :
    ∃ phase, phase.preparesIn = some thread ∧ s.inPhase step phase = true := by
  cases steps with
  | nil => cases membership
  | cons top rest =>
      obtain ⟨-, top, callers⟩ := stacked
      rcases List.mem_cons.mp membership with rfl | below
      · exact top
      · obtain ⟨extra, held⟩ := callers step below
        exact ⟨_, rfl, held⟩

structure Threads.Own (kind : Step → Kind) (s next : State Step Item) (thread : Option Step) :
    Prop where
  active : s.thread thread = .idle → next.thread thread ≠ .idle →
    (thread = none ∧ next.waiter = .idle) ∨
      ∃ step, thread = some step ∧ next.inPhase step .executing = true
  stacked : Stacked next thread (next.thread thread).preparing
  tested : ∀ step, (next.thread thread).testing = some step → (kind step).isRange = false
  resuming : ∀ item, (next.thread thread).resuming = some item →
    ∀ step ∈ (next.thread thread).preparing, ∃ extra,
      next.inPhase step (.prescheduled thread extra) = true
  prepares : ∀ step phase, phase.preparesIn = some thread → next.inPhase step phase = true →
    step ∈ (next.thread thread).preparing

theorem Threads.change (threads : Threads kind s)
    (others : ∀ other, other ≠ thread → next.thread other = s.thread other)
    (idle : s.waiter = .idle → next.waiter = .idle)
    (executes : ∀ step, s.thread (some step) ≠ .idle → s.inPhase step .executing = true →
      next.inPhase step .executing = true)
    (prepares : ∀ step phase other, other ≠ thread → phase.preparesIn = some other →
      next.inPhase step phase = s.inPhase step phase)
    (own : Threads.Own kind s next thread) : Threads kind next where
  active other busy := by
    by_cases was : s.thread other = .idle
    · by_cases same : other = thread
      · subst same
        exact own.active was busy
      · exact absurd (others other same ▸ was) busy
    · rcases threads.active other was with ⟨isNone, isIdle⟩ | ⟨step, rfl, executing⟩
      · exact .inl ⟨isNone, idle isIdle⟩
      · exact .inr ⟨step, rfl, executes step was executing⟩
  stacked other := by
    by_cases same : other = thread
    · subst same
      exact own.stacked
    · rw [others other same]
      exact (threads.stacked other).congr fun step _ phase inThread held =>
        (prepares step phase other same inThread).trans held
  tested other step isTested := by
    by_cases same : other = thread
    · subst same
      exact own.tested step isTested
    · rw [others other same] at isTested
      exact threads.tested other step isTested
  resuming other item isResuming step membership := by
    by_cases same : other = thread
    · subst same
      exact own.resuming item isResuming step membership
    · rw [others other same] at isResuming membership
      obtain ⟨extra, held⟩ := threads.resuming other item isResuming step membership
      exact ⟨extra, (prepares step _ other same rfl).trans held⟩
  prepares other step phase inThread held := by
    by_cases same : other = thread
    · subst same
      exact own.prepares step phase inThread held
    · rw [others other same]
      exact threads.prepares other step phase inThread
        ((prepares step phase other same inThread).symm.trans held)

/-- A step of a thread on one schedulable: it keeps the calls by which other threads
prepare it, and its execution as long as that is inside of other calls. -/
theorem Sound.call {y : Instance Step} (sound : Sound loose kind s) (thread : Option Step)
    (after : next.inst = Function.update s.inst step (some y))
    (others : ∀ other, other ≠ step → next.view other = s.view other)
    (placed : Placed loose (kind step) (next.view step) (some y))
    (threads : ∀ other, other ≠ thread → next.thread other = s.thread other)
    (idle : s.waiter = .idle → next.waiter = .idle)
    (executes : s.thread (some step) ≠ .idle → s.inPhase step .executing = true →
      .executing ∈ y.held)
    (prepares : ∀ phase other, other ≠ thread → phase.preparesIn = some other →
      (phase ∈ y.held ↔ s.inPhase step phase = true))
    (own : Threads.Own kind s next thread) (quiet : Quiet next)
    (rescheduled : next.rescheduled = s.rescheduled) : Sound loose kind next where
  placed other := by
    rw [after]
    by_cases isStep : other = step
    · subst isStep
      rw [Function.update_self]
      exact placed
    · rw [Function.update_of_ne isStep, others other isStep]
      exact sound.placed other
  threads := by
    refine sound.threads.change threads idle ?_ ?_ own
    · intro other busy executing
      by_cases isStep : other = step
      · subst isStep
        exact (inPhase_self after).mpr (executes busy executing)
      · exact (inPhase_other after isStep).trans executing
    · intro other phase outside different inThread
      by_cases isStep : other = step
      · subst isStep
        rw [Bool.eq_iff_iff, inPhase_self after]
        exact prepares phase outside different inThread
      · exact inPhase_other after isStep
  quiet := quiet
  rescheduled := rescheduled ▸ sound.rescheduled

/-- A pass of `do_execute` moves on, from outside of the user's code or from its end. -/
def MovesOn (s : State Step Item) (step : Step) (x y : Instance Step) : Prop :=
  y.held = x.held ∨
    ((∀ phase ∈ x.held, phase.preparesIn = none ∧
      (phase = .executing → s.thread (some step) = .idle)) ∧
    ∀ phase ∈ y.held, phase.preparesIn = none)

theorem MovesOn.goto {y : Instance Step} {before : Phase Step} (after : Phase Step)
    (alone : x.held = [before])
    (goes : y.held = after :: x.held.erase before) (outside : before.preparesIn = none)
    (inside : before = .executing → s.thread (some step) = .idle)
    (passes : after.preparesIn = none) : MovesOn s step x y := by
  refine .inr ⟨fun other membership => ?_, fun other membership => ?_⟩
  · rw [alone, List.mem_singleton] at membership
    exact membership ▸ ⟨outside, inside⟩
  · rw [goes, alone, List.erase_cons_head, List.mem_singleton] at membership
    exact membership ▸ passes

/-- A step on one schedulable by no thread: it keeps the calls of `prepare` which hold
it, and its execution as long as that is inside of other calls. -/
theorem Sound.operate {y : Instance Step} (sound : Sound loose kind s)
    (found : s.inst step = some x) (after : next.inst = Function.update s.inst step (some y))
    (others : ∀ other, other ≠ step → next.view other = s.view other)
    (placed : Placed loose (kind step) (s.view step) (some x) →
      Placed loose (kind step) (next.view step) (some y))
    (same : next.thread = s.thread) (idle : s.waiter = .idle → next.waiter = .idle)
    (moves : MovesOn s step x y)
    (quiet : Quiet next) (rescheduled : next.rescheduled = s.rescheduled) :
    Sound loose kind next := by
  have isHeld : ∀ phase, s.inPhase step phase = true ↔ phase ∈ x.held := fun phase =>
    ⟨mem_held found, fun membership => inPhase_iff.mpr ⟨x, found, membership⟩⟩
  have prepared : ∀ phase other, phase.preparesIn = some other →
      (phase ∈ y.held ↔ s.inPhase step phase = true) := by
    intro phase other inThread
    rw [isHeld]
    rcases moves with same | ⟨before, after⟩
    · rw [same]
    · refine iff_of_false (fun membership => ?_) fun membership => ?_
      · simp [after phase membership] at inThread
      · simp [(before phase membership).1] at inThread
  have keeps : ∀ other phase thread, phase.preparesIn = some thread →
      next.inPhase other phase = s.inPhase other phase := by
    intro other phase thread inThread
    by_cases isStep : other = step
    · subst isStep
      rw [Bool.eq_iff_iff, inPhase_self after]
      exact prepared phase thread inThread
    · exact inPhase_other after isStep
  have own : Threads.Own kind s next none := by
    constructor
    · intro was busy
      exact absurd (congrFun same none ▸ was) busy
    · rw [same]
      exact (sound.threads.stacked none).congr fun other _ phase inThread isHeld =>
        (keeps other phase none inThread).trans isHeld
    · rw [same]
      exact sound.threads.tested none
    · rw [same]
      intro item isResuming other membership
      obtain ⟨extra, isHeld⟩ := sound.threads.resuming none item isResuming other membership
      exact ⟨extra, (keeps other _ none rfl).trans isHeld⟩
    · rw [same]
      intro other phase inThread isHeld
      exact sound.threads.prepares none other phase inThread
        ((keeps other phase none inThread).symm.trans isHeld)
  refine sound.call none after others (placed (found ▸ sound.placed step))
    (fun other _ => congrFun same other) idle
    (fun busy executing => ?_) (fun phase other _ inThread => prepared phase other inThread) own
    quiet rescheduled
  rcases moves with same | ⟨before, -⟩
  · rw [same]
    exact (isHeld _).mp executing
  · exact absurd ((before _ ((isHeld _).mp executing)).2 rfl) busy

/-- A step which changes only the record of a schedulable, and neither a call of
`prepare` nor an execution which is inside of other calls. -/
theorem Sound.modify (sound : Sound loose kind s) (found : s.inst step = some x)
    (placed : Placed loose (kind step) (s.view step) (some x) →
      Placed loose (kind step) (s.view step) (some (edit x)))
    (moves : MovesOn s step x (edit x)) : Sound loose kind (s.modify step edit) :=
  sound.operate found (modify_eq found) (fun _ _ => rfl) placed rfl id moves sound.quiet rfl

theorem Sound.still (sound : Sound loose kind s) (thread : Option Step) (same : next.inst = s.inst)
    (views : ∀ step, next.view step = s.view step)
    (threads : ∀ other, other ≠ thread → next.thread other = s.thread other)
    (idle : s.waiter = .idle → next.waiter = .idle)
    (active : s.thread thread = .idle → next.thread thread ≠ .idle → Acts s thread)
    (preparing : (next.thread thread).preparing = (s.thread thread).preparing)
    (tested : ∀ step, (next.thread thread).testing = some step → (kind step).isRange = false)
    (resuming : ∀ item, (next.thread thread).resuming = some item →
      ∀ step ∈ (s.thread thread).preparing, ∃ extra,
        s.inPhase step (.prescheduled thread extra) = true)
    (quiet : Quiet next) (rescheduled : next.rescheduled = s.rescheduled) :
    Sound loose kind next where
  placed step := by
    rw [views, same]
    exact sound.placed step
  threads := by
    have keeps : ∀ step phase, next.inPhase step phase = s.inPhase step phase := by
      simp [State.inPhase, same]
    refine sound.threads.change threads idle ?_ (fun step phase _ _ _ => keeps step phase) ?_
    · intro step _ executes
      rwa [keeps]
    · constructor
      · intro was busy
        rcases active was busy with ⟨isNone, isIdle⟩ | ⟨step, isSome, executes⟩
        · exact .inl ⟨isNone, idle isIdle⟩
        · exact .inr ⟨step, isSome, (keeps ..).trans executes⟩
      · rw [preparing]
        exact (sound.threads.stacked thread).congr fun step _ phase _ held =>
          (keeps step phase).trans held
      · exact tested
      · intro item isResuming step membership
        rw [preparing] at membership
        obtain ⟨extra, held⟩ := resuming item isResuming step membership
        exact ⟨extra, (keeps ..).trans held⟩
      · intro step phase inThread held
        rw [preparing]
        exact sound.threads.prepares thread step phase inThread ((keeps ..).symm.trans held)
  quiet := quiet
  rescheduled := rescheduled ▸ sound.rescheduled

theorem Sound.proceed {y : Instance Step} {rest : List Step} {before : Phase Step}
    (sound : Sound loose kind s) (after : Phase Step)
    (is : s.thread thread = ⟨step :: rest, none, none⟩)
    (found : s.inst step = some x) (alone : x.held = [before])
    (inThread : before.preparesIn = some thread)
    (updated : next.inst = Function.update s.inst step (some y)) (goes : y.held = [after])
    (stays : after.preparesIn = some thread)
    (others : ∀ other, other ≠ step → next.view other = s.view other)
    (placed : Placed loose (kind step) (next.view step) (some y)) (same : next.thread = s.thread)
    (idle : s.waiter = .idle → next.waiter = .idle) (quiet : Quiet next)
    (rescheduled : next.rescheduled = s.rescheduled) : Sound loose kind next := by
  have stacked := sound.threads.stacked thread
  rw [is] at stacked
  obtain ⟨nodup, -, callers⟩ := stacked
  refine sound.call thread updated others placed (fun other _ => congrFun same other) idle ?_ ?_
    ⟨?_, ?_, ?_, ?_, ?_⟩ quiet rescheduled
  · intro _ executes
    have instead := mem_held found executes
    rw [alone, List.mem_singleton] at instead
    simp [← instead, Phase.preparesIn] at inThread
  · intro phase other different inOther
    refine iff_of_false (fun membership => ?_) fun held => ?_
    · rw [goes, List.mem_singleton] at membership
      subst membership
      exact different (Option.some.inj (inOther.symm.trans stays))
    · have membership := mem_held found held
      rw [alone, List.mem_singleton] at membership
      subst membership
      exact different (Option.some.inj (inOther.symm.trans inThread))
  · intro was
    simp [is, Thread.idle] at was
  · rw [same, is]
    refine ⟨nodup, ⟨after, stays, (inPhase_self updated).mpr (by simp [goes])⟩, ?_⟩
    intro caller membership
    obtain ⟨extra, held⟩ := callers caller membership
    have different : caller ≠ step := fun isStep =>
      (List.nodup_cons.mp nodup).1 (isStep ▸ membership)
    exact ⟨extra, (inPhase_other updated different).trans held⟩
  · simp [same, is]
  · simp [same, is]
  · intro other phase isIn held
    rw [same]
    by_cases isStep : other = step
    · simp [isStep, is]
    · exact sound.threads.prepares thread other phase isIn
        ((inPhase_other updated isStep).symm.trans held)

/-- The innermost call of `prepare` of a thread moves on, and changes only the record of
the schedulable. -/
theorem Sound.goOn {before : Phase Step} (sound : Sound loose kind s) (after : Phase Step)
    (is : s.thread thread = ⟨step :: rest, none, none⟩) (found : s.inst step = some x)
    (held : before ∈ x.held) (inThread : before.preparesIn = some thread)
    (goes : (edit x).held = after :: x.held.erase before) (stays : after.preparesIn = some thread)
    (placed : Placed loose (kind step) (s.view step) (some x) →
      Placed loose (kind step) (s.view step) (some (edit x))) :
      Sound loose kind (s.modify step edit) := by
  have before : Placed loose (kind step) (s.view step) (some x) := found ▸ sound.placed step
  have alone := (before.held_cases held).2.1
  refine sound.proceed after is found alone inThread (modify_eq found) ?_ stays (fun _ _ => rfl)
    (placed before) rfl id sound.quiet rfl
  rw [goes, alone, List.erase_cons_head]

theorem Sound.return_call {y : Instance Step} {rest : List Step} {before : Phase Step}
    (sound : Sound loose kind s) (tested : Option Step)
    (is : s.thread thread = ⟨step :: rest, none, none⟩)
    (found : s.inst step = some x) (alone : x.held = [before])
    (inThread : before.preparesIn = some thread)
    (updated : next.inst = Function.update s.inst step (some y)) (released : y.held = [])
    (others : ∀ other, other ≠ step → next.view other = s.view other)
    (placed : Placed loose (kind step) (next.view step) (some y))
    (popped : next.thread = Function.update s.thread thread ⟨rest, tested, none⟩)
    (plain : ∀ other, tested = some other → (kind other).isRange = false)
    (idle : s.waiter = .idle → next.waiter = .idle) (quiet : Quiet next)
    (rescheduled : next.rescheduled = s.rescheduled) : Sound loose kind next := by
  have stacked := sound.threads.stacked thread
  rw [is] at stacked
  have notBelow : step ∉ rest := (List.nodup_cons.mp stacked.1).1
  refine sound.call thread updated others placed (fun other different => ?_) idle ?_ ?_
    ⟨?_, ?_, ?_, ?_, ?_⟩ quiet rescheduled
  · simp [popped, different]
  · intro _ executes
    have instead := mem_held found executes
    rw [alone, List.mem_singleton] at instead
    simp [← instead, Phase.preparesIn] at inThread
  · intro phase other different inOther
    refine iff_of_false (fun membership => ?_) fun held => ?_
    · simp [released] at membership
    · have membership := mem_held found held
      rw [alone, List.mem_singleton] at membership
      subst membership
      exact different (Option.some.inj (inOther.symm.trans inThread))
  · intro was
    simp [is, Thread.idle] at was
  · rw [popped, Function.update_self]
    refine stacked.tail.congr fun other membership phase _ held => ?_
    have different : other ≠ step := fun isStep => notBelow (isStep ▸ membership)
    exact (inPhase_other updated different).trans held
  · rw [popped, Function.update_self]
    exact plain
  · simp [popped]
  · intro other phase isIn held
    rw [popped, Function.update_self]
    by_cases isStep : other = step
    · subst isStep
      rw [inPhase_self updated, released] at held
      cases held
    · have membership := sound.threads.prepares thread other phase isIn
        ((inPhase_other updated isStep).symm.trans held)
      rw [is] at membership
      exact (List.mem_cons.mp membership).resolve_left isStep

end Sound

end CnC.WaitAll
