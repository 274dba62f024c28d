import CnC.Scheduler.Frames

/-!
# Runs of `wait_all`

One lemma for each step of `wait_all` and of what feeds its lists, in the runs in which no
two executions of a schedulable meet.  `Sound.preserved` is the step lemma and
`sound_of_reached` the run lemma.
-/

namespace CnC.WaitAll

open Transition CnC.Scheduler

universe u

variable {Step Item : Type u}

section Steps

variable [DecidableEq Step]

variable {loose : Bool} {kind : Step → Kind} {s next : State Step Item} {step other : Step}
  {thread : Option Step} {x : Instance Step} {phase : Phase Step}
  {edit : Instance Step → Instance Step} {rest : List Step}

theorem Sound.leave (sound : Sound loose kind s) (found : s.inst step = some x)
    (alone : x.held = [phase])
    (executed : phase.preparesIn = none ∧ phase ≠ .executing) (sameHeld : (edit x).held = x.held)
    {l : List Step}
    (within : ∀ other ∈ l, other ∈ s.inFlight)
    (counts : ∀ other, other ≠ step → l.count other = s.inFlight.count other) (ended : step ∉ l)
    (placed : Placed loose (kind step) (s.view step) (some x) →
      Placed loose (kind step) { s.view step with inFlight := 0, running := false }
        (some ((edit x).release phase))) :
    Sound loose kind { (s.modify step edit).leave step phase with inFlight := l } := by
  have after : ((s.modify step edit).leave step phase).inst =
      Function.update s.inst step (some ((edit x).release phase)) := by
    simp only [State.leave, modify_modify]
    exact modify_eq found
  refine sound.operate found after ?_ ?_ rfl ?_ ?_ ?_ rfl
  · intro other different
    rw [view_leave, counts other different]
    simp [State.view, State.memberships, State.modify, State.lockedPending, State.lockedSeq,
      different]
  · intro before
    rw [view_leave, List.count_eq_zero.mpr ended]
    simpa using placed before
  · intro isIdle
    simp [State.leave, State.modify, isIdle]
  · refine .inr ⟨fun other membership => ?_, fun other membership => ?_⟩
    · rw [alone, List.mem_singleton] at membership
      subst membership
      exact ⟨executed.1, fun isExecuting => absurd isExecuting executed.2⟩
    · simp [Instance.release, sameHeld, alone] at membership
  · exact (sound.quiet.within within).leave ended phase

theorem Sound.notMem_erase (sound : Sound loose kind s) (step : Step) :
    step ∉ s.inFlight.erase step := by
  have once : s.inFlight.count step ≤ 1 := (sound.placed step).inFlight_le
  rw [← List.count_eq_zero, List.count_erase_self]
  omega

theorem Sound.pop (sound : Sound loose kind s) (found : s.inst step = some x)
    (nonempty : 0 < x.queued) :
    Sound loose kind (s.modify step fun x =>
      { x with queued := x.queued - 1, held := .executeBegin :: x.held }) := by
  have placed : Placed loose (kind step) (s.view step) (some x) := found ▸ sound.placed step
  have none := (placed.held_of_queued nonempty).1
  refine sound.modify found (fun placed => placed.pop nonempty) (.inr ⟨?_, ?_⟩)
  · simp [none]
  · simp [none, Phase.preparesIn]

theorem Sound.advance (sound : Sound loose kind s) (found : s.inst step = some x)
    (held : phase ∈ x.held)
    (advanced : s.advance step x phase = some next) : Sound loose kind next := by
  have placed : Placed loose (kind step) (s.view step) (some x) := found ▸ sound.placed step
  obtain ⟨-, alone, -⟩ := placed.held_cases held
  have ended := sound.notMem_erase step
  have counts : ∀ other, other ≠ step →
      (s.inFlight.erase step).count other = s.inFlight.count other :=
    fun other different => List.count_erase_of_ne different
  cases phase with
  | executeBegin =>
      cases advanced
      refine sound.modify found (fun _ => placed.begin held)
        (.goto .executing alone ?_ rfl (by simp) rfl)
      simp only
      split <;> rfl
  | executeEnd result =>
      simp only [State.advance] at advanced
      split at advanced
      · rename_i again
        cases advanced
        rw [modify_modify]
        simp only [Bool.and_eq_true, decide_eq_true_eq] at again
        exact sound.modify found (fun _ => placed.again held again.1.1 again.1.2 again.2)
          (.goto _ alone rfl rfl (by simp) rfl)
      · rename_i left
        cases advanced
        refine sound.leave found alone (by simp [Phase.preparesIn]) rfl
          (fun other => List.mem_of_mem_erase) counts ended fun _ => placed.leave held ?_
        simpa [and_assoc] using left
  | succeeded =>
      cases advanced
      refine sound.operate found (modify_eq found) (fun other different => ?_) (fun _ => ?_) rfl id
        (.goto _ alone rfl rfl (by simp) rfl)
        (sound.quiet.within fun other => List.mem_of_mem_erase) rfl
      · simp [State.view, State.memberships, State.modify, State.lockedPending, State.lockedSeq,
          counts other different]
      · have decremented := placed.decrement held
        rwa [← List.count_eq_zero.mpr ended] at decremented
  | testing =>
      simp only [State.advance] at advanced
      split at advanced
      · rename_i inPending
        cases advanced
        obtain ⟨decremented, tested⟩ := placed.test held inPending
        have left : Sound loose kind { (s.modify step id).leave step .testing with
            inFlight := s.inFlight } :=
          sound.leave found alone (by simp [Phase.preparesIn]) rfl (fun _ => id) (fun _ _ => rfl)
            (List.count_eq_zero.mp decremented) fun _ => tested
        rwa [modify_id] at left
      · rename_i notPending
        cases advanced
        exact sound.modify found (fun _ => placed.tested held (by simpa using notPending))
          (.goto _ alone rfl rfl (by simp) rfl)
  | deleting =>
      cases advanced
      obtain ⟨decremented, deleted⟩ := placed.delete held
      exact sound.leave found alone (by simp [Phase.preparesIn]) rfl (fun _ => id) (fun _ _ => rfl)
        (List.count_eq_zero.mp decremented) fun _ => deleted
  | prepareBegin => cases advanced
  | prescheduled => cases advanced
  | preparing => cases advanced
  | prepareEnd => cases advanced
  | executing => cases advanced

theorem pending_eq_some_iff : pending s step = some next ↔ s.mutexFree = true ∧
    { s.modify step Instance.setPending with pendingSteps := step :: s.pendingSteps } = next := by
  rw [pending, Option.ite_none_right_eq_some, Option.some.injEq]

theorem sequentialize_eq_some_iff : sequentialize s step = some next ↔ s.mutexFree = true ∧
    { s.modify step Instance.setSequentialize with seqSteps := step :: s.seqSteps } = next := by
  rw [sequentialize, Option.ite_none_right_eq_some, Option.some.injEq]

theorem taggedExecute_cases {rv result : StepReturnValue}
    (executed : taggedExecute s step rv = some (next, result)) :
    (rv = .success ∧ result = .success ∧ next = s.modify step (·.setStatus .done)) ∨
    (rv = .unfinished ∧ s.sequentialized step = false ∧ result = .unfinished ∧ next = s) ∨
    (rv = .needsExtraWake ∧ result = .unfinished ∧ pending s step = some next) ∨
    (rv ≠ .success ∧ rv ≠ .needsExtraWake ∧
      (rv = .needsSequentialize ∨ s.sequentialized step = true) ∧
      result = .needsSequentialize ∧ sequentialize s step = some next) := by
  cases rv with
  | success =>
      cases executed
      exact .inl ⟨rfl, rfl, rfl⟩
  | unfinished =>
      simp only [taggedExecute] at executed
      split at executed
      · rename_i isSeq
        obtain ⟨registered, found, isNext⟩ := Option.map_eq_some_iff.mp executed
        cases isNext
        exact .inr (.inr (.inr ⟨by simp, by simp, .inr isSeq, rfl, found⟩))
      · rename_i ordinary
        cases executed
        exact .inr (.inl ⟨rfl, by simpa using ordinary, rfl, rfl⟩)
  | needsExtraWake =>
      obtain ⟨registered, found, isNext⟩ := Option.map_eq_some_iff.mp executed
      cases isNext
      exact .inr (.inr (.inl ⟨rfl, rfl, found⟩))
  | needsSequentialize =>
      obtain ⟨registered, found, isNext⟩ := Option.map_eq_some_iff.mp executed
      cases isNext
      exact .inr (.inr (.inr ⟨by simp, by simp, .inl rfl, rfl, found⟩))
  | failure => cases executed

theorem Sound.unlocked (sound : Sound loose kind s) (counted : step ∈ s.inFlight)
    (elsewhere : (s.view step).running = false) :
    s.lockedSeq step = false ∧ (s.mutexFree = true →
      s.waiter = .idle ∨ ∃ i, s.waiter = .waiting i) := by
  have outside := sound.quiet.outside counted
  have quiet := sound.quiet
  obtain ⟨inst, present, waiting, thread, inFlight, pendingSteps, seqSteps, seq2, rescheduled,
    waiter⟩ := s
  cases waiter with
  | running i current =>
      have same : step = current := quiet.1 step counted
      simp [State.view, Waiter.runs, same] at elsewhere
  | lockPending => cases outside
  | lockSeq => cases outside
  | sequential => cases outside
  | idle => exact ⟨rfl, fun _ => .inl rfl⟩
  | waiting i => exact ⟨rfl, fun _ => .inr ⟨i, rfl⟩⟩
  | reschedule => exact ⟨rfl, fun free => by cases free⟩

theorem Sound.return_ {outcome : Outcome} (sound : Sound loose kind s)
    (found : s.inst step = some x)
    (held : .executing ∈ x.held) (inside : s.thread (some step) = .idle)
    (may : s.mayEnd step outcome = true) (returned : s.return_ kind step outcome = some next) :
    Sound loose kind next := by
  have placed : Placed loose (kind step) (s.view step) (some x) := found ▸ sound.placed step
  obtain ⟨-, listing, -, alone, executes, notDone, -⟩ := placed.of_held held (by simp)
  have moves : ∀ {y : Instance Step} {after : Phase Step},
      y.held = after :: x.held.erase .executing → after.preparesIn = none → MovesOn s step x y :=
    fun goes passes => .goto _ alone goes rfl (fun _ => inside) passes
  have counted : step ∈ s.inFlight := List.one_le_count_iff.mp (Nat.le_of_eq executes.inFlight.symm)
  cases outcome with
  | canceled =>
      simp only [State.return_] at returned
      split at returned
      · cases returned
      · rename_i plain
        cases returned
        exact sound.modify found (fun _ => placed.canceled held (by simpa using plain))
          (moves rfl rfl)
  | unprepared =>
      simp only [State.return_] at returned
      split at returned
      · cases returned
        exact sound.modify found (fun _ => placed.unfinished held fun _ => rfl) (moves rfl rfl)
      · cases returned
  | value rv =>
      simp only [State.return_] at returned
      split at returned
      · cases returned
      · rename_i onlyRanges
        obtain ⟨⟨tagged, result⟩, executed, ended⟩ := Option.bind_eq_some_iff.mp returned
        obtain ⟨y, isFound, rfl⟩ := Option.map_eq_some_iff.mp ended
        rcases taggedExecute_cases executed with ⟨rfl, rfl, rfl⟩ | ⟨rfl, ordinary, rfl, rfl⟩ |
          ⟨rfl, rfl, registered⟩ | ⟨-, -, asks, rfl, registered⟩
        · obtain rfl : x.setStatus .done = y :=
            Option.some.inj ((modify_same found).symm.trans isFound)
          rw [modify_modify]
          refine sound.modify found (fun _ => placed.succeed held ?_)
            (moves rfl ((apply_ite Phase.preparesIn ..).trans (ite_self none)))
          cases isRange : (kind step).isRange with
          | false => simp
          | true => cases isSeq : x.sequentialize <;> simp [rangeResult, Instance.setStatus, isSeq]
        · obtain rfl : x = y := Option.some.inj (found.symm.trans isFound)
          have isOrdinary : x.sequentialize = false := by
            simpa [State.sequentialized, found] using ordinary
          have result : (if (kind step).isRange then rangeResult x .unfinished else .unfinished) =
              StepReturnValue.unfinished := by
            simp [rangeResult, isOrdinary]
          rw [result]
          exact sound.modify found (fun _ => placed.unfinished held fun _ => rfl) (moves rfl rfl)
        · obtain ⟨free, rfl⟩ := pending_eq_some_iff.mp registered
          obtain rfl := Option.some.inj ((modify_same found).symm.trans isFound)
          have isRange : (kind step).isRange = true := by simpa using onlyRanges
          obtain ⟨notPending, ordinary⟩ : x.inPending = false ∧ x.sequentialize = false := by
            simpa [State.mayEnd, found] using may
          have elsewhere : (s.view step).running = false :=
            executes.counter.elim (·.2.1) fun isSeq => by simp [ordinary] at isSeq
          have waits := (sound.unlocked counted elsewhere).2 free
          have result : rangeResult x.setPending .unfinished = .unfinished := by
            simp [rangeResult, ordinary, Instance.setPending, Instance.setStatus]
          simp only [isRange, if_true, result, reduceCtorEq, if_false]
          have after : ∀ edit, (({ s.modify step Instance.setPending with
              pendingSteps := step :: s.pendingSteps } : State Step Item).modify step edit).inst =
              Function.update s.inst step (some (edit x.setPending)) := by
            simp [State.modify, found]
          refine sound.operate found (after _) (fun other different => ?_) (fun _ => ?_) rfl id
            (moves rfl rfl) (sound.quiet.pending waits) rfl
          · refine (view_pending waits other).trans ?_
            simp [Ne.symm different]
          · have woken := placed.wake held isRange notPending ordinary
            refine (congrArg (Placed _ _ · _) ?_).mp woken
            refine Eq.trans ?_ (view_pending waits step).symm
            simp
        · obtain ⟨free, rfl⟩ := sequentialize_eq_some_iff.mp registered
          obtain rfl := Option.some.inj ((modify_same found).symm.trans isFound)
          have outside := sound.quiet.outside counted
          have notPending : x.inPending = false := by
            rcases asks with rfl | isSeq
            · simpa [State.mayEnd, found] using may
            · cases isPending : x.inPending with
              | false => rfl
              | true =>
                  have ordinary := (listing.inPending isPending).2.1
                  simp [State.sequentialized, found, ordinary] at isSeq
          have result : (if (kind step).isRange then
              rangeResult x.setSequentialize .needsSequentialize else .needsSequentialize) =
              StepReturnValue.needsSequentialize := by
            simp [rangeResult, Instance.setSequentialize]
          simp only [result, reduceCtorEq, if_false]
          have after : ∀ edit, (({ s.modify step Instance.setSequentialize with
              seqSteps := step :: s.seqSteps } : State Step Item).modify step edit).inst =
              Function.update s.inst step (some (edit x.setSequentialize)) := by
            simp [State.modify, found]
          refine sound.operate found (after _) (fun other different => ?_) (fun _ => ?_) rfl id
            (moves rfl rfl) (sound.quiet.sequentialize outside) rfl
          · refine (view_seq outside other).trans ?_
            simp [Ne.symm different]
          · have registered := placed.register held notPending fun elsewhere =>
              (sound.unlocked counted elsewhere).1
            refine (congrArg (Placed _ _ · _) ?_).mp registered
            refine Eq.trans ?_ (view_seq outside step).symm
            simp

theorem Sound.counted (sound : Sound loose kind s) (executes : s.inPhase step .executing = true) :
    step ∈ s.inFlight := by
  obtain ⟨x, found, held⟩ := inPhase_iff.mp executes
  have placed : Placed loose (kind step) (s.view step) (some x) := found ▸ sound.placed step
  obtain ⟨-, -, -, -, executes, -⟩ := placed.of_held held (by simp)
  exact List.one_le_count_iff.mp (Nat.le_of_eq executes.inFlight.symm)

theorem Sound.mem_inFlight (sound : Sound loose kind s)
    (found : s.inst step = some x) (works : 0 < x.queued ∨ .executing ∈ x.held) :
    step ∈ s.inFlight := by
  rcases works with isQueued | executes
  · have placed : Placed loose (kind step) (s.view step) (some x) := found ▸ sound.placed step
    have scheduled := (placed.held_of_queued isQueued).2.2
    exact List.one_le_count_iff.mp (Nat.le_of_eq scheduled.inFlight.symm)
  · exact sound.counted (inPhase_iff.mpr ⟨x, found, executes⟩)

theorem Sound.busy (sound : Sound loose kind s) (busy : s.thread thread ≠ .idle) : Acts s thread :=
  sound.threads.active thread busy

theorem Sound.outside (sound : Sound loose kind s) (acts : Acts s thread) :
    s.waiter.inLists = false := by
  rcases acts with ⟨-, isIdle⟩ | ⟨step, -, executes⟩
  · rw [isIdle]
    rfl
  · exact sound.quiet.outside (sound.counted executes)

theorem runs_cases (runs : s.runs thread = true) :
    ∃ preparing, s.thread thread = ⟨preparing, none, none⟩ ∧
      ((preparing = [] ∧ ((thread = none ∧ s.waiter = .idle) ∨
        ∃ step, thread = some step ∧ s.inPhase step .executing = true)) ∨
      ∃ step rest, preparing = step :: rest ∧
        ∃ extra, s.inPhase step (.prescheduled thread extra) = true) := by
  unfold State.runs at runs
  split at runs
  · rename_i is
    refine ⟨[], is, .inl ⟨rfl, ?_⟩⟩
    cases thread with
    | none => exact .inl ⟨rfl, of_decide_eq_true runs⟩
    | some step => exact .inr ⟨step, rfl, runs⟩
  · rename_i step rest is
    refine ⟨step :: rest, is, .inr ⟨step, rest, rfl, ?_⟩⟩
    rcases Bool.or_eq_true_iff.mp runs with held | held
    · exact ⟨false, held⟩
    · exact ⟨true, held⟩
  · cases runs

theorem Sound.acts (sound : Sound loose kind s) (runs : s.runs thread = true) : Acts s thread := by
  obtain ⟨preparing, is, ⟨-, acts⟩ | ⟨step, rest, rfl, -⟩⟩ := runs_cases runs
  · exact acts
  · exact sound.threads.active thread (by simp [is, Thread.idle])

theorem Sound.callers (sound : Sound loose kind s) (runs : s.runs thread = true) :
    ∀ caller ∈ (s.thread thread).preparing, ∃ extra,
      s.inPhase caller (.prescheduled thread extra) = true := by
  obtain ⟨preparing, is, ⟨rfl, -⟩ | ⟨step, rest, rfl, extra, held⟩⟩ := runs_cases runs
  · simp [is]
  · have stacked := sound.threads.stacked thread
    rw [is] at stacked ⊢
    intro caller membership
    rcases List.mem_cons.mp membership with rfl | below
    · exact ⟨extra, held⟩
    · exact stacked.2.2 caller below

theorem Acts.caller {preparing : List Step} {caller : Step} (acts : Acts s thread)
    (callers : ∀ caller ∈ preparing, ∃ extra,
      s.inPhase caller (.prescheduled thread extra) = true)
    (isCaller : callerOf thread preparing = some caller) :
    ∃ y phase, s.inst caller = some y ∧ phase ∈ y.held ∧
      (phase = .executing ∨ ∃ extra, phase = .prescheduled thread extra) := by
  cases preparing with
  | nil =>
      obtain rfl : thread = some caller := isCaller
      rcases acts with ⟨isNone, -⟩ | ⟨step, isSome, executes⟩
      · cases isNone
      · obtain rfl : caller = step := Option.some.inj isSome
        obtain ⟨y, found, held⟩ := inPhase_iff.mp executes
        exact ⟨y, .executing, found, held, .inl rfl⟩
  | cons top rest =>
      obtain rfl : top = caller := Option.some.inj isCaller
      obtain ⟨extra, prescheduled⟩ := callers top List.mem_cons_self
      obtain ⟨y, found, held⟩ := inPhase_iff.mp prescheduled
      exact ⟨y, _, found, held, .inr ⟨extra, rfl⟩⟩

/-- Beside the wait thread, no sequentialized schedulable is in the hands of the user's
code. -/
theorem Sound.user (sound : Sound loose kind s) (parallel : s.waiter.isRunning = false)
    (found : s.inst step = some x) (held : phase ∈ x.held)
    (users : phase = .executing ∨ ∃ extra, phase = .prescheduled thread extra) :
    x.sequentialize = false := by
  have placed : Placed loose (kind step) (s.view step) (some x) := found ▸ sound.placed step
  rcases users with rfl | ⟨extra, rfl⟩
  · obtain ⟨-, -, -, -, executes, -⟩ := placed.of_held held (by simp)
    rcases executes.counter with ⟨ordinary, -⟩ | ⟨-, running, -⟩
    · exact ordinary
    · simp [notRunning_of_parallel parallel step] at running
  · obtain ⟨-, -, -, -, fresh, -⟩ := placed.of_held held (by simp)
    exact fresh.sequentialize

/-- What a step of `prepare` or of a put hands to `schedule` is not sequentialized, and the
wait thread runs no sequentialized step, or this is the one which schedules. -/
def Schedules (loose : Bool) (s : State Step Item) (curr : Option Step) (step : Step) : Prop :=
  s.sequentialized step = false ∧
    (s.waiter.isRunning = false ∨
      s.waiter.isRunning = true ∧ loose = true ∧ curr.any s.sequentialized = true)

theorem schedule_eq_pending {curr : Option Step} (different : curr ≠ some step)
    (isSequentialized : curr.any s.sequentialized = true) :
    schedule s step curr = pending s step := by
  rw [schedule, if_neg different, if_pos isSequentialized]

theorem schedule_eq_enqueue {curr : Option Step} (different : curr ≠ some step)
    (ordinary : ∀ caller, curr = some caller → s.sequentialized caller = false) :
    schedule s step curr = some (s.enqueue step) := by
  rw [schedule, if_neg different, if_neg]
  simpa [Option.any_eq_true] using ordinary

theorem Sound.create (sound : Sound loose kind s) (runs : s.runs thread = true)
    (fresh : s.inst step = none) :
    Sound loose kind (({ s with
        inst := Function.update s.inst step (some (.create (.prepareBegin thread))) } :
      State Step Item).setThread thread
        { s.thread thread with preparing := step :: (s.thread thread).preparing }) := by
  have unknown : ∀ phase, s.inPhase step phase = false := by simp [State.inPhase, fresh]
  have acts := sound.acts runs
  obtain ⟨preparing, is, -⟩ := runs_cases runs
  refine sound.call thread rfl (fun _ _ => rfl) ?_ (fun other different => ?_) id ?_ ?_
    ⟨?_, ?_, ?_, ?_, ?_⟩ sound.quiet rfl
  · have absent := sound.placed step
    rw [fresh] at absent
    exact absent.create thread
  · simp [State.setThread, different]
  · intro _ executes
    simp [unknown] at executes
  · intro phase other different inOther
    refine iff_of_false (fun membership => ?_) (by simp [unknown])
    rw [show phase = .prepareBegin thread by simpa [Instance.create] using membership] at inOther
    exact different (Option.some.inj inOther.symm)
  · intro _ _
    rcases acts with idle | ⟨runner, isSome, executes⟩
    · exact .inl idle
    · refine .inr ⟨runner, isSome, ?_⟩
      have different : runner ≠ step := fun isStep => by simp [isStep, unknown] at executes
      exact (inPhase_other rfl different).trans executes
  · have stacked := sound.threads.stacked thread
    have callers := sound.callers runs
    simp only [State.setThread, Function.update_self]
    have notMem : ∀ other ∈ (s.thread thread).preparing, other ≠ step := by
      rintro other membership rfl
      obtain ⟨phase, -, held⟩ := stacked.mem membership
      simp [unknown] at held
    refine ⟨?_, ⟨.prepareBegin thread, rfl, ?_⟩, fun caller membership => ?_⟩
    · refine List.nodup_cons.mpr ⟨fun membership => notMem _ membership rfl, ?_⟩
      cases isStack : (s.thread thread).preparing with
      | nil => exact List.nodup_nil
      | cons top rest =>
          rw [isStack] at stacked
          exact stacked.1
    · exact (inPhase_self rfl).mpr (by simp [Instance.create])
    · obtain ⟨extra, held⟩ := callers caller membership
      exact ⟨extra, (inPhase_other rfl (notMem caller membership)).trans held⟩
  · simp [State.setThread, is]
  · simp [State.setThread, is]
  · intro other phase inThread held
    simp only [State.setThread, Function.update_self]
    by_cases isStep : other = step
    · simp [isStep]
    · exact List.mem_cons_of_mem _ (sound.threads.prepares thread other phase inThread
        ((inPhase_other rfl isStep).symm.trans held))

theorem Sound.prepareBegin (sound : Sound loose kind s)
    (is : s.thread thread = ⟨step :: rest, none, none⟩) (found : s.inst step = some x)
    (held : .prepareBegin thread ∈ x.held)
    (prepared : s.prepare kind thread step rest x = some next) : Sound loose kind next := by
  rw [State.prepare, if_pos (List.contains_iff_mem.mpr held)] at prepared
  split at prepared
  · rename_i sequentialize preschedule isPlain
    split at prepared
    · rename_i preschedules
      cases prepared
      have isPrescheduled : kind step = .step false true := by
        simp only [Bool.and_eq_true, Bool.not_eq_true'] at preschedules
        rw [isPlain, preschedules.1, preschedules.2]
      generalize ((callerOf thread rest).any fun parent =>
        (s.inst parent).any fun y => decide (y.sched.status = .unprepared)) = extra
      refine sound.goOn (.prescheduled thread extra) is found held rfl ?_ rfl fun placed =>
        placed.preschedule held isPrescheduled extra
      cases extra <;> rfl
    · cases prepared
      exact sound.goOn (.preparing thread) is found held rfl rfl rfl fun placed =>
        placed.prepare held false
  · cases prepared
    exact sound.goOn (.preparing thread) is found held rfl rfl rfl fun placed =>
        placed.prepare held true

theorem Sound.prepared (sound : Sound loose kind s)
    (is : s.thread thread = ⟨step :: rest, none, none⟩) (found : s.inst step = some x)
    (held : .preparing thread ∈ x.held) :
    Sound loose kind (s.modify step fun x =>
      (x.setStatus .prepared).goto (.preparing thread) (.prepareEnd thread)) :=
  sound.goOn (.prepareEnd thread) is found held rfl rfl rfl fun placed => placed.prepared held

theorem Sound.preExecuted {extra : Bool} {outcome : Outcome} (sound : Sound loose kind s)
    (is : s.thread thread = ⟨step :: rest, none, none⟩) (found : s.inst step = some x)
    (held : .prescheduled thread extra ∈ x.held)
    (executed : s.preExecuted thread step rest extra outcome = some next) :
    Sound loose kind next := by
  have placed : Placed loose (kind step) (s.view step) (some x) := found ▸ sound.placed step
  obtain ⟨-, listing, -, alone, fresh, -⟩ := placed.of_held held (by simp)
  have acts : Acts s thread := sound.busy (by simp [is, Thread.idle])
  have outside := sound.outside acts
  have succeeds :
      Sound loose kind ((s.modify step fun x =>
        ((x.setStatus .done).release (.prescheduled thread extra)).delete).setThread thread
          { s.thread thread with preparing := rest }) := by
    refine sound.return_call none is found alone rfl (modify_eq found) ?_ (fun _ _ => rfl)
      (placed.presucceed held) ?_ (fun _ impossible => by cases impossible) id sound.quiet
      rfl
    · simp [Instance.delete, Instance.release, Instance.setStatus, alone]
    · simp [State.setThread, State.modify, is]
  have goesOn : Sound loose kind (s.modify step fun x =>
      ((if extra then x.unsuspend else x).setStatus .prepared).goto
        (.prescheduled thread extra) (.prepareEnd thread)) := by
    refine sound.goOn (.prepareEnd thread) is found held rfl ?_ rfl fun placed =>
      placed.prescheduled held
    cases extra <;> rfl
  have registers : ∀ registered, sequentialize s step = some registered →
      Sound loose kind (registered.modify step fun x =>
        ((if extra then x.unsuspend else x).setStatus .prepared).goto
          (.prescheduled thread extra) (.prepareEnd thread)) := by
    intro registered isNext
    obtain ⟨-, rfl⟩ := sequentialize_eq_some_iff.mp isNext
    have notListed : (s.view step).seq = 0 := listing.unlisted fresh.sequentialize
    have after : ∀ edit, (({ s.modify step Instance.setSequentialize with
        seqSteps := step :: s.seqSteps } : State Step Item).modify step edit).inst =
        Function.update s.inst step (some (edit x.setSequentialize)) := by
      simp [State.modify, found]
    refine sound.proceed (.prepareEnd thread) is found alone rfl (after _) ?_ rfl
      (fun other different => ?_) ?_ rfl id (sound.quiet.sequentialize outside) rfl
    · cases extra <;> simp [Instance.goto, Instance.setStatus, Instance.unsuspend,
        Instance.setSequentialize, alone]
    · refine (view_seq outside other).trans ?_
      simp [Ne.symm different]
    · have preregistered := placed.preregister held (unlocked_of_outside outside notListed)
      refine (congrArg (Placed _ _ · _) ?_).mp preregistered
      refine Eq.trans ?_ (view_seq outside step).symm
      simp
  cases outcome with
  | canceled =>
      cases executed
      exact succeeds
  | unprepared => cases executed
  | value rv =>
      cases rv with
      | success =>
          cases executed
          exact succeeds
      | needsExtraWake => cases executed
      | failure => cases executed
      | unfinished =>
          simp only [State.preExecuted, taggedExecute, State.sequentialized, found, Option.any_some,
            fresh.sequentialize] at executed
          cases executed
          exact goesOn
      | needsSequentialize =>
          obtain ⟨⟨registered, result⟩, tagged, rfl⟩ := Option.map_eq_some_iff.mp executed
          obtain ⟨next, isNext, isTagged⟩ := Option.map_eq_some_iff.mp tagged
          cases isTagged
          exact registers _ isNext

theorem Sound.endScheduled (sound : Sound loose kind s)
    (is : s.thread thread = ⟨step :: rest, none, none⟩) (found : s.inst step = some x)
    (held : .prepareEnd thread ∈ x.held)
    (last : (kind step).isRange = true ∨ x.sched.nSuspenders = 1)
    (schedules : Schedules loose s (callerOf thread rest) step)
    (scheduled : schedule (((s.modify step (·.release (.prepareEnd thread))).setThread thread
      { s.thread thread with preparing := rest }).modify step Instance.unsuspend) step
        (callerOf thread rest) = some next) : Sound loose kind next := by
  obtain ⟨isOrdinary, mode⟩ := schedules
  have ordinary : x.sequentialize = false := by simpa [State.sequentialized, found] using isOrdinary
  have placed : Placed loose (kind step) (s.view step) (some x) := found ▸ sound.placed step
  have alone := (placed.held_cases held).2.1
  have acts : Acts s thread := sound.busy (by simp [is, Thread.idle])
  have outside := sound.outside acts
  have stacked := sound.threads.stacked thread
  rw [is] at stacked
  have caller_ne : callerOf thread rest ≠ some step := by
    intro isCaller
    obtain ⟨y, phase, isFound, membership, users⟩ := acts.caller stacked.2.2 isCaller
    obtain rfl : x = y := Option.some.inj (found.symm.trans isFound)
    rw [alone, List.mem_singleton] at membership
    rcases users with rfl | ⟨extra, rfl⟩ <;> cases membership
  have same : ∀ caller, callerOf thread rest = some caller →
      (((s.modify step (·.release (.prepareEnd thread))).setThread thread
        { s.thread thread with preparing := rest }).modify step
          Instance.unsuspend).sequentialized caller = s.sequentialized caller := by
    intro caller isCaller
    have different : caller ≠ step := fun isStep => caller_ne (isStep ▸ isCaller)
    simp [State.sequentialized, State.modify, State.setThread, different]
  rcases mode with parallel | ⟨running, rfl, isSequentialized⟩
  · rw [schedule_eq_enqueue caller_ne] at scheduled
    · cases scheduled
      have after : ((((s.modify step (·.release (.prepareEnd thread))).setThread thread
          { s.thread thread with preparing := rest }).modify step Instance.unsuspend).enqueue
            step).inst = Function.update s.inst step (some
              { (x.release (.prepareEnd thread)).unsuspend with queued := x.queued + 1 }) := by
        simp [State.enqueue, State.modify, State.setThread, found, Instance.unsuspend,
          Instance.release]
      refine sound.return_call none is found alone rfl after ?_ (fun other different => ?_) ?_ ?_
        (fun _ impossible => by cases impossible) id (sound.quiet.enqueue outside parallel) rfl
      · simp [Instance.unsuspend, Instance.release, alone]
      · simp [view_enqueue, Ne.symm different]
      · have scheduled := placed.endScheduled held last ordinary
          (notRunning_of_parallel parallel step) unlocked_of_unlisted
        simpa [view_enqueue] using scheduled
      · simp [State.enqueue, State.modify, State.setThread, is]
    · intro caller isCaller
      obtain ⟨y, phase, isFound, membership, users⟩ := acts.caller stacked.2.2 isCaller
      rw [same caller isCaller]
      simp [State.sequentialized, isFound, sound.user parallel isFound membership users]
  · rw [schedule_eq_pending caller_ne] at scheduled
    · obtain ⟨-, rfl⟩ := pending_eq_some_iff.mp scheduled
      have after : ((((s.modify step (·.release (.prepareEnd thread))).setThread thread
          { s.thread thread with preparing := rest }).modify step Instance.unsuspend).modify
            step Instance.setPending).inst = Function.update s.inst step
              (some (x.release (.prepareEnd thread)).unsuspend.setPending) := by
        simp [State.modify, State.setThread, found]
      refine sound.return_call none is found alone rfl after ?_ (fun other different => ?_) ?_ ?_
        (fun _ impossible => by cases impossible) id (sound.quiet.postpone running) rfl
      · simp [Instance.setPending, Instance.setStatus, Instance.unsuspend, Instance.release, alone]
      · refine (view_postpone running step other).trans ?_
        simp [Ne.symm different]
      · have postponed := placed.endPostponed held last ordinary
        refine (congrArg (Placed _ _ · _) ?_).mp postponed
        refine Eq.trans ?_ (view_postpone running step step).symm
        simp
      · simp [State.modify, State.setThread, is]
    · obtain ⟨caller, isCaller, isSeq⟩ := Option.any_eq_true .. |>.mp isSequentialized
      rw [isCaller, Option.any_some, same caller isCaller]
      exact isSeq

/-- `prepare` returns, and leaves the step instance to its suspend groups or to
`m_seqSteps`. -/
theorem Sound.prepareEnd [DecidableEq Item] (sound : Sound loose kind s)
    (is : s.thread thread = ⟨step :: rest, none, none⟩) (found : s.inst step = some x)
    (held : .prepareEnd thread ∈ x.held)
    (schedules : ∀ scheduled, s.schedules kind (.prepare thread) = some scheduled →
      Schedules loose s (callerOf thread rest) scheduled)
    (prepared : s.prepare kind thread step rest x = some next) : Sound loose kind next := by
  have placed : Placed loose (kind step) (s.view step) (some x) := found ▸ sound.placed step
  have alone := (placed.held_cases held).2.1
  have acts : Acts s thread := sound.busy (by simp [is, Thread.idle])
  have outside := sound.outside acts
  have isHeld : s.inPhase step (.prepareEnd thread) = true := inPhase_iff.mpr ⟨x, found, held⟩
  rw [State.prepare, if_neg (by simp [alone]), if_pos (List.contains_iff_mem.mpr held)] at prepared
  simp only [State.schedules, is, isHeld, Bool.true_and] at schedules
  cases isKind : kind step with
  | range allocates =>
      simp only [isKind] at prepared schedules
      exact sound.endScheduled is found held (.inl (by rw [isKind]; rfl)) (schedules step rfl)
        prepared
  | step sequentialize preschedule =>
      cases sequentialize with
      | true =>
          simp only [isKind] at prepared
          obtain ⟨-, rfl⟩ := sequentialize_eq_some_iff.mp prepared
          have after : (((s.modify step (·.release (.prepareEnd thread))).setThread thread
              { s.thread thread with preparing := rest }).modify step
                Instance.setSequentialize).inst = Function.update s.inst step
                  (some (x.release (.prepareEnd thread)).setSequentialize) := by
            simp [State.modify, State.setThread, found]
          refine sound.return_call none is found alone rfl after ?_
            (fun other different => ?_) ?_ ?_ (fun _ impossible => by cases impossible) id
            (sound.quiet.sequentialize outside) rfl
          · simp [Instance.setSequentialize, Instance.release, alone]
          · refine (view_seq outside other).trans ?_
            simp [Ne.symm different]
          · have registered := placed.endSequentialized held isKind
            refine (congrArg (Placed _ _ · _) ?_).mp registered
            refine Eq.trans ?_ (view_seq outside step).symm
            simp
          · simp [State.modify, State.setThread, is]
      | false =>
          simp only [isKind] at prepared schedules
          split at prepared
          · rename_i last
            have isScheduled := schedules step (by
              simp [State.lastSuspend, found, unsuspend_last.mp last])
            exact sound.endScheduled is found held (.inr (unsuspend_last.mp last)) isScheduled
              prepared
          · rename_i more
            cases prepared
            have after : ((s.modify step (·.release (.prepareEnd thread))).modify step
                Instance.unsuspend).inst = Function.update s.inst step
                  (some (x.release (.prepareEnd thread)).unsuspend) := by
              simp [State.modify, found]
            refine sound.return_call (some step) is found alone rfl after ?_ (fun _ _ => rfl) ?_ ?_
              ?_ id sound.quiet rfl
            · simp [Instance.unsuspend, Instance.release, alone]
            · exact placed.endSuspended held (fun last => more (unsuspend_last.mpr last))
                unlocked_of_unlisted
            · simp [State.modify, State.setThread, is]
            · intro other isOther
              obtain rfl := Option.some.inj isOther
              rw [isKind]
              rfl

theorem Sound.test {preparing : List Step} (sound : Sound loose kind s)
    (is : s.thread thread = ⟨preparing, some step, none⟩) :
    Sound loose kind ((if (s.inst step).any fun x => decide (x.sched.status = .done) then
      s.modify step Instance.delete else s).setThread thread ⟨preparing, none, none⟩) := by
  have plain := sound.threads.tested thread step (by rw [is])
  have returns : ∀ {tested : State Step Item}, Sound loose kind tested →
      tested.thread = s.thread →
        Sound loose kind (tested.setThread thread ⟨preparing, none, none⟩) := by
    intro tested isSound same
    refine isSound.still thread rfl (fun _ => rfl) (fun other different => ?_) id ?_ ?_ ?_ ?_
      isSound.quiet rfl
    · simp [State.setThread, different]
    · simp [same, is, Thread.idle]
    · simp [State.setThread, same, is]
    · simp [State.setThread]
    · simp [State.setThread]
  split
  · rename_i done
    obtain ⟨x, found, isDone⟩ := Option.any_eq_true .. |>.mp done
    have isDone := of_decide_eq_true isDone
    exact returns (sound.modify found (fun placed => placed.testDone plain isDone) (.inl rfl)) rfl
  · exact returns sound rfl

/-- A schedulable in the hands of the user's code, or of `prepare`, joins a suspend
group. -/
theorem Sound.suspend {item : Item} (sound : Sound loose kind s) (found : s.inst step = some x)
    (held : phase ∈ x.held) (suspends : phase = .executing ∧ 0 < x.sched.nSuspenders ∨
      (∃ thread extra, phase = .prescheduled thread extra) ∨
      ∃ thread, phase = .preparing thread ∧ (kind step).isRange = false) :
    Sound loose kind (suspend s (some step) item) := by
  refine sound.operate found (modify_eq found) (fun other different => ?_) (fun placed => ?_) rfl id
    (.inl rfl) sound.quiet rfl
  · simp [State.view, State.memberships, WaitAll.suspend, State.modify, State.lockedPending,
      State.lockedSeq, Ne.symm different]
  · have joined := placed.suspend held suspends
    refine (congrArg (Placed _ _ · _) ?_).mp joined
    simp [State.view, State.memberships, WaitAll.suspend, State.modify, State.lockedPending,
      State.lockedSeq]

theorem Sound.suspendEnv {item : Item} (sound : Sound loose kind s) :
    Sound loose kind (WaitAll.suspend s none item) := by
  refine sound.still none rfl (fun step => ?_) (fun _ _ => rfl) id (fun was busy => absurd was busy)
    rfl (sound.threads.tested none) (sound.threads.resuming none) sound.quiet rfl
  simp [State.view, State.memberships, WaitAll.suspend, State.lockedPending, State.lockedSeq]

theorem Sound.guarded (sound : Sound false kind s) (runs : s.runs thread = true) :
    s.guarded thread = true := by
  cases isCurrent : s.current thread with
  | none => simp [State.guarded, isCurrent]
  | some current =>
      obtain ⟨y, phase, found, held, users⟩ :=
        (sound.acts runs).caller (sound.callers runs) isCurrent
      have placed : Placed false (kind current) (s.view current) (some y) :=
        found ▸ sound.placed current
      have positive : 0 < y.sched.nSuspenders := by
        rcases users with rfl | ⟨extra, rfl⟩
        · obtain ⟨-, -, -, -, executes, -⟩ := placed.of_held held (by simp)
          have atLeast := executes.guarded
          omega
        · obtain ⟨-, -, -, -, -, -, counter⟩ := placed.of_held held (by simp)
          split at counter <;> omega
      simp [State.guarded, isCurrent, found, positive]

theorem Sound.get {item : Item} (sound : Sound loose kind s) (runs : s.runs thread = true)
    (guarded : s.guarded thread = true) :
    Sound loose kind (WaitAll.suspend s (s.current thread) item) := by
  cases isCurrent : s.current thread with
  | none => exact sound.suspendEnv
  | some current =>
      obtain ⟨y, phase, found, held, users⟩ :=
        (sound.acts runs).caller (sound.callers runs) isCurrent
      refine sound.suspend found held ?_
      rcases users with rfl | ⟨extra, rfl⟩
      · exact .inl ⟨rfl, by simpa [State.guarded, isCurrent, found] using guarded⟩
      · exact .inr (.inl ⟨thread, extra, rfl⟩)

theorem Sound.put {present : Item → Bool} {item : Item} (sound : Sound loose kind s)
    (runs : s.runs thread = true) :
    Sound loose kind ({ s with present := present }.setThread thread
      { s.thread thread with resuming := some item }) := by
  refine sound.still thread rfl (fun _ => rfl) (fun other different => ?_) id ?_ ?_ ?_ ?_
    sound.quiet rfl
  · simp [State.setThread, different]
  · exact fun _ _ => sound.acts runs
  · simp [State.setThread]
  · obtain ⟨preparing, is, -⟩ := runs_cases runs
    simp [State.setThread, is]
  · exact fun _ _ => sound.callers runs

theorem Sound.resume [DecidableEq Item] (sound : Sound loose kind s)
    (schedules : ∀ scheduled, s.schedules kind (.resume thread) = some scheduled →
      Schedules loose s (s.current thread) scheduled)
    (resumed : WaitAll.step kind s (.resume thread) = some next) : Sound loose kind next := by
  obtain ⟨item, isResuming, resumes⟩ := Option.bind_eq_some_iff.mp resumed
  have acts : Acts s thread := sound.busy fun isIdle => by
    simp [isIdle, Thread.idle] at isResuming
  have outside := sound.outside acts
  have isActive : s.thread thread ≠ .idle := fun isIdle => by
    simp [isIdle, Thread.idle] at isResuming
  simp only [State.schedules, isResuming, Option.bind_some] at schedules
  cases isEntry : s.waiting.find? fun entry => entry.1 = item with
  | none =>
      rw [isEntry] at resumes
      cases resumes
      refine sound.still thread rfl (fun _ => rfl) (fun other different => ?_) id
        (fun was => absurd was isActive) ?_ ?_ ?_ sound.quiet rfl
      · simp [State.setThread, different]
      · simp [State.setThread]
      · simpa [State.setThread] using sound.threads.tested thread
      · simp [State.setThread]
  | some entry =>
      have member := List.mem_of_find?_eq_some isEntry
      have isItem : entry.1 = item := by simpa using List.find?_some isEntry
      rw [isEntry] at resumes schedules
      obtain ⟨item, joined⟩ := entry
      obtain rfl : item = _ := isItem
      cases joined with
      | none =>
          cases resumes
          refine sound.still thread rfl (fun other => ?_) (fun _ _ => rfl) id
            (fun was => absurd was isActive) rfl (sound.threads.tested thread)
            (sound.threads.resuming thread) sound.quiet rfl
          simp [view_erase member]
      | some step =>
          obtain ⟨x, found, ends⟩ := Option.bind_eq_some_iff.mp resumes
          have isMember : 0 < (s.view step).memberships :=
            List.countP_pos_iff.mpr ⟨_, member, by simp⟩
          have views : ∀ other, ({ s.modify step Instance.unsuspend with
              waiting := s.waiting.erase (item, some step) } : State Step Item).view other =
              { s.view other with memberships :=
                  (s.view other).memberships - if some step = some other then 1 else 0 } :=
            view_erase member
          simp only at ends
          split at ends
          · rename_i last
            have isLast := unsuspend_last.mp last
            obtain ⟨isOrdinary, mode⟩ := schedules step (by
              simp [State.lastSuspend, found, isLast])
            have ordinary : x.sequentialize = false := by
              simpa [State.sequentialized, found] using isOrdinary
            have placed : Placed loose (kind step) (s.view step) (some x) :=
              found ▸ sound.placed step
            obtain ⟨-, -, -, notHeld, -, -, -, -, unlocked⟩ :=
              placed.waits isMember isLast ordinary
            have caller_ne : s.current thread ≠ some step := by
              intro isCaller
              obtain ⟨y, phase, isFound, held, -⟩ :=
                acts.caller (sound.threads.resuming thread item isResuming) isCaller
              obtain rfl : x = y := Option.some.inj (found.symm.trans isFound)
              simp [notHeld] at held
            have same : ∀ caller, s.current thread = some caller →
                ({ s.modify step Instance.unsuspend with
                  waiting := s.waiting.erase (item, some step) } : State Step Item).sequentialized
                    caller = s.sequentialized caller := by
              intro caller isCaller
              have different : caller ≠ step := fun isStep => caller_ne (isStep ▸ isCaller)
              simp [State.sequentialized, State.modify, different]
            rcases mode with parallel | ⟨running, rfl, isSequentialized⟩
            · rw [schedule_eq_enqueue caller_ne] at ends
              · cases ends
                have after : (State.enqueue { s.modify step Instance.unsuspend with
                    waiting := s.waiting.erase (item, some step) } step).inst =
                    Function.update s.inst step
                      (some { x.unsuspend with queued := x.queued + 1 }) := by
                  simp [State.enqueue, State.modify, found, Instance.unsuspend]
                refine sound.operate found after (fun other different => ?_) (fun placed => ?_) rfl
                  id (.inl rfl) (sound.quiet.enqueue outside parallel) rfl
                · simp [view_enqueue, views, Ne.symm different]
                · have resumed := placed.resume isMember isLast ordinary
                    (notRunning_of_parallel parallel step)
                  simpa [view_enqueue, views] using resumed
              · intro caller isCaller
                obtain ⟨y, phase, isFound, held, users⟩ :=
                  acts.caller (sound.threads.resuming thread item isResuming) isCaller
                rw [same caller isCaller]
                simp [State.sequentialized, isFound, sound.user parallel isFound held users]
            · rw [schedule_eq_pending caller_ne] at ends
              · obtain ⟨-, rfl⟩ := pending_eq_some_iff.mp ends
                have after : (({ s.modify step Instance.unsuspend with
                    waiting := s.waiting.erase (item, some step) } : State Step Item).modify step
                      Instance.setPending).inst =
                    Function.update s.inst step (some x.unsuspend.setPending) := by
                  simp [State.modify, found]
                have postponed := view_postpone
                  (s := { s with waiting := s.waiting.erase (item, some step) }) running step
                refine sound.operate found after (fun other different => ?_) (fun placed => ?_) rfl
                  id (.inl rfl) (sound.quiet.postpone running) rfl
                · refine (postponed other).trans ?_
                  simp [view_erase member, Ne.symm different]
                · have registered := placed.postpone isMember isLast ordinary
                    (unlisted_of_unlocked running unlocked)
                  refine (congrArg (Placed _ _ · _) ?_).mp registered
                  refine Eq.trans ?_ (postponed step).symm
                  simp [view_erase member]
              · obtain ⟨caller, isCaller, isSeq⟩ := Option.any_eq_true .. |>.mp isSequentialized
                rw [isCaller, Option.any_some, same caller isCaller]
                exact isSeq
          · rename_i more
            cases ends
            refine sound.operate found (modify_eq found) (fun other different => ?_)
              (fun placed => ?_) rfl id (.inl rfl) sound.quiet rfl
            · simp [views, Ne.symm different]
            · have unsuspended := placed.unsuspend isMember fun last =>
                more (unsuspend_last.mpr last)
              simpa [views] using unsuspended

theorem Sound.unprepared (sound : Sound loose kind s) (inLists : s.waiter.inLists = true)
    (found : s.inst step = some x) : ∀ phase ∈ x.held, phase.preparesIn = none := by
  intro phase held
  cases isIn : phase.preparesIn with
  | none => rfl
  | some thread =>
      have member := sound.threads.prepares thread step phase isIn
        (inPhase_iff.mpr ⟨x, found, held⟩)
      have acts : Acts s thread := sound.busy fun isIdle => by
        simp [isIdle, Thread.idle] at member
      simp [sound.outside acts] at inLists

theorem Sound.listed (sound : Sound loose kind s) (step : Step)
    (listed : 0 < (s.view step).pending ∨ 0 < (s.view step).seq) :
    ∃ x, s.inst step = some x := by
  have placed := sound.placed step
  cases isRecord : s.inst step with
  | some x => exact ⟨x, rfl⟩
  | none =>
      rw [isRecord] at placed
      cases placed
      omega

/-- The calls do not depend on where the wait thread stands, once it has left the thread of
the environment. -/
theorem Threads.wait (threads : Threads kind s) (waiter : Waiter Step) (rescheduled : List Step)
    (free : s.waiter = .idle → s.thread none = .idle) :
    Threads kind { s with waiter := waiter, rescheduled := rescheduled } where
  active thread busy := by
    rcases threads.active thread busy with ⟨rfl, isIdle⟩ | executes
    · exact absurd (free isIdle) busy
    · exact .inr executes
  stacked := threads.stacked
  tested := threads.tested
  resuming := threads.resuming
  prepares := threads.prepares

theorem Sound.pending_nodup (sound : Sound loose kind s) : s.pendingSteps.Nodup :=
  List.nodup_iff_count_le_one.mpr fun step => (sound.placed step).lists_le.1

theorem Sound.seq_nodup (sound : Sound loose kind s) : (s.seqSteps ++ s.seq2).Nodup :=
  List.nodup_iff_count_le_one.mpr fun step => (sound.placed step).lists_le.2

theorem Sound.turn (sound : Sound loose kind s) (waiter : Waiter Step)
    (free : s.waiter = .idle → s.thread none = .idle)
    (views : ∀ step, ({ s with waiter := waiter } : State Step Item).view step = s.view step)
    (quiet : Quiet { s with waiter := waiter }) : Sound loose kind { s with waiter := waiter } where
  placed step := by
    rw [views]
    exact sound.placed step
  threads := sound.threads.wait waiter s.rescheduled free
  quiet := quiet
  rescheduled := sound.rescheduled

theorem Sound.wait (sound : Sound loose kind s) (isIdle : s.waiter = .idle)
    (free : s.thread none = .idle) : Sound loose kind { s with waiter := .waiting 0 } := by
  have quiet := sound.quiet
  rw [Quiet, isIdle] at quiet
  refine sound.turn (.waiting 0) (fun _ => free) (fun step => ?_) quiet
  simp [State.view, State.memberships, State.lockedPending, State.lockedSeq, Waiter.runs, isIdle]

theorem Sound.startPass {i : Nat} (sound : Sound loose kind s) (waits : s.waiter = .waiting i)
    (workersIdle : s.inFlight = []) :
    Sound loose kind { s with
      waiter := .lockPending i s.pendingSteps.reverse
      rescheduled := [] } := by
  have quiet := sound.quiet
  rw [Quiet, waits] at quiet
  have threads := sound.threads.wait (.lockPending i s.pendingSteps.reverse) [] fun isIdle => by
    simp [waits] at isIdle
  refine ⟨fun step => ?_, threads, ?_, List.nodup_nil⟩
  · have same : ({ s with waiter := .lockPending i s.pendingSteps.reverse, rescheduled := [] } :
        State Step Item).view step = s.view step := by
      simp [State.view, State.memberships, State.lockedPending, State.lockedSeq, Waiter.runs,
        waits]
    rw [same]
    exact sound.placed step
  · exact ⟨workersIdle, quiet, rfl, List.nodup_reverse.mpr sound.pending_nodup, by simp⟩

theorem Sound.startSeq {i : Nat} (sound : Sound loose kind s)
    (locks : s.waiter = .lockPending i []) :
    Sound loose kind { s with waiter := .lockSeq i s.seqSteps.reverse } := by
  have quiet := sound.quiet
  rw [Quiet, locks] at quiet
  obtain ⟨workersIdle, empty, fresh, -⟩ := quiet
  have nodup := sound.seq_nodup
  rw [empty, List.append_nil] at nodup
  refine sound.turn _ (fun isIdle => by simp [locks] at isIdle) (fun step => ?_)
    ⟨workersIdle, empty, fresh, List.nodup_reverse.mpr nodup, by simp⟩
  simp [State.view, State.memberships, State.lockedPending, State.lockedSeq, Waiter.runs, locks]

theorem Sound.copySeq {i : Nat} (sound : Sound loose kind s) (locks : s.waiter = .lockSeq i []) :
    Sound loose kind { s with seq2 := s.seqSteps, seqSteps := [], waiter := .sequential i } := by
  have quiet := sound.quiet
  rw [Quiet, locks] at quiet
  obtain ⟨workersIdle, empty, fresh, -⟩ := quiet
  have threads := sound.threads.wait (.sequential i) s.rescheduled fun isIdle => by
    simp [locks] at isIdle
  refine ⟨fun step => ?_, { threads with }, ⟨workersIdle, fresh⟩, sound.rescheduled⟩
  have same : ({ s with seq2 := s.seqSteps, seqSteps := [], waiter := .sequential i } :
      State Step Item).view step = s.view step := by
    simp [State.view, State.memberships, State.lockedPending, State.lockedSeq, Waiter.runs,
      locks, empty]
  rw [same]
  exact sound.placed step

theorem Sound.startReschedule {i : Nat} (sound : Sound loose kind s)
    (served : s.waiter = .sequential i)
    (empty : s.seq2 = []) (currPend : Nat) :
    Sound loose kind { s with waiter := .reschedule i currPend } := by
  have quiet := sound.quiet
  rw [Quiet, served] at quiet
  refine sound.turn _ (fun isIdle => by simp [served] at isIdle) (fun step => ?_)
    ⟨empty, by simp [quiet.2]⟩
  simp [State.view, State.memberships, State.lockedPending, State.lockedSeq, Waiter.runs, served,
    empty]

theorem Sound.endPass {i currPend : Nat} {waiter : Waiter Step} (sound : Sound loose kind s)
    (served : s.waiter = .reschedule i currPend) (empty : s.pendingSteps = [])
    (ends : waiter = .idle ∨ waiter = .waiting (i + 1)) :
    Sound loose kind { s with waiter := waiter } := by
  have quiet := sound.quiet
  rw [Quiet, served] at quiet
  refine sound.turn _ (fun isIdle => by simp [served] at isIdle) (fun step => ?_) ?_
  · rcases ends with rfl | rfl <;>
      simp [State.view, State.memberships, State.lockedPending, State.lockedSeq, Waiter.runs,
        served, empty]
  · rcases ends with rfl | rfl <;> exact quiet.1

theorem Sound.lockPending {i : Nat} (sound : Sound loose kind s)
    (locks : s.waiter = .lockPending i (step :: rest)) :
    Sound loose kind { s.modify step fun x => if x.sched.status = .done then x else x.suspend with
      waiter := .lockPending i rest } := by
  have quiet := sound.quiet
  rw [Quiet, locks] at quiet
  obtain ⟨workersIdle, empty, fresh, nodup, within⟩ := quiet
  have member : step ∈ s.pendingSteps := within step List.mem_cons_self
  have listed : 0 < (s.view step).pending := List.count_pos_iff.mpr member
  obtain ⟨x, found⟩ := sound.listed step (.inl listed)
  have unprepared := sound.unprepared (by rw [locks]; rfl) found
  refine sound.operate found (modify_eq found) (fun other different => ?_) (fun placed => ?_) rfl
    (fun isIdle => by simp [locks] at isIdle) (.inl held_lock) ?_ rfl
  · simp [State.view, State.memberships, State.modify, State.lockedPending, State.lockedSeq,
      Waiter.runs, locks, different]
  · have isLocked := placed.lockPending (by simp [State.view, workersIdle]) unprepared listed
      (by simp [State.view, State.lockedPending, locks])
    refine (congrArg (Placed _ _ · _) ?_).mp isLocked
    simp [State.view, State.memberships, State.modify, State.lockedPending, State.lockedSeq,
      Waiter.runs, locks, member, (List.nodup_cons.mp nodup).1]
  · exact ⟨workersIdle, empty, fresh, (List.nodup_cons.mp nodup).2, fun other below =>
      within other (List.mem_cons_of_mem _ below)⟩

theorem Sound.lockSeq {i : Nat} (sound : Sound loose kind s)
    (locks : s.waiter = .lockSeq i (step :: rest)) :
    Sound loose kind { s.modify step fun x => if x.sched.status = .done then x else x.suspend with
      waiter := .lockSeq i rest } := by
  have quiet := sound.quiet
  rw [Quiet, locks] at quiet
  obtain ⟨workersIdle, empty, fresh, nodup, within⟩ := quiet
  have member : step ∈ s.seqSteps := within step List.mem_cons_self
  have listed : 0 < (s.view step).seq :=
    List.count_pos_iff.mpr (List.mem_append_left _ member)
  obtain ⟨x, found⟩ := sound.listed step (.inr listed)
  have unprepared := sound.unprepared (by rw [locks]; rfl) found
  refine sound.operate found (modify_eq found) (fun other different => ?_) (fun placed => ?_) rfl
    (fun isIdle => by simp [locks] at isIdle) (.inl held_lock) ?_ rfl
  · simp [State.view, State.memberships, State.modify, State.lockedPending, State.lockedSeq,
      Waiter.runs, locks, different]
  · have isLocked := placed.lockSeq (by simp [State.view, workersIdle]) unprepared listed
      (by simp [State.view, State.lockedSeq, locks])
    refine (congrArg (Placed _ _ · _) ?_).mp isLocked
    simp [State.view, State.memberships, State.modify, State.lockedPending, State.lockedSeq,
      Waiter.runs, locks, member, (List.nodup_cons.mp nodup).1]
  · exact ⟨workersIdle, empty, fresh, (List.nodup_cons.mp nodup).2, fun other below =>
      within other (List.mem_cons_of_mem _ below)⟩

theorem Sound.runSequential {i : Nat} (sound : Sound loose kind s)
    (served : s.waiter = .sequential i)
    (isNext : s.seq2 = step :: rest) :
    Sound loose kind { s.modify step fun x => { x with held := .executeBegin :: x.held } with
      seq2 := rest
      inFlight := step :: s.inFlight
      waiter := .running i step } := by
  have quiet := sound.quiet
  rw [Quiet, served] at quiet
  obtain ⟨workersIdle, fresh⟩ := quiet
  have once := (sound.placed step).lists_le.2
  have counts : s.seqSteps.count step = 0 ∧ rest.count step = 0 := by
    simp only [State.view, isNext, List.count_append, List.count_cons_self] at once
    omega
  have listed : 0 < (s.view step).seq := by
    simp only [State.view, isNext, List.count_append, List.count_cons_self]
    omega
  obtain ⟨x, found⟩ := sound.listed step (.inr listed)
  have unprepared := sound.unprepared (by rw [served]; rfl) found
  refine sound.operate found (modify_eq found) (fun other different => ?_) (fun placed => ?_) rfl
    (fun isIdle => by simp [served] at isIdle) ?_ ?_ rfl
  · simp [State.view, State.memberships, State.modify, State.lockedPending, State.lockedSeq,
      Waiter.runs, served, isNext, different, Ne.symm different, workersIdle]
  · have runs := placed.runSequential (by simp [State.view, workersIdle]) unprepared listed
      (by simp [State.view, State.lockedSeq, served, isNext]) unlocked_of_unlisted
    refine (congrArg (Placed _ _ · _) ?_).mp runs
    simp [State.view, State.memberships, State.modify, State.lockedPending, State.lockedSeq,
      Waiter.runs, served, workersIdle, counts, List.count_eq_zero.mp counts.2]
  · refine .inr ⟨fun phase held => ⟨unprepared phase held, ?_⟩, fun phase held => ?_⟩
    · rintro rfl
      have counted := sound.counted (inPhase_iff.mpr ⟨x, found, held⟩)
      simp [workersIdle] at counted
    · rcases List.mem_cons.mp held with rfl | held
      · rfl
      · exact unprepared phase held
  · exact ⟨by simp [workersIdle], fresh⟩

theorem Sound.deletePending {i currPend : Nat} (sound : Sound loose kind s)
    (served : s.waiter = .reschedule i currPend) (isNext : s.pendingSteps = step :: rest)
    (found : s.inst step = some x) (done : x.sched.status = .done) :
    Sound loose kind ({ s with pendingSteps := rest }.modify step Instance.delete) := by
  have quiet := sound.quiet
  rw [Quiet, served] at quiet
  have nodup := sound.pending_nodup
  rw [isNext] at nodup
  have notMem := (List.nodup_cons.mp nodup).1
  refine sound.operate found (modify_eq found) (fun other different => ?_) (fun placed => ?_) rfl
    (fun isIdle => by simp [served] at isIdle) (.inl rfl) ?_ rfl
  · simp [State.view, State.memberships, State.modify, State.lockedPending, State.lockedSeq,
      Waiter.runs, served, isNext, different, Ne.symm different]
  · have deleted := placed.deletePending (by simp [State.view, isNext]) done
    refine (congrArg (Placed _ _ · _) ?_).mp deleted
    simp [State.view, State.memberships, State.modify, State.lockedPending, State.lockedSeq,
      Waiter.runs, served, notMem, List.count_eq_zero.mpr notMem]
  · simp only [Quiet, State.modify, served]
    exact ⟨quiet.1, fun other again below => quiet.2 other again (by simp [isNext, below])⟩

theorem Sound.relaunch {i currPend : Nat} (sound : Sound loose kind s)
    (served : s.waiter = .reschedule i currPend) (isNext : s.pendingSteps = step :: rest)
    (found : s.inst step = some x) (notDone : x.sched.status ≠ .done) :
    Sound loose kind { (({ s with pendingSteps := rest }.modify step fun x =>
        { x.setStatus .fromPending with inPending := false }).enqueue step) with
      rescheduled := step :: s.rescheduled } := by
  have quiet := sound.quiet
  rw [Quiet, served] at quiet
  have nodup := sound.pending_nodup
  rw [isNext] at nodup
  have notMem := (List.nodup_cons.mp nodup).1
  have after : (({ s with pendingSteps := rest }.modify step fun x =>
      { x.setStatus .fromPending with inPending := false }).enqueue step).inst =
      Function.update s.inst step (some
        { x.setStatus .fromPending with inPending := false, queued := x.queued + 1 }) := by
    simp [State.enqueue, State.modify, found, Instance.setStatus]
  have scheduled : Sound loose kind (({ s with pendingSteps := rest }.modify step fun x =>
      { x.setStatus .fromPending with inPending := false }).enqueue step) := by
    refine sound.operate found after (fun other different => ?_) (fun placed => ?_) rfl
      (fun isIdle => by simp [served] at isIdle) (.inl rfl) ?_ rfl
    · simp [State.enqueue, State.view, State.memberships, State.modify, State.lockedPending,
        State.lockedSeq, Waiter.runs, served, isNext, different, Ne.symm different]
    · have relaunched := placed.relaunch (by simp [State.view, isNext])
        (by simp [State.view, State.lockedPending, served, isNext]) notDone
        (by simp [State.view, Waiter.runs, served])
      refine (congrArg (Placed _ _ · _) ?_).mp relaunched
      simp [State.enqueue, State.view, State.memberships, State.modify, State.lockedPending,
        State.lockedSeq, Waiter.runs, served, notMem, List.count_eq_zero.mpr notMem]
    · simp only [Quiet, State.enqueue, State.modify, served]
      exact ⟨quiet.1, fun other again below => quiet.2 other again (by simp [isNext, below])⟩
  refine ⟨scheduled.placed, { scheduled.threads with }, ?_, ?_⟩
  · simp only [Quiet, State.enqueue, State.modify, served]
    refine ⟨quiet.1, fun other again below => ?_⟩
    rcases List.mem_cons.mp again with rfl | again
    · exact notMem below
    · exact quiet.2 other again (by simp [isNext, below])
  · exact List.nodup_cons.mpr
      ⟨fun again => quiet.2 step again (by simp [isNext]), sound.rescheduled⟩

theorem Sound.waitAll (sound : Sound loose kind s) (waited : s.waitAll = some next) :
    Sound loose kind next := by
  rw [State.waitAll] at waited
  split at waited
  · cases waited
  · cases waited
  · rename_i i waits
    split at waited
    · rename_i workersIdle
      cases waited
      exact sound.startPass waits (List.isEmpty_iff.mp workersIdle)
    · cases waited
  · rename_i locks
    cases waited
    exact sound.lockPending locks
  · rename_i locks
    cases waited
    exact sound.startSeq locks
  · rename_i locks
    cases waited
    exact sound.lockSeq locks
  · rename_i locks
    cases waited
    exact sound.copySeq locks
  · rename_i i served
    split at waited
    · rename_i isNext
      cases waited
      exact sound.runSequential served isNext
    · rename_i empty
      cases waited
      exact sound.startReschedule served empty _
  · rename_i i currPend served
    split at waited
    · rename_i step rest isNext
      obtain ⟨x, found⟩ := sound.listed step (.inl (by simp [State.view, isNext]))
      simp only at waited
      split at waited
      · rename_i done
        cases waited
        refine sound.deletePending served isNext found ?_
        simpa [found] using done
      · rename_i notDone
        cases waited
        refine sound.relaunch served isNext found ?_
        simpa [found] using notDone
    · rename_i empty
      cases waited
      refine sound.endPass served empty ?_
      split
      · exact .inr rfl
      · exact .inl rfl

theorem sound_start (kind : Step → Kind) : Sound loose kind (start Step Item) where
  placed _ := .absent rfl rfl rfl rfl
  threads :=
    { active := fun _ busy => absurd rfl busy
      stacked := fun _ => trivial
      tested := fun _ _ impossible => by cases impossible
      resuming := fun _ _ impossible => by cases impossible
      prepares := fun _ _ _ _ impossible => by cases impossible }
  quiet := rfl
  rescheduled := List.nodup_nil

variable [DecidableEq Item]

/-- What the invariant needs to know about the next action. -/
structure Permits (loose : Bool) (kind : Step → Kind) (s : State Step Item)
    (action : Action Step Item) : Prop where
  schedules : ∀ scheduled, s.schedules kind action = some scheduled →
    Schedules loose s (s.scheduler action) scheduled
  gets : ∀ thread item, action = .get thread item → loose = true → s.guarded thread = true
  returns : ∀ step outcome, action = .return_ step outcome → s.mayEnd step outcome = true

theorem permits_of_exclusive {action : Action Step Item}
    (exclusive : s.exclusive kind action = true) : Permits false kind s action := by
  obtain ⟨schedules, ends⟩ := Bool.and_eq_true_iff.mp exclusive
  refine ⟨fun scheduled isScheduled => ?_, (fun _ _ _ impossible => by cases impossible), ?_⟩
  · rw [isScheduled] at schedules
    have both : s.waiter.isRunning = false ∧ s.sequentialized scheduled = false := by
      simpa using schedules
    exact ⟨both.2, .inl both.1⟩
  · rintro step outcome rfl
    exact ends

theorem permits_of_orderly {action : Action Step Item} (orderly : s.orderly kind action = true) :
    Permits true kind s action := by
  obtain ⟨schedules, ends⟩ := Bool.and_eq_true_iff.mp orderly
  refine ⟨fun scheduled isScheduled => ?_, ?_, ?_⟩
  · rw [isScheduled] at schedules
    have both : (s.waiter.isRunning = false ∨ (s.scheduler action).any s.sequentialized = true) ∧
        s.sequentialized scheduled = false := by
      simpa using schedules
    refine ⟨both.2, ?_⟩
    cases isRunning : s.waiter.isRunning with
    | false => exact .inl rfl
    | true => exact .inr ⟨rfl, rfl, both.1.resolve_left (by simp [isRunning])⟩
  · rintro thread item rfl -
    exact ends
  · rintro step outcome rfl
    exact ends

theorem Sound.preserved {action : Action Step Item} (sound : Sound loose kind s)
    (permits : Permits loose kind s action)
    (stepped : WaitAll.step kind s action = some next) : Sound loose kind next := by
  cases action with
  | create thread step =>
      simp only [WaitAll.step] at stepped
      split at stepped
      · rename_i creates
        cases stepped
        rw [Bool.and_eq_true, Option.isNone_iff_eq_none] at creates
        exact sound.create creates.1 creates.2
      · cases stepped
  | prepare thread =>
      simp only [WaitAll.step] at stepped
      split at stepped
      · rename_i is
        cases stepped
        exact sound.test is
      · rename_i step rest is
        obtain ⟨x, found, prepared⟩ := Option.bind_eq_some_iff.mp stepped
        by_cases begins : .prepareBegin thread ∈ x.held
        · exact sound.prepareBegin is found begins prepared
        · by_cases ends : .prepareEnd thread ∈ x.held
          · refine sound.prepareEnd is found ends (fun scheduled isScheduled => ?_) prepared
            have schedules := permits.schedules scheduled isScheduled
            rwa [State.scheduler, is] at schedules
          · simp [State.prepare, begins, ends] at prepared
      · cases stepped
  | depends thread item =>
      simp only [WaitAll.step] at stepped
      split at stepped
      · split at stepped
        · rename_i misses
          cases stepped
          simp only [Bool.and_eq_true, Bool.not_eq_true'] at misses
          obtain ⟨x, found, held⟩ := inPhase_iff.mp misses.1.1
          exact sound.suspend found held (.inr (.inr ⟨thread, rfl, misses.1.2⟩))
        · cases stepped
      · cases stepped
  | prepared thread =>
      simp only [WaitAll.step] at stepped
      split at stepped
      · rename_i is
        split at stepped
        · rename_i prepares
          cases stepped
          obtain ⟨x, found, held⟩ := inPhase_iff.mp prepares
          exact sound.prepared is found held
        · cases stepped
      · cases stepped
  | preExecuted thread outcome =>
      simp only [WaitAll.step] at stepped
      split at stepped
      · rename_i step rest is
        split at stepped
        · rename_i prescheduled
          obtain ⟨x, found, held⟩ := inPhase_iff.mp prescheduled
          exact sound.preExecuted is found held stepped
        · split at stepped
          · rename_i prescheduled
            obtain ⟨x, found, held⟩ := inPhase_iff.mp prescheduled
            exact sound.preExecuted is found held stepped
          · cases stepped
      · cases stepped
  | get thread item =>
      simp only [WaitAll.step] at stepped
      split at stepped
      · rename_i misses
        cases stepped
        have runs := (Bool.and_eq_true_iff.mp misses).1
        refine sound.get runs ?_
        cases loose with
        | false => exact sound.guarded runs
        | true => exact permits.gets thread item rfl rfl
      · cases stepped
  | put thread item =>
      simp only [WaitAll.step] at stepped
      split at stepped
      · rename_i puts
        cases stepped
        exact sound.put (Bool.and_eq_true_iff.mp puts).1
      · cases stepped
  | resume thread => exact sound.resume permits.schedules stepped
  | pop step =>
      simp only [WaitAll.step] at stepped
      split at stepped
      · rename_i isQueued
        cases stepped
        obtain ⟨x, found, nonempty⟩ := Option.any_eq_true .. |>.mp isQueued
        exact sound.pop found (of_decide_eq_true nonempty)
      · cases stepped
  | advance step phase =>
      obtain ⟨x, found, advances⟩ := Option.bind_eq_some_iff.mp stepped
      split at advances
      · rename_i held
        exact sound.advance found (List.contains_iff_mem.mp held) advances
      · cases advances
  | return_ step outcome =>
      simp only [WaitAll.step] at stepped
      split at stepped
      · rename_i returns
        simp only [Bool.and_eq_true, decide_eq_true_eq] at returns
        obtain ⟨x, found, held⟩ := inPhase_iff.mp returns.1
        exact sound.return_ found held returns.2 (permits.returns step outcome rfl) stepped
      · cases stepped
  | wait =>
      simp only [WaitAll.step] at stepped
      split at stepped
      · rename_i waits
        cases stepped
        simp only [Bool.and_eq_true, decide_eq_true_eq] at waits
        exact sound.wait waits.1 waits.2
      · cases stepped
  | waitAll => exact sound.waitAll stepped

theorem sound_of_reached (reached : Reached (system kind)
    (fun s action => State.exclusive kind s action = true) s) : Sound false kind s := by
  refine Reached.invariant (Sound false kind) ?_ ?_ reached
  · rintro _ rfl
    exact sound_start kind
  · intro s action next _ sound exclusive stepped
    exact sound.preserved (permits_of_exclusive exclusive) stepped

theorem sound_of_orderly (reached : Reached (system kind)
    (fun s action => State.orderly kind s action = true) s) : Sound true kind s := by
  refine Reached.invariant (Sound true kind) ?_ ?_ reached
  · rintro _ rfl
    exact sound_start kind
  · intro s action next _ sound orderly stepped
    exact sound.preserved (permits_of_orderly orderly) stepped

end Steps

end CnC.WaitAll
