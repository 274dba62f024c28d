import CnC.Scheduler.Exclusive

/-!
# Executions, the pending list and sequentialized steps

What the invariant of the runs of `wait_all` says about every execution and about the two
lists, and the runs outside of it in which the code goes wrong.
-/

namespace CnC.WaitAll

open Transition CnC.Scheduler

universe u

variable {Step Item : Type u} [DecidableEq Step] [DecidableEq Item] {kind : Step → Kind}
  {s : State Step Item}

/-- Steps 0 and 3 are sequentialized by their tuner, and step 2 is a range which checks
dependencies. -/
def kinds : Nat → Kind
  | 0 | 3 => .step true false
  | 2 => .range true
  | _ => .step false false

/-- A thread creates a step instance, and `prepare` schedules or sequentializes it. -/
def creates (thread : Option Nat) (step : Nat) : List (Action Nat Nat) :=
  [.create thread step, .prepare thread, .prepared thread, .prepare thread]

/-- A range misses item 7 and registers as pending. -/
def rangeWakes : List (Action Nat Nat) :=
  creates none 2 ++ [.pop 2, .advance 2 .executeBegin, .get (some 2) 7,
    .return_ 2 (.value .needsExtraWake), .advance 2 (.executeEnd .unfinished)]

/-- A schedulable which is executed is known to this execution alone, and carries a guard
on top of its suspend groups, so that no put schedules it. -/
theorem execution_guarded (reached : Reached (system kind)
      (fun s action => State.exclusive kind s action = true) s)
    (step : Step) (x : Instance Step) (found : s.inst step = some x)
    (executes : .executing ∈ x.held) :
    x.deleted = false ∧ x.queued = 0 ∧ x.held = [.executing] ∧
      (s.memberships step : Int) + 1 ≤ x.sched.nSuspenders ∧
      (x.sequentialize = false → x.sched.nSuspenders = s.memberships step + 1) := by
  have sound := sound_of_reached reached
  have placed : Placed false (kind step) (s.view step) (some x) := found ▸ sound.placed step
  obtain ⟨alive, -, notQueued, alone, executes, -⟩ := placed.of_held executes (by simp)
  refine ⟨alive, notQueued, alone, executes.guarded, fun ordinary => ?_⟩
  rcases executes.counter with ⟨-, -, counter | unguarded⟩ | ⟨isSeq, -⟩
  · exact counter
  · cases unguarded.loose
  · simp [ordinary] at isSeq

/-- The next pass of `wait_all` schedules the range from the pending list. -/
theorem execution_guarded_from_pending : ∃ s : State Nat Nat, Reached (system kinds)
      (fun s action => State.exclusive kinds s action = true) s ∧
    ∃ x, s.inst 2 = some x ∧ .executing ∈ x.held ∧ s.memberships 2 = 1 ∧
      x.sched.nSuspenders = 2 := by
  have shown : ((system kinds).run (fun s action => State.exclusive kinds s action = true)
      (start Nat Nat) (rangeWakes ++ [.wait] ++ List.replicate 7 .waitAll ++
        [.pop 2, .advance 2 .executeBegin])).bind
      (fun s => (s.inst 2).map fun x => (x.held, x.sequentialize, s.memberships 2)) =
        some ([.executing], false, 1) := by decide
  obtain ⟨s, computed, after⟩ := Option.bind_eq_some_iff.mp shown
  obtain ⟨x, found, isAfter⟩ := Option.map_eq_some_iff.mp after
  simp only [Prod.mk.injEq] at isAfter
  have reached := Reached.run (.initial rfl) _ computed
  have executes : .executing ∈ x.held := by simp [isAfter.1]
  have guarded := execution_guarded reached 2 x found executes
  refine ⟨s, reached, x, found, executes, isAfter.2.2, ?_⟩
  rw [guarded.2.2.2.2 isAfter.2.1, isAfter.2.2]
  rfl

/-- A sequentialized step creates step 1 while the wait thread executes it: step 1 becomes
pending after `wait_all` has locked the list, and is executed without a guard. -/
theorem execution_unguarded : ∃ s : State Nat Nat, Reachable (system kinds) s ∧
    ∃ x, s.inst 1 = some x ∧ .executing ∈ x.held ∧
      ¬ (s.memberships 1 : Int) + 1 ≤ x.sched.nSuspenders := by
  have shown : ((system kinds).run (fun _ _ => True) (start Nat Nat)
      (creates none 0 ++ [.wait] ++ List.replicate 5 .waitAll ++ [.advance 0 .executeBegin] ++
        creates (some 0) 1 ++ [.return_ 0 (.value .success), .advance 0 .succeeded,
        .advance 0 .testing, .advance 0 .deleting, .waitAll, .waitAll, .pop 1,
        .advance 1 .executeBegin])).bind
      (fun s => (s.inst 1).map fun x => (x.held, x.sched.nSuspenders, s.memberships 1)) =
        some ([.executing], 0, 0) := by decide
  obtain ⟨s, computed, after⟩ := Option.bind_eq_some_iff.mp shown
  obtain ⟨x, found, isAfter⟩ := Option.map_eq_some_iff.mp after
  simp only [Prod.mk.injEq] at isAfter
  refine ⟨s, Reached.run (.initial rfl) _ computed, x, found, by simp [isAfter.1], ?_⟩
  rw [isAfter.2.1, isAfter.2.2]
  decide

/-- Where sequentialized steps schedule nothing, no execution misses an item without a
guard. -/
theorem orderly_of_exclusive (reached : Reached (system kind)
      (fun s action => State.exclusive kind s action = true) s) :
    Reached (system kind) (fun s action => State.orderly kind s action = true) s := by
  refine Reached.invariant _ (fun _ => .initial) (fun s action next before orderly exclusive
    stepped => orderly.step ?_ stepped) reached
  obtain ⟨schedules, ends⟩ := Bool.and_eq_true_iff.mp exclusive
  refine Bool.and_eq_true_iff.mpr ⟨?_, ?_⟩
  · rw [Option.all_eq_true] at schedules ⊢
    intro step isScheduled
    obtain ⟨parallel, ordinary⟩ := Bool.and_eq_true_iff.mp (schedules step isScheduled)
    simp only [parallel, ordinary, Bool.true_or, Bool.and_self]
  · cases action with
    | get thread item =>
        obtain ⟨misses, -⟩ := Option.ite_none_right_eq_some.mp stepped
        exact (sound_of_reached before).guarded (Bool.and_eq_true_iff.mp misses).1
    | return_ step outcome => exact ends
    | _ => rfl

/-- A schedulable is in `m_pendingSteps` once, is scheduled by a pass of `wait_all` once,
and is not deleted while it is listed. -/
theorem pending_unique (reached : Reached (system kind)
      (fun s action => State.orderly kind s action = true) s) :
    s.pendingSteps.Nodup ∧ s.rescheduled.Nodup ∧
      ∀ step ∈ s.pendingSteps, ∃ x, s.inst step = some x ∧ x.deleted = false := by
  have sound := sound_of_orderly reached
  refine ⟨sound.pending_nodup, sound.rescheduled, fun step member => ?_⟩
  have listed : 0 < (s.view step).pending := List.count_pos_iff.mpr member
  obtain ⟨x, found⟩ := sound.listed step (.inl listed)
  have placed : Placed true (kind step) (s.view step) (some x) := found ▸ sound.placed step
  refine ⟨x, found, ?_⟩
  cases placed with
  | alive alive => exact alive
  | postponed postponed => exact postponed.alive
  | gone _ gone => exact absurd gone.pending (Nat.ne_of_gt listed)

/-- While the range is pending, a sequentialized step schedules step 1.  `wait_all`
schedules both, and the range misses another item. -/
def rangeWakesAgain : List (Action Nat Nat) :=
  creates none 0 ++ rangeWakes ++ [.wait] ++ List.replicate 6 .waitAll ++
    [.advance 0 .executeBegin] ++ creates (some 0) 1 ++
    [.return_ 0 (.value .success), .advance 0 .succeeded, .advance 0 .testing,
      .advance 0 .deleting] ++ List.replicate 4 .waitAll ++
    [.pop 2, .advance 2 .executeBegin, .get (some 2) 8, .return_ 2 (.value .needsExtraWake)]

/-- The range is in the pending list again. -/
theorem pending_unique_range : ∃ s : State Nat Nat, Reached (system kinds)
      (fun s action => State.orderly kinds s action = true) s ∧
    s.pendingSteps = [2] ∧ s.rescheduled = [2, 1] ∧ s.rescheduled.Nodup ∧
    ∃ x, s.inst 2 = some x ∧ x.deleted = false := by
  have shown : ((system kinds).run (fun s action => State.orderly kinds s action = true)
      (start Nat Nat) rangeWakesAgain).map (fun s => (s.pendingSteps, s.rescheduled)) =
        some ([2], [2, 1]) := by decide
  obtain ⟨s, computed, after⟩ := Option.map_eq_some_iff.mp shown
  simp only [Prod.mk.injEq] at after
  have reached := Reached.run (.initial rfl) _ computed
  obtain ⟨-, once, listed⟩ := pending_unique reached
  exact ⟨s, reached, after.1, after.2, once, listed 2 (by simp [after.1])⟩

/-- A put resumes the range, which misses another item: it registers twice. -/
theorem pending_twice : ∃ s : State Nat Nat, Reachable (system kinds) s ∧
    ¬ s.pendingSteps.Nodup := by
  have shown : ((system kinds).run (fun _ _ => True) (start Nat Nat)
      (rangeWakes ++ [.put none 7, .resume none, .resume none, .pop 2, .advance 2 .executeBegin,
        .get (some 2) 8, .return_ 2 (.value .needsExtraWake)])).map (·.pendingSteps) =
      some [2, 2] := by decide
  obtain ⟨s, computed, isPending⟩ := Option.map_eq_some_iff.mp shown
  refine ⟨s, Reached.run (.initial rfl) _ computed, ?_⟩
  rw [isPending]
  decide

/-- A listed schedulable is listed once, in no queue, not executed and not deleted, and after
its registration the wait thread executes it while nothing else is queued or executed. -/
theorem sequentialized_alone (reached : Reached (system kind)
      (fun s action => State.orderly kind s action = true) s) (step : Step) :
    (step ∈ s.seqSteps ++ s.seq2 → (s.seqSteps ++ s.seq2).count step = 1 ∧
      ∃ x, s.inst step = some x ∧ x.deleted = false ∧ x.queued = 0 ∧
        .executeBegin ∉ x.held ∧ .executing ∉ x.held) ∧
    (s.sequentialized step = true → s.inPhase step .executing = true →
      (∃ i, s.waiter = .running i step) ∧
      ∀ other y, s.inst other = some y → other ≠ step → y.queued = 0 ∧ .executing ∉ y.held) := by
  have sound := sound_of_orderly reached
  refine ⟨fun member => ?_, fun isSequentialized isExecuting => ?_⟩
  · have listed : 0 < (s.view step).seq := List.count_pos_iff.mpr member
    obtain ⟨x, found⟩ := sound.listed step (.inr listed)
    have placed : Placed true (kind step) (s.view step) (some x) := found ▸ sound.placed step
    have once : (s.seqSteps ++ s.seq2).count step ≤ 1 := placed.lists_le.2
    have atLeast : 0 < (s.seqSteps ++ s.seq2).count step := listed
    exact ⟨by omega, x, found, placed.sequentialized listed⟩
  · obtain ⟨x, found, held⟩ := inPhase_iff.mp isExecuting
    have placed : Placed true (kind step) (s.view step) (some x) := found ▸ sound.placed step
    obtain ⟨-, -, -, -, executes, -⟩ := placed.of_held held (by simp)
    have isSeq : x.sequentialize = true := by
      simpa [State.sequentialized, found] using isSequentialized
    have running : s.waiter.runs step = true := by
      rcases executes.counter with ⟨ordinary, -⟩ | ⟨-, running, -⟩
      · simp [ordinary] at isSeq
      · exact running
    have quiet := sound.quiet
    cases isWaiter : s.waiter with
    | running i current =>
        obtain rfl : current = step := by simpa [isWaiter, Waiter.runs] using running
        rw [Quiet, isWaiter] at quiet
        refine ⟨⟨i, rfl⟩, fun other y isOther different => ⟨?_, fun executes => ?_⟩⟩
        · by_contra isQueued
          exact different (quiet.1 other
            (sound.mem_inFlight isOther (.inl (Nat.pos_of_ne_zero isQueued))))
        · exact different (quiet.1 other (sound.mem_inFlight isOther (.inr executes)))
    | idle => simp [isWaiter, Waiter.runs] at running
    | waiting => simp [isWaiter, Waiter.runs] at running
    | lockPending => simp [isWaiter, Waiter.runs] at running
    | lockSeq => simp [isWaiter, Waiter.runs] at running
    | sequential => simp [isWaiter, Waiter.runs] at running
    | reschedule => simp [isWaiter, Waiter.runs] at running

/-- The wait thread executes the first of two sequentialized steps, which schedules
another step. -/
theorem sequentialized_alone_two : ∃ s : State Nat Nat, Reached (system kinds)
      (fun s action => State.orderly kinds s action = true) s ∧
    s.seqSteps ++ s.seq2 = [0] ∧ (s.seqSteps ++ s.seq2).count 0 = 1 ∧
    s.sequentialized 3 = true ∧ s.inPhase 3 .executing = true ∧
    ∃ i, s.waiter = .running i 3 := by
  have shown : ((system kinds).run (fun s action => State.orderly kinds s action = true)
      (start Nat Nat) (creates none 0 ++ creates none 3 ++ [.wait] ++ List.replicate 6 .waitAll ++
        [.advance 3 .executeBegin] ++ creates (some 3) 1)).map
      (fun s => (s.seqSteps ++ s.seq2, s.sequentialized 3, s.inPhase 3 .executing)) =
        some ([0], true, true) := by decide
  obtain ⟨s, computed, after⟩ := Option.map_eq_some_iff.mp shown
  simp only [Prod.mk.injEq] at after
  obtain ⟨listed, isSequentialized, executes⟩ := after
  have reached := Reached.run (.initial rfl) _ computed
  have isListed := (sequentialized_alone reached 0).1 (by simp [listed])
  have alone := (sequentialized_alone reached 3).2 isSequentialized executes
  exact ⟨s, reached, listed, isListed.1, isSequentialized, executes, alone.1⟩

/-- A step misses an item, asks to be sequentialized, and a put of the item schedules it. -/
theorem sequentialized_resumed : ∃ s : State Nat Nat, Reachable (system kinds) s ∧
    1 ∈ s.seqSteps ∧ ∃ x, s.inst 1 = some x ∧ x.queued ≠ 0 := by
  have shown : ((system kinds).run (fun _ _ => True) (start Nat Nat)
      (creates none 1 ++ [.pop 1, .advance 1 .executeBegin, .get (some 1) 7,
        .return_ 1 (.value .needsSequentialize), .advance 1 (.executeEnd .needsSequentialize),
        .put none 7, .resume none])).bind
      (fun s => (s.inst 1).map fun x => (s.seqSteps, x.queued)) = some ([1], 1) := by decide
  obtain ⟨s, computed, after⟩ := Option.bind_eq_some_iff.mp shown
  obtain ⟨x, found, isAfter⟩ := Option.map_eq_some_iff.mp after
  simp only [Prod.mk.injEq] at isAfter
  refine ⟨s, Reached.run (.initial rfl) _ computed, by simp [isAfter.1], x, found, ?_⟩
  rw [isAfter.2]
  decide

end CnC.WaitAll
