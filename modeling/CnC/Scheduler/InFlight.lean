import Mathlib.Data.Set.Card
import CnC.Scheduler.Bypass

/-!
# The work in flight

The places hold the steps which are counted in `m_userStepsInFlight`: every call of
`schedule` which counts a step is executed by one pass and counted down once.
-/

namespace CnC.Execute

open Transition CnC.Scheduler Places

universe u

variable {Step Item Thread : Type u} [DecidableEq Step]

/-- Where the counted steps are: queued, hung on an instance, executing, or about to be
queued or hung. -/
def State.jobs (s : State Step Item Thread) : Set (Place Thread) :=
  {place | (s.job place).isSome}

/-- No step is lost or executed twice.  Every call of `schedule` which has counted a
step waits at one place for its pass or is in it, or had one pass and one decrement. -/
structure Exact (s : State Step Item Thread) : Prop where
  calls : ∀ (ticket : Nat) (step : Step), s.history.calls[ticket]? = some step →
    (∃ place, s.job place = some (step, ticket) ∧
        (∀ other target, s.job other = some (target, ticket) → other = place) ∧
        s.history.ended ticket = 0 ∧
        s.history.started ticket = if place.isPass then [step] else []) ∨
      ((∀ place target, s.job place ≠ some (target, ticket)) ∧
        s.history.ended ticket = 1 ∧ s.history.started ticket = [step])
  jobs : ∀ place step ticket, s.job place = some (step, ticket) →
    s.history.calls[ticket]? = some step
  others : ∀ ticket, s.history.calls.length ≤ ticket →
    s.history.started ticket = [] ∧ s.history.ended ticket = 0
  finite : s.jobs.Finite
  inFlight : s.userStepsInFlight = s.waiters + s.jobs.ncard

variable {s : State Step Item Thread} {ledger : Nat → Option (Place Thread)}

namespace Booked

theorem injOn (booked : Booked s ledger) : Set.InjOn s.ticketAt s.jobs := by
  intro p isJob q _ same
  obtain ⟨⟨step, ticket⟩, here⟩ := Option.isSome_iff_exists.mp isJob
  have atP := ticketAt_of_job here
  exact booked.located.unique atP (same ▸ atP)

theorem image_jobs (booked : Booked s ledger) :
    s.ticketAt '' s.jobs = some '' (s.open_ : Set Nat) := by
  ext found
  constructor
  · rintro ⟨p, isJob, rfl⟩
    obtain ⟨⟨step, ticket⟩, here⟩ := Option.isSome_iff_exists.mp isJob
    have isAt := ticketAt_of_job here
    have isOpen := (booked.running ticket p ((booked.located _ _).mp isAt)).1
    rw [isAt]
    refine ⟨ticket, ?_, rfl⟩
    rw [State.open_, Finset.mem_coe, Finset.mem_filter, Finset.mem_range]
    exact ⟨booked.lt_length here, isOpen⟩
  · rintro ⟨ticket, isOpen, rfl⟩
    rw [State.open_, Finset.mem_coe, Finset.mem_filter, Finset.mem_range] at isOpen
    obtain ⟨inside, notEnded⟩ := isOpen
    cases isAt : ledger ticket with
    | none =>
        have ended := (booked.finished ticket inside isAt).1
        omega
    | some p =>
        have here := (booked.located _ _).mpr isAt
        obtain ⟨job, isJob, -⟩ := Option.map_eq_some_iff.mp here
        exact ⟨p, Option.isSome_iff_exists.mpr ⟨job, isJob⟩, here⟩

theorem finite_jobs (booked : Booked s ledger) : s.jobs.Finite := by
  refine Set.Finite.of_finite_image ?_ booked.injOn
  rw [booked.image_jobs]
  exact s.open_.finite_toSet.image some

theorem ncard_jobs (booked : Booked s ledger) : s.jobs.ncard = s.open_.card := by
  rw [← booked.injOn.ncard_image, booked.image_jobs,
    Set.ncard_image_of_injective _ (Option.some_injective Nat), Set.ncard_coe_finset]

theorem exact (booked : Booked s ledger) : Exact s where
  calls ticket step isCall := by
    cases isAt : ledger ticket with
    | some p =>
        have here := (booked.located _ _).mpr isAt
        obtain ⟨⟨target, number⟩, isJob, rfl⟩ := Option.map_eq_some_iff.mp here
        have isTarget := booked.target p target number isJob
        rw [isCall] at isTarget
        cases isTarget
        obtain ⟨notEnded, started⟩ := booked.running number p isAt
        rw [isCall] at started
        refine .inl ⟨p, isJob, ?_, notEnded, started⟩
        intro other target isOther
        exact booked.located.unique (ticketAt_of_job isOther) here
    | none =>
        have inside := (List.getElem?_eq_some_iff.mp isCall).1
        obtain ⟨ended, started⟩ := booked.finished ticket inside isAt
        rw [isCall] at started
        refine .inr ⟨?_, ended, started⟩
        intro place target isJob
        rw [(booked.located _ _).mp (ticketAt_of_job isJob)] at isAt
        cases isAt
  jobs := booked.target
  others := booked.later
  finite := booked.finite_jobs
  inFlight := by
    rw [booked.ncard_jobs]
    exact booked.inFlight

end Booked

namespace Exact

theorem nonneg (exactly : Exact s) : 0 ≤ s.userStepsInFlight := by
  rw [exactly.inFlight]
  positivity

theorem eq_zero_iff (exactly : Exact s) :
    s.userStepsInFlight = 0 ↔ s.waiters = 0 ∧ ∀ place, s.job place = none := by
  have empty : s.jobs.ncard = 0 ↔ ∀ place, s.job place = none := by
    rw [Set.ncard_eq_zero exactly.finite, Set.eq_empty_iff_forall_notMem]
    simp [State.jobs]
  rw [exactly.inFlight, ← empty]
  omega

theorem done (exactly : Exact s) (nothing : ∀ place, s.job place = none) {ticket : Nat}
    {step : Step} (isCall : s.history.calls[ticket]? = some step) :
    s.history.ended ticket = 1 ∧ s.history.started ticket = [step] := by
  rcases exactly.calls ticket step isCall with ⟨place, isJob, -⟩ | ⟨-, finished⟩
  · rw [nothing place] at isJob
    cases isJob
  · exact finished

end Exact

variable [DecidableEq Item] [DecidableEq Thread] {bypass : Bool}

/-- Scheduler bypass neither loses nor duplicates work in the runs in which no pass
starts with an instance whose successor another pass has still to clear. -/
theorem bypass_exact (reached : Reached (system bypass) (NoPassInWindow bypass) s) :
    Exact s ∧ 0 ≤ s.userStepsInFlight ∧
      (s.userStepsInFlight = 0 ↔ s.waiters = 0 ∧ ∀ place, s.job place = none) ∧
      ((∀ place, s.job place = none) → ∀ (ticket : Nat) (step : Step),
        s.history.calls[ticket]? = some step →
        s.history.ended ticket = 1 ∧ s.history.started ticket = [step]) := by
  obtain ⟨place, ledger, -, booked⟩ := kept_of_reached reached
  have exactly := booked.exact
  exact ⟨exactly, exactly.nonneg, exactly.eq_zero_iff,
    fun nothing ticket step isCall => exactly.done nothing isCall⟩

instance [Fintype Thread] (s : State Step Item Thread) (step : Step) :
    Decidable (s.InWindow step) :=
  inferInstanceAs (Decidable (∃ thread, s.windowAt thread = some step))

instance [Fintype Step] [Fintype Thread] (s : State Step Item Thread)
    (action : Action Step Item Thread) : Decidable (NoPassInWindow bypass s action) :=
  inferInstanceAs (Decidable (bypass = true → ∀ step, s.starts action = some step →
    ¬ s.InWindow step))

/-- Step 0 fails to get an item, is resumed by a put of thread 0 as soon as thread 1 has
unsuspended it, and is executed again by thread 2, if `overtaken` before thread 1 clears
`m_succStep`.  It creates step 1, which is hung on it as its successor. -/
def replay (overtaken : Bool) : List (Action (Fin 2) (Fin 1) (Fin 3)) :=
  let created := fun thread step =>
    [.create thread step, .advanceCall thread, .prepared thread] ++
      List.replicate 4 (.advanceCall thread)
  let cleared := List.replicate 4 (.advancePass 1)
  created 0 0 ++ [.pop 1 0, .advancePass 1, .get 1 0, .return_ 1 .unfinished, .advancePass 1,
    .advancePass 1, .put 0 0] ++ List.replicate 6 (.advanceCall 0) ++
    (if overtaken then [] else cleared) ++ [.pop 2 1, .advancePass 2] ++ created 2 1 ++
    (if overtaken then cleared else []) ++ [.return_ 2 .success] ++
    List.replicate 4 (.advancePass 2)

/-- Thread 1 clears `m_succStep` after the step was hung: it is never executed, and
`m_userStepsInFlight` stays at one. -/
theorem bypass_loses_successor :
    ¬ ∀ s : State (Fin 2) (Fin 1) (Fin 3), Reachable (system true) s → Exact s := by
  intro always
  have reached : Reachable (system true) _ := Reached.run (.initial rfl) (replay true) rfl
  rcases (always _ reached).calls 2 1 rfl with ⟨place, isJob, -⟩ | ⟨-, ended, -⟩
  · cases place with
    | queue ticket =>
        obtain ⟨step, queued, same⟩ := Option.map_eq_some_iff.mp isJob
        cases same
        cases queued
    | pass thread => fin_cases thread <;> cases isJob
    | succ thread => fin_cases thread <;> cases isJob
    | call thread => fin_cases thread <;> cases isJob
  · cases ended

theorem bypass_exact_replay :
    ∃ s : State (Fin 2) (Fin 1) (Fin 3),
      (system true).run (NoPassInWindow true) (start _ _ _) (replay false) = some s ∧
      s.history.calls = [0, 0, 1] ∧ s.job (.pass 2) = some (1, 2) ∧ Exact s := by
  have reached : Reached (system true) (NoPassInWindow true) _ :=
    Reached.run (.initial rfl) (replay false) rfl
  exact ⟨_, rfl, rfl, rfl, (bypass_exact reached).1⟩

end CnC.Execute
